/-!
# Tables

A `Table` is a finite map kept as a list of pairs with distinct keys. A new key goes to the end
and a present key keeps its place. `find?_insert` and `find?_erase` say what each operation does
to a look-up, and `size` counts the keys.
-/

namespace KernelFusion

/-- A finite map: pairs of a key and what it is bound to, no key twice. -/
structure Table (κ α : Type) where
  entries : List (κ × α)
  distinct : (entries.map Prod.fst).Nodup
deriving DecidableEq

namespace Table

variable {κ α : Type} [DecidableEq κ]

/-- The table without keys. -/
def empty : Table κ α := ⟨[], List.nodup_nil⟩

instance : Inhabited (Table κ α) := ⟨empty⟩

/-- What a key is bound to, if anything. -/
def find? (t : Table κ α) (k : κ) : Option α := t.entries.lookup k

/-- The keys in order of arrival. -/
def keys (t : Table κ α) : List κ := t.entries.map Prod.fst

/-- The number of keys. -/
def size (t : Table κ α) : Nat := t.entries.length

theorem lookup_cons_eq_ite (q : κ) (e : κ × α) (rest : List (κ × α)) :
    List.lookup q (e :: rest) = if q = e.1 then some e.2 else List.lookup q rest := by
  rw [List.lookup_cons]
  by_cases h : q = e.1
  · simp [h]
  · simp [h, beq_false_of_ne h]

/-- The keys are what a look-up finds something for. -/
theorem mem_keys_iff {t : Table κ α} {k : κ} : k ∈ t.keys ↔ ∃ x, t.find? k = some x := by
  rw [← Option.ne_none_iff_exists', find?, Ne, List.lookup_eq_none_iff, keys]
  simp

/-! ## Binding a key -/

/-- Rebinds `k` where it stands in a list of pairs, or adds it at the end. -/
def bindIn (k : κ) (x : α) : List (κ × α) → List (κ × α)
  | [] => [(k, x)]
  | e :: rest => if e.1 = k then (k, x) :: rest else e :: bindIn k x rest

theorem mem_keys_bindIn {k : κ} {x : α} {es : List (κ × α)} {q : κ} :
    q ∈ (bindIn k x es).map Prod.fst ↔ q = k ∨ q ∈ es.map Prod.fst := by
  induction es with
  | nil => simp [bindIn]
  | cons e rest ih =>
    unfold bindIn
    split
    · rename_i h
      simp [← h]
    · rw [List.map_cons, List.mem_cons, ih, List.map_cons, List.mem_cons, or_left_comm]

/-- Rebinding keeps the keys distinct, because a present key keeps its place. -/
theorem nodup_bindIn {k : κ} {x : α} {es : List (κ × α)} (distinct : (es.map Prod.fst).Nodup) :
    ((bindIn k x es).map Prod.fst).Nodup := by
  induction es with
  | nil => simp [bindIn]
  | cons e rest ih =>
    rw [List.map_cons, List.nodup_cons] at distinct
    unfold bindIn
    split
    · rename_i h
      simpa [← h] using distinct
    · rename_i h
      rw [List.map_cons, List.nodup_cons, mem_keys_bindIn]
      exact ⟨fun hm => hm.elim h distinct.1, ih distinct.2⟩

/-- Looking a key up after another was bound. -/
theorem lookup_bindIn {k q : κ} {x : α} {es : List (κ × α)} :
    (bindIn k x es).lookup q = if q = k then some x else es.lookup q := by
  induction es with
  | nil => rw [bindIn, lookup_cons_eq_ite]
  | cons e rest ih =>
    unfold bindIn
    split
    · rename_i h
      rw [lookup_cons_eq_ite, lookup_cons_eq_ite, h]
      split <;> rfl
    · rename_i h
      rw [lookup_cons_eq_ite, lookup_cons_eq_ite, ih]
      by_cases hq : q = k
      · rw [if_neg (fun he : q = e.1 => h (he.symm.trans hq)), if_pos hq, if_pos hq]
      · rw [if_neg hq, if_neg hq]

/-- Binds `k` to `x`. -/
def insert (t : Table κ α) (k : κ) (x : α) : Table κ α :=
  ⟨bindIn k x t.entries, nodup_bindIn t.distinct⟩

/-- Binding a key changes the look-up of that key only. -/
theorem find?_insert (t : Table κ α) (k q : κ) (x : α) :
    (t.insert k x).find? q = if q = k then some x else t.find? q :=
  lookup_bindIn

/-! ## Unbinding a key -/

/-- Unbinds `k`. -/
def erase (t : Table κ α) (k : κ) : Table κ α :=
  ⟨t.entries.filter fun e => e.1 ≠ k,
    t.distinct.sublist (List.Sublist.map _ List.filter_sublist)⟩

/-- Unbinding a key changes the look-up of that key only. -/
theorem find?_erase (t : Table κ α) (k q : κ) :
    (t.erase k).find? q = if q = k then none else t.find? q := by
  have general (es : List (κ × α)) :
      (es.filter fun e => e.1 ≠ k).lookup q = if q = k then none else es.lookup q := by
    induction es with
    | nil => simp
    | cons e rest ih =>
      rw [lookup_cons_eq_ite]
      by_cases he : e.1 = k
      · rw [List.filter_cons_of_neg (by simp [he]), ih, he]
        split <;> rfl
      · rw [List.filter_cons_of_pos (by simp [he]), lookup_cons_eq_ite, ih]
        by_cases hq : q = k
        · rw [if_neg (fun h : q = e.1 => he (h.symm.trans hq)), if_pos hq, if_pos hq]
        · rw [if_neg hq, if_neg hq]
  exact general t.entries

@[simp]
theorem find?_empty (q : κ) : (empty : Table κ α).find? q = none := rfl

end Table

end KernelFusion
