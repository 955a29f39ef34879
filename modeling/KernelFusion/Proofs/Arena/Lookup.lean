import KernelFusion.Arena.Basic
import Mathlib.Data.List.Nodup

/-!
# Looking up after storing, replacing and erasing

The empty slots of an arena form a stack that is threaded through them: `Threads` reads it off. An arena is
well formed when that stack has exactly the slots without an entry, each once. Then the handle given out by
the next insertion names nothing yet, and each operation has one equation for what a handle names afterwards:
`get?_insert`, `get?_modify` and `get?_erase`. Insertion takes the top of the stack off and erasure puts a slot
on it (`Stacked.insert`, `Stacked.erase`), so every operation keeps the arena well formed.
-/

namespace KernelFusion.Arena

variable {entity : Entity} {α : Type} {a : Arena entity α} {h q : Handle entity}

/-! ## The stack of empty slots -/

/-- From a slot down, each slot of a stack leads to the one below it. -/
inductive Threads (slots : List (Slot α)) : Option Nat → List Nat → Prop
  | bottom : Threads slots none []
  | slot {i : Nat} {slot : Slot α} {rest : List Nat} : slots[i]? = some slot →
    Threads slots slot.below rest → Threads slots (some i) (i :: rest)

namespace Threads

variable {slots : List (Slot α)} {top : Option Nat} {stack : List Nat}

/-- A slot that is not on the stack may be changed. -/
theorem modify (threads : Threads slots top stack) {i : Nat} (absent : i ∉ stack)
    (f : Slot α → Slot α) : Threads (slots.modify i f) top stack := by
  induction threads with
  | bottom => exact .bottom
  | slot slotAt _ ih =>
    rw [List.mem_cons, not_or] at absent
    refine .slot ?_ (ih absent.2)
    rw [List.getElem?_modify, slotAt]
    simp [absent.1]

/-- A place that is not on the stack can change without breaking the thread. -/
theorem set (threads : Threads slots top stack) {i : Nat} (absent : i ∉ stack) (slot : Slot α) :
    Threads (slots.set i slot) top stack := by
  induction threads with
  | bottom => exact .bottom
  | slot slotAt _ ih =>
    rw [List.mem_cons, not_or] at absent
    exact .slot ((List.getElem?_set_ne absent.1).trans slotAt) (ih absent.2)

/-- A slot that is on the stack may be changed as long as it leads to the same one. -/
theorem modify_entry (threads : Threads slots top stack) {i : Nat} {f : Slot α → Slot α}
    (same : ∀ slot, (f slot).below = slot.below) : Threads (slots.modify i f) top stack := by
  induction threads with
  | bottom => exact .bottom
  | @slot j slot rest slotAt _ ih =>
    have changed : (slots.modify i f)[j]? = some (if i = j then f slot else slot) := by
      rw [List.getElem?_modify, slotAt]
      rfl
    refine .slot changed ?_
    split
    case isTrue => rwa [same]
    case isFalse => exact ih

end Threads

/-- The stack of an arena lists exactly the slots without an entry, each once. -/
structure Stacked (a : Arena entity α) (stack : List Nat) : Prop where
  threads : Threads a.slots a.top stack
  nodup : stack.Nodup
  mem : ∀ i, i ∈ stack ↔ ∃ slot, a.slots[i]? = some slot ∧ slot.entry = none

/-- An arena whose stack lists exactly the slots without an entry, each once. -/
def WellFormed (a : Arena entity α) : Prop := ∃ stack, a.Stacked stack

theorem stacked_empty : (empty : Arena entity α).Stacked [] where
  threads := .bottom
  nodup := List.nodup_nil
  mem := by simp [empty]

theorem wellFormed_empty : (empty : Arena entity α).WellFormed := ⟨[], stacked_empty⟩

/-- The stack begins with the top slot, which is empty. -/
theorem Stacked.of_top {stack : List Nat} (stacked : a.Stacked stack) {i : Nat}
    (top : a.top = some i) : ∃ slot rest, stack = i :: rest ∧ a.slots[i]? = some slot ∧
      slot.entry = none ∧ Threads a.slots slot.below rest := by
  have threads := stacked.threads
  rw [top] at threads
  cases threads with
  | @slot _ slot rest slotAt threads =>
    rcases (stacked.mem i).mp List.mem_cons_self with ⟨slot', slotAt', vacant⟩
    rw [slotAt, Option.some.injEq] at slotAt'
    exact ⟨slot, rest, rfl, slotAt, slotAt' ▸ vacant, threads⟩

/-- Without a top slot no slot is empty. -/
theorem Stacked.of_none {stack : List Nat} (stacked : a.Stacked stack) (top : a.top = none) :
    stack = [] := by
  have threads := stacked.threads
  rw [top] at threads
  cases threads
  rfl

/-! ## Looking up -/

@[simp]
theorem get?_empty : (empty : Arena entity α).get? h = none := rfl

theorem contains_iff : a.contains h = true ↔ ∃ x, a.get? h = some x := by
  rw [contains, Option.isSome_iff_exists]

theorem contains_of_get? {x : α} (found : a.get? h = some x) : a.contains h = true :=
  contains_iff.mpr ⟨x, found⟩

/-- A handle resolves to the entry at its place, if it has the generation of that place. -/
theorem get?_eq_some_iff {x : α} :
    a.get? h = some x ↔
      ∃ slot, a.slots[h.index]? = some slot ∧ slot.generation = h.generation ∧ slot.entry = some x := by
  unfold get?
  cases slotAt : a.slots[h.index]? with
  | none => simp
  | some slot =>
    by_cases same : slot.generation = h.generation
    · simp [same]
    · simp [same]

/-! ## Storing -/

/-- The handle that the next entry is going to have does not resolve yet. -/
theorem get?_fresh (wf : a.WellFormed) : a.get? a.fresh = none := by
  rcases wf with ⟨stack, stacked⟩
  unfold fresh
  cases top : a.top with
  | none => simp [get?]
  | some i =>
    rcases stacked.of_top top with ⟨slot, rest, -, slotAt, vacant, -⟩
    simp [get?, slotAt, vacant]

/-- A handle that resolves is not the next one to be handed out. -/
theorem ne_fresh (wf : a.WellFormed) {x : α} (found : a.get? h = some x) : h ≠ a.fresh := by
  rintro rfl
  rw [get?_fresh wf] at found
  cases found

/-- An insertion makes the new handle resolve and changes nothing else. -/
theorem get?_insert (wf : a.WellFormed) (x : α) :
    (a.insert x).get? q = if q = a.fresh then some x else a.get? q := by
  rcases wf with ⟨stack, stacked⟩
  obtain ⟨i, generation⟩ := q
  cases top : a.top with
  | none =>
    simp only [insert, fresh, top, get?, Handle.mk.injEq]
    rcases Nat.lt_trichotomy i a.slots.length with lt | rfl | gt
    · simp [List.getElem?_append_left lt, Nat.ne_of_lt lt]
    · simp [eq_comm]
    · have outside : (a.slots ++ [({ entry := some x } : Slot α)]).length ≤ i := by
        rw [List.length_append, List.length_singleton]
        exact gt
      simp [List.getElem?_eq_none outside, List.getElem?_eq_none (Nat.le_of_lt gt),
        Nat.ne_of_gt gt]
  | some j =>
    rcases stacked.of_top top with ⟨slot, rest, -, slotAt, vacant, -⟩
    simp only [insert, fresh, top, slotAt, get?, List.getElem?_modify, Handle.mk.injEq,
      Option.elim_some]
    by_cases same : i = j
    · subst same
      by_cases current : slot.generation = generation
      · simp [slotAt, current]
      · simp [slotAt, current, Ne.symm current]
    · simp [same, Ne.symm same]

/-- Insertion takes the top slot off the stack; without one it opens a slot. -/
theorem Stacked.insert {stack : List Nat} (stacked : a.Stacked stack) (x : α) :
    (a.insert x).Stacked stack.tail := by
  cases top : a.top with
  | none =>
    have empty := stacked.of_none top
    subst empty
    refine ⟨?threads, List.nodup_nil, fun i => ?mem⟩
    case threads =>
      rw [Arena.insert, top]
      exact .bottom
    case mem =>
      simp only [Arena.insert, top, List.tail_nil, List.not_mem_nil, false_iff, not_exists, not_and]
      intro slot slotAt vacant
      rcases List.mem_append.mp (List.mem_of_getElem? slotAt) with old | new
      · obtain ⟨j, jAt⟩ := List.getElem?_of_mem old
        cases (stacked.mem j).mpr ⟨slot, jAt, vacant⟩
      · rw [List.mem_singleton.mp new] at vacant
        cases vacant
  | some j =>
    rcases stacked.of_top top with ⟨slot, rest, rfl, slotAt, -, threads⟩
    have nodup := List.nodup_cons.mp stacked.nodup
    refine ⟨?threads, nodup.2, fun i => ?mem⟩
    case threads =>
      simp only [Arena.insert, top, slotAt, Option.bind_some, List.tail_cons]
      exact threads.modify nodup.1 _
    case mem =>
      have before := stacked.mem i
      simp only [List.mem_cons] at before
      simp only [Arena.insert, top, List.tail_cons, List.getElem?_modify]
      by_cases same : i = j
      · subst same
        simp only [nodup.1, false_iff, if_true, Option.map_eq_map, Option.map_eq_some_iff]
        rintro ⟨slot, ⟨_, _, rfl⟩, vacant⟩
        cases vacant
      · simpa [same, Ne.symm same] using before

/-- Taking the top of the stack leaves a thread through the rest of it. -/
theorem wellFormed_insert (wf : a.WellFormed) (x : α) : (a.insert x).WellFormed := by
  rcases wf with ⟨stack, stacked⟩
  exact ⟨stack.tail, stacked.insert x⟩

theorem size_insert (x : α) : (a.insert x).size = a.size + 1 := by
  unfold insert
  split <;> rfl

/-! ## Replacing -/

/-- A change shows under its handle only. -/
theorem get?_modify (f : α → α) :
    (a.modify h f).get? q = if q = h then (a.get? h).map f else a.get? q := by
  unfold modify
  split
  case isTrue live =>
    obtain ⟨x, found⟩ := contains_iff.mp live
    obtain ⟨slot, slotAt, holder, occupied⟩ := get?_eq_some_iff.mp found
    rw [found]
    obtain ⟨i, generation⟩ := h
    obtain ⟨j, generation'⟩ := q
    simp only [get?, List.getElem?_modify, Handle.mk.injEq]
    by_cases same : i = j
    · subst same
      by_cases current : generation = generation'
      · simp [slotAt, holder, occupied, current]
      · simp [slotAt, holder, current, Ne.symm current]
    · simp [same, Ne.symm same]
  case isFalse dead =>
    have absent : a.get? h = none := by simpa [contains] using dead
    by_cases same : q = h
    · simp [same, absent]
    · simp [same]

/-- Replacing an entry leaves the stack alone. -/
theorem Stacked.modify {stack : List Nat} (stacked : a.Stacked stack) (f : α → α) :
    (a.modify h f).Stacked stack := by
  unfold Arena.modify
  split
  · refine ⟨stacked.threads.modify_entry fun _ => rfl, stacked.nodup, fun i => ?_⟩
    refine (stacked.mem i).trans ?_
    simp only [List.getElem?_modify]
    by_cases same : h.index = i
    · simp [same]
    · simp [same]
  · exact stacked

theorem wellFormed_modify (wf : a.WellFormed) (f : α → α) : (a.modify h f).WellFormed := by
  rcases wf with ⟨stack, stacked⟩
  exact ⟨stack, stacked.modify f⟩

theorem size_modify (f : α → α) : (a.modify h f).size = a.size := by
  unfold modify
  split <;> rfl

/-! ## Removing -/

/-- What a removal gives back, and the arena it leaves. -/
theorem remove_eq : a.remove h = (a.get? h, a.erase h) := by
  unfold erase remove get?
  cases a.slots[h.index]? with
  | none => rfl
  | some slot =>
    dsimp only
    split
    · cases slot.entry <;> rfl
    · rfl

/-- Removing what is not there changes nothing. -/
theorem erase_of_get?_eq_none (absent : a.get? h = none) : a.erase h = a := by
  unfold erase remove
  unfold get? at absent
  cases slotAt : a.slots[h.index]? with
  | none => rfl
  | some slot =>
    dsimp only
    split
    case isTrue current =>
      rw [slotAt] at absent
      rw [(if_pos current).symm.trans absent]
    case isFalse => rfl

/-- Removing an entry empties its place, raises the generation and puts the place on top of the stack. -/
theorem erase_of_get? {x : α} (found : a.get? h = some x) :
    ∃ slot, a.slots[h.index]? = some slot ∧ slot.generation = h.generation ∧ slot.entry = some x ∧
      a.erase h = ⟨a.slots.set h.index ⟨slot.generation + 1, none, a.top⟩, some h.index, a.size - 1⟩ := by
  obtain ⟨slot, slotAt, current, occupied⟩ := get?_eq_some_iff.mp found
  refine ⟨slot, slotAt, current, occupied, ?_⟩
  simp only [erase, remove, slotAt, current, if_true, occupied]

/-- A removal ends the resolution of its handle and changes nothing else. -/
theorem get?_erase : (a.erase h).get? q = if q = h then none else a.get? q := by
  cases found : a.get? h with
  | none =>
    rw [erase_of_get?_eq_none found]
    split
    case isTrue same => rw [same, found]
    case isFalse => rfl
  | some x =>
    obtain ⟨slot, slotAt, holder, -, erased⟩ := erase_of_get? found
    rw [erased]
    obtain ⟨i, generation⟩ := h
    obtain ⟨j, generation'⟩ := q
    obtain ⟨inside, slotIs⟩ := List.getElem?_eq_some_iff.mp slotAt
    simp only [get?, List.getElem?_set, Handle.mk.injEq]
    by_cases same : i = j
    · subst same
      by_cases current : generation' = generation
      · simp [inside, current]
      · simp [inside, slotIs, holder, current, Ne.symm current]
    · simp [same, Ne.symm same]

/-- Removing an entry puts its slot on top of the stack. -/
theorem Stacked.erase {stack : List Nat} (stacked : a.Stacked stack) {x : α}
    (found : a.get? h = some x) : (a.erase h).Stacked (h.index :: stack) := by
  obtain ⟨slot, slotAt, -, occupied, erased⟩ := erase_of_get? found
  have absent : h.index ∉ stack := by
    intro listed
    obtain ⟨slot', slotAt', vacant⟩ := (stacked.mem _).mp listed
    rw [slotAt, Option.some.injEq] at slotAt'
    rw [← slotAt', occupied] at vacant
    cases vacant
  have inside : h.index < a.slots.length := (List.getElem?_eq_some_iff.mp slotAt).1
  rw [erased]
  refine ⟨?threads, List.nodup_cons.mpr ⟨absent, stacked.nodup⟩, fun i => ?mem⟩
  case threads => exact .slot (List.getElem?_set_self inside) (stacked.threads.set absent _)
  case mem =>
    simp only [List.mem_cons, List.getElem?_set]
    by_cases same : i = h.index
    · subst same
      simp [inside]
    · simpa [same, Ne.symm same] using stacked.mem i

/-- The place that is freed goes on top of the stack, so the thread is the old one with one place more. -/
theorem wellFormed_erase (wf : a.WellFormed) : (a.erase h).WellFormed := by
  cases found : a.get? h with
  | none => rwa [erase_of_get?_eq_none found]
  | some x =>
    rcases wf with ⟨stack, stacked⟩
    exact ⟨h.index :: stack, stacked.erase found⟩

/-- Removing an entry takes one off the size. -/
theorem size_erase (live : a.contains h = true) : (a.erase h).size = a.size - 1 := by
  obtain ⟨x, found⟩ := contains_iff.mp live
  obtain ⟨slot, -, -, -, erased⟩ := erase_of_get? found
  rw [erased]

/-- Erasing several handles leaves what the others name. -/
theorem get?_foldl_erase (hs : List (Handle entity)) :
    (hs.foldl erase a).get? q = if q ∈ hs then none else a.get? q := by
  induction hs generalizing a with
  | nil => simp
  | cons h rest ih =>
    rw [List.foldl_cons, ih, get?_erase]
    by_cases inRest : q ∈ rest
    · simp [inRest]
    · simp [inRest]

theorem wellFormed_foldl_erase (wf : a.WellFormed) (hs : List (Handle entity)) :
    (hs.foldl erase a).WellFormed := by
  induction hs generalizing a with
  | nil => exact wf
  | cons h rest ih => exact ih (wellFormed_erase wf)

end KernelFusion.Arena
