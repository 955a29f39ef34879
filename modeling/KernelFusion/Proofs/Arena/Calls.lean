import KernelFusion.Proofs.Arena.Listing
import Mathlib.Algebra.Ring.Nat
import Mathlib.Data.List.Induction
import Mathlib.Logic.Function.Basic

/-!
# Sequences of calls on an arena

Calls are made on the empty arena, in any order and with any handles: stale ones, ones that were never given
out, ones that name the present generation of an empty slot. A `Ledger` is the map from handles to entries that
the arena stands for, with the handles given out so far and the slots that were emptied, the last one first.

Generations are 32 bits wide. As long as no slot is emptied 2^32 times, a slot's generation is the number of times
it was emptied, and a handle that was given out and names nothing any more is of an earlier generation than its
slot (`Tracks`). So the handle of the next insertion was not given out before, and the arena answers as its ledger
does after every sequence of calls (`played_refines`).
-/

namespace KernelFusion.Arena

variable {entity : Entity} {α : Type} {a : Arena entity α} {h : Handle entity}

/-! ## Calls and their ledger -/

/-- A call on an arena, with its arguments. -/
inductive Call (entity : Entity) (α : Type) where
  | insert (x : α)
  | remove (h : Handle entity)
  | update (h : Handle entity) (f : α → α)

/-- The arena that a call leaves. -/
def Call.leaves (a : Arena entity α) : Call entity α → Arena entity α
  | insert x => a.insert x
  | remove h => (a.remove h).2
  | update h f => a.modify h f

/-- A map from handles to entries, with what was done to it. -/
structure Ledger (entity : Entity) (α : Type) where
  entries : Handle entity → Option α := fun _ => none
  /-- The handles given out, the last one first. -/
  issued : List (Handle entity) := []
  /-- The slots that were emptied, the last one first. -/
  freed : List Nat := []

/-- Enters a call; `issue` is the handle that an insertion is given. -/
def Ledger.enter (l : Ledger entity α) (issue : Handle entity) : Call entity α → Ledger entity α
  | .insert x =>
    { l with entries := Function.update l.entries issue (some x), issued := issue :: l.issued }
  | .remove h =>
    match l.entries h with
    | some _ => { l with entries := Function.update l.entries h none, freed := h.index :: l.freed }
    | none => l
  | .update h f => { l with entries := Function.update l.entries h ((l.entries h).map f) }

/-- Removing an entry frees its place, which is handed out again before those that were freed earlier. -/
theorem Ledger.enter_remove_of_some {l : Ledger entity α} {issue : Handle entity} {x : α}
    (entered : l.entries h = some x) : l.enter issue (.remove h) =
      { l with entries := Function.update l.entries h none, freed := h.index :: l.freed } := by
  simp only [enter, entered]

theorem Ledger.enter_remove_of_none {l : Ledger entity α} {issue : Handle entity}
    (absent : l.entries h = none) : l.enter issue (.remove h) = l := by
  simp only [enter, absent]

/-- The arena and the ledger after a sequence of calls. -/
def played (calls : List (Call entity α)) : Arena entity α × Ledger entity α :=
  calls.foldl (fun s call => (call.leaves s.1, s.2.enter s.1.fresh call)) (.empty, {})

/-- The last call is made on the arena that the others have left. -/
theorem played_concat (calls : List (Call entity α)) (call : Call entity α) :
    played (calls ++ [call]) =
      (call.leaves (played calls).1, (played calls).2.enter (played calls).1.fresh call) := by
  rw [played, List.foldl_append]
  rfl

variable {l : Ledger entity α}

/-- No slot was emptied 2^32 times. -/
def Ledger.Within (l : Ledger entity α) : Prop := ∀ i, l.freed.count i < 2 ^ 32

/-- A place that has been freed too often stays so, hence the bound on the frees holds at every moment before. -/
theorem Ledger.Within.of_enter {issue : Handle entity} {call : Call entity α}
    (within : (l.enter issue call).Within) : l.Within := by
  intro i
  refine Nat.lt_of_le_of_lt ?_ (within i)
  cases call with
  | insert x => exact Nat.le_refl _
  | update h f => exact Nat.le_refl _
  | remove h =>
    cases entered : l.entries h with
    | none => exact Nat.le_of_eq (by rw [enter_remove_of_none entered])
    | some x =>
      rw [enter_remove_of_some entered]
      exact (List.sublist_cons_self h.index l.freed).count_le i

/-! ## The count of entries -/

/-- The listing is as long as any list of the handles that resolve. -/
theorem length_toList_eq {hs : List (Handle entity)} (nodup : hs.Nodup)
    (listed : ∀ h, h ∈ hs ↔ ∃ x, a.get? h = some x) : a.toList.length = hs.length := by
  rw [(perm_handles nodup listed).length_eq, List.length_map]

/-- The size goes up with the number of entries, since the new handle did not resolve before. -/
theorem Counted.insert (counted : a.Counted) (wf : a.WellFormed) (x : α) : (a.insert x).Counted := by
  have vacant : a.fresh ∉ a.toList.map Prod.fst := by
    rw [mem_handles_iff, get?_fresh wf]
    simp
  have listed (q : Handle entity) : q ∈ a.fresh :: a.toList.map Prod.fst ↔
      ∃ y, (a.insert x).get? q = some y := by
    rw [List.mem_cons, mem_handles_iff, get?_insert wf]
    split
    case isTrue same => simp [same]
    case isFalse other => simp [other]
  rw [Counted, size_insert, counted, length_toList_eq (nodup_handles.cons vacant) listed,
    List.length_cons, List.length_map]

theorem Counted.modify (counted : a.Counted) (f : α → α) : (a.modify h f).Counted := by
  have listed (q : Handle entity) : q ∈ a.toList.map Prod.fst ↔
      ∃ y, (a.modify h f).get? q = some y := by
    rw [mem_handles_iff, get?_modify]
    split
    case isTrue same => simp [same]
    case isFalse => rfl
  rw [Counted, size_modify, counted, length_toList_eq nodup_handles listed, List.length_map]

theorem Counted.erase (counted : a.Counted) {x : α} (found : a.get? h = some x) :
    (a.erase h).Counted := by
  have member : h ∈ a.toList.map Prod.fst := mem_handles_iff.mpr ⟨x, found⟩
  have listed (q : Handle entity) : q ∈ (a.toList.map Prod.fst).erase h ↔
      ∃ y, (a.erase h).get? q = some y := by
    rw [nodup_handles.mem_erase_iff, mem_handles_iff, get?_erase]
    split
    case isTrue same => simp [same]
    case isFalse other => simp [other]
  rw [Counted, size_erase (contains_of_get? found), counted,
    length_toList_eq (nodup_handles.erase h) listed, List.length_erase_of_mem member,
    List.length_map]

/-! ## The slots that a call leaves -/

theorem length_slots_insert (x : α) : a.slots.length ≤ (a.insert x).slots.length := by
  unfold insert
  cases a.top with
  | none => simp
  | some i => simp

theorem fresh_index_lt (wf : a.WellFormed) (x : α) : a.fresh.index < (a.insert x).slots.length := by
  have stored := get?_insert (q := a.fresh) wf x
  rw [if_pos rfl] at stored
  obtain ⟨slot, slotAt, -⟩ := get?_eq_some_iff.mp stored
  exact (List.getElem?_eq_some_iff.mp slotAt).1

/-- An insertion fills a slot of the same generation, or opens one of generation zero. -/
theorem slot_of_insert {x : α} {i : Nat} {slot : Slot α}
    (slotAt : (a.insert x).slots[i]? = some slot) :
    (∃ old, a.slots[i]? = some old ∧ slot.generation = old.generation) ∨
      i = a.slots.length ∧ slot.generation = 0 := by
  unfold insert at slotAt
  cases top : a.top with
  | none =>
    simp only [top] at slotAt
    rcases List.getElem?_eq_some_iff.mp slotAt with ⟨lt, rfl⟩
    rcases Nat.lt_or_ge i a.slots.length with old | le
    · refine .inl ⟨a.slots[i], List.getElem?_eq_getElem old, ?_⟩
      rw [List.getElem_append_left old]
    · rw [List.length_append, List.length_singleton] at lt
      have last : i = a.slots.length := Nat.le_antisymm (Nat.le_of_lt_succ lt) le
      subst last
      refine .inr ⟨rfl, ?_⟩
      rw [List.getElem_concat_length rfl]
  | some j =>
    simp only [top, List.getElem?_modify, Option.map_eq_map, Option.map_eq_some_iff] at slotAt
    obtain ⟨old, oldAt, rfl⟩ := slotAt
    refine .inl ⟨old, oldAt, ?_⟩
    split <;> rfl

theorem length_slots_modify {f : α → α} : (a.modify h f).slots.length = a.slots.length := by
  unfold modify
  split
  · exact List.length_modify _ _ _
  · rfl

theorem slot_of_modify {f : α → α} {i : Nat} {slot : Slot α}
    (slotAt : (a.modify h f).slots[i]? = some slot) :
    ∃ old, a.slots[i]? = some old ∧ slot.generation = old.generation := by
  unfold modify at slotAt
  split at slotAt
  · simp only [List.getElem?_modify, Option.map_eq_map, Option.map_eq_some_iff] at slotAt
    obtain ⟨old, oldAt, rfl⟩ := slotAt
    refine ⟨old, oldAt, ?_⟩
    split <;> rfl
  · exact ⟨slot, slotAt, rfl⟩

theorem length_slots_erase {x : α} (found : a.get? h = some x) :
    (a.erase h).slots.length = a.slots.length := by
  obtain ⟨slot, -, -, -, erased⟩ := erase_of_get? found
  rw [erased, List.length_set]

/-- A removal moves the generation of its slot on, and no other. -/
theorem slot_of_erase {x : α} (found : a.get? h = some x) {i : Nat} {slot : Slot α}
    (slotAt : (a.erase h).slots[i]? = some slot) :
    (i = h.index ∧ slot.generation = h.generation + 1) ∨
      i ≠ h.index ∧ a.slots[i]? = some slot := by
  obtain ⟨old, oldAt, current, -, erased⟩ := erase_of_get? found
  have inside : h.index < a.slots.length := (List.getElem?_eq_some_iff.mp oldAt).1
  rw [erased, List.getElem?_set, if_pos inside] at slotAt
  split at slotAt
  case isTrue same =>
    rw [Option.some.injEq] at slotAt
    exact .inl ⟨same.symm, by rw [← slotAt, current]⟩
  case isFalse other => exact .inr ⟨fun same => other same.symm, slotAt⟩

/-- In the order of the last removals, a slot that is emptied now comes first. -/
theorem recent_cons {stack freed : List Nat} {i : Nat} (absent : i ∉ stack)
    (recent : stack.Pairwise fun j k => freed.idxOf j < freed.idxOf k) :
    (i :: stack).Pairwise fun j k => (i :: freed).idxOf j < (i :: freed).idxOf k := by
  have later {j : Nat} (member : j ∈ stack) : (i :: freed).idxOf j = freed.idxOf j + 1 :=
    List.idxOf_cons_ne _ fun same => absent (same ▸ member)
  refine .cons (fun j member => ?_) (recent.imp_of_mem fun left right before => ?_)
  · rw [List.idxOf_cons_self, later member]
    exact Nat.succ_pos _
  · rw [later left, later right]
    exact Nat.succ_lt_succ before

/-! ## What every call keeps -/

/-- An arena and the ledger of the calls that made it. -/
structure Tracks (a : Arena entity α) (l : Ledger entity α) (stack : List Nat) : Prop where
  lookup : ∀ h, a.get? h = l.entries h
  counted : a.Counted
  stacked : a.Stacked stack
  recent : stack.Pairwise fun i j => l.freed.idxOf i < l.freed.idxOf j
  opened : ∀ i ∈ l.freed, i < a.slots.length
  generation : ∀ i slot, a.slots[i]? = some slot → slot.generation.toNat = l.freed.count i
  nodup : l.issued.Nodup
  issued : ∀ h ∈ l.issued, h.index < a.slots.length ∧ h.generation.toNat ≤ l.freed.count h.index ∧
    (l.entries h = none → h.generation.toNat < l.freed.count h.index)

namespace Tracks

variable {stack : List Nat}

theorem nothing : Tracks (.empty : Arena entity α) {} [] where
  lookup _ := rfl
  counted := rfl
  stacked := stacked_empty
  recent := .nil
  opened := nofun
  generation i slot slotAt := by simp [empty] at slotAt
  nodup := List.nodup_nil
  issued := nofun

theorem wellFormed (tracks : Tracks a l stack) : a.WellFormed := ⟨stack, tracks.stacked⟩

/-- The next handle is of the generation of its slot, or of a slot that is not open yet. -/
theorem fresh_generation (tracks : Tracks a l stack) :
    a.fresh.generation.toNat = l.freed.count a.fresh.index := by
  cases top : a.top with
  | none =>
    have unopened : a.slots.length ∉ l.freed :=
      fun freed => Nat.lt_irrefl _ (tracks.opened _ freed)
    simp [fresh, top, List.count_eq_zero.mpr unopened]
  | some i =>
    rcases tracks.stacked.of_top top with ⟨slot, rest, -, slotAt, -, -⟩
    simp [fresh, top, slotAt, tracks.generation i slot slotAt]

/-- The next handle was not given out before. -/
theorem fresh_not_issued (tracks : Tracks a l stack) : a.fresh ∉ l.issued := by
  intro before
  have unused : l.entries a.fresh = none := by rw [← tracks.lookup, get?_fresh tracks.wellFormed]
  have earlier := (tracks.issued _ before).2.2 unused
  rw [tracks.fresh_generation] at earlier
  exact Nat.lt_irrefl _ earlier

/-- The next handle is of the top slot of the stack, or of a new slot. -/
theorem fresh_index (tracks : Tracks a l stack) :
    a.fresh.index = stack.headD a.slots.length := by
  cases top : a.top with
  | none =>
    rw [tracks.stacked.of_none top]
    simp [fresh, top]
  | some i =>
    rcases tracks.stacked.of_top top with ⟨slot, rest, rfl, -⟩
    simp [fresh, top]

/-- Inserting hands out the place on the top of the stack, if there is one, under a handle that was not issued before.
-/
theorem insert (tracks : Tracks a l stack) (x : α) :
    Tracks (a.insert x) (l.enter a.fresh (.insert x)) stack.tail where
  lookup h := by
    rw [get?_insert tracks.wellFormed, tracks.lookup]
    exact (Function.update_apply l.entries a.fresh (some x) h).symm
  counted := tracks.counted.insert tracks.wellFormed x
  stacked := tracks.stacked.insert x
  recent := tracks.recent.sublist (List.tail_sublist stack)
  opened i freed := Nat.lt_of_lt_of_le (tracks.opened i freed) (length_slots_insert x)
  generation i slot slotAt := by
    rcases slot_of_insert slotAt with ⟨old, oldAt, same⟩ | ⟨rfl, first⟩
    · rw [same]
      exact tracks.generation i old oldAt
    · have unopened : a.slots.length ∉ l.freed :=
        fun freed => Nat.lt_irrefl _ (tracks.opened _ freed)
      rw [first]
      exact (List.count_eq_zero.mpr unopened).symm
  nodup := tracks.nodup.cons tracks.fresh_not_issued
  issued h member := by
    rcases List.mem_cons.mp member with rfl | before
    · refine ⟨fresh_index_lt tracks.wellFormed x, Nat.le_of_eq tracks.fresh_generation, fun unused => ?_⟩
      have unused : Function.update l.entries a.fresh (some x) a.fresh = none := unused
      rw [Function.update_self] at unused
      cases unused
    · have other : h ≠ a.fresh := fun same => tracks.fresh_not_issued (same ▸ before)
      have earlier := tracks.issued h before
      refine ⟨Nat.lt_of_lt_of_le earlier.1 (length_slots_insert x), earlier.2.1, fun unused => ?_⟩
      have unused : Function.update l.entries a.fresh (some x) h = none := unused
      rw [Function.update_of_ne other] at unused
      exact earlier.2.2 unused

theorem update (tracks : Tracks a l stack) (h : Handle entity) (f : α → α) :
    Tracks (a.modify h f) (l.enter a.fresh (.update h f)) stack where
  lookup q := by
    rw [get?_modify, tracks.lookup, tracks.lookup]
    exact (Function.update_apply l.entries h _ q).symm
  counted := tracks.counted.modify f
  stacked := tracks.stacked.modify f
  recent := tracks.recent
  opened i freed := by
    rw [length_slots_modify]
    exact tracks.opened i freed
  generation i slot slotAt := by
    obtain ⟨old, oldAt, same⟩ := slot_of_modify slotAt
    rw [same]
    exact tracks.generation i old oldAt
  nodup := tracks.nodup
  issued q member := by
    rw [length_slots_modify]
    have earlier := tracks.issued q member
    refine ⟨earlier.1, earlier.2.1, fun unused => earlier.2.2 ?_⟩
    have unused : Function.update l.entries h ((l.entries h).map f) q = none := unused
    rw [Function.update_apply] at unused
    split at unused
    case isTrue same => rwa [same, ← Option.map_eq_none_iff]
    case isFalse => exact unused

/-- A handle that names an entry is of the generation of its slot. -/
theorem live_generation (tracks : Tracks a l stack) {x : α} (found : a.get? h = some x) :
    h.index < a.slots.length ∧ h.generation.toNat = l.freed.count h.index := by
  obtain ⟨slot, slotAt, current, -⟩ := get?_eq_some_iff.mp found
  exact ⟨(List.getElem?_eq_some_iff.mp slotAt).1, current ▸ tracks.generation _ _ slotAt⟩

/-- A removal counts the slot once more, so its generation moves on with the count. -/
theorem remove (tracks : Tracks a l stack) {x : α}
    (entered : l.entries h = some x) (within : (l.enter a.fresh (.remove h)).Within) :
    Tracks (a.erase h) (l.enter a.fresh (.remove h)) (h.index :: stack) := by
  have found : a.get? h = some x := by rw [tracks.lookup, entered]
  have length := length_slots_erase found
  have stacked := tracks.stacked.erase found
  obtain ⟨inside, generation⟩ := tracks.live_generation found
  rw [Ledger.enter_remove_of_some entered] at within ⊢
  have once : l.freed.count h.index + 1 < 2 ^ 32 := by
    simpa using within h.index
  refine
    { lookup := fun q => ?lookup
      counted := tracks.counted.erase found
      stacked
      recent := recent_cons (List.nodup_cons.mp stacked.nodup).1 tracks.recent
      opened := fun i freed => ?opened
      generation := fun i slot slotAt => ?generation
      nodup := tracks.nodup
      issued := fun q member => ?issued }
  case lookup =>
    rw [get?_erase, tracks.lookup]
    exact (Function.update_apply l.entries h none q).symm
  case opened =>
    rw [length]
    rcases List.mem_cons.mp freed with rfl | before
    · exact inside
    · exact tracks.opened i before
  case generation =>
    rcases slot_of_erase found slotAt with ⟨rfl, next⟩ | ⟨other, slotAt'⟩
    · rw [next, List.count_cons_self, ← generation, UInt32.toNat_add]
      exact Nat.mod_eq_of_lt (generation ▸ once)
    · rw [List.count_cons_of_ne other.symm]
      exact tracks.generation i slot slotAt'
  case issued =>
    rw [length]
    have earlier := tracks.issued q member
    have more := (List.sublist_cons_self h.index l.freed).count_le q.index
    refine ⟨earlier.1, Nat.le_trans earlier.2.1 more, fun unused => ?_⟩
    by_cases same : q = h
    · rw [same, List.count_cons_self, generation]
      exact Nat.lt_succ_self _
    · have unused : l.entries q = none := (Function.update_of_ne same none l.entries).symm.trans unused
      exact Nat.lt_of_lt_of_le (earlier.2.2 unused) more

/-- What one call keeps. -/
theorem step (tracks : Tracks a l stack) (call : Call entity α)
    (within : (l.enter a.fresh call).Within) :
    ∃ stack', Tracks (call.leaves a) (l.enter a.fresh call) stack' := by
  cases call with
  | insert x => exact ⟨stack.tail, tracks.insert x⟩
  | update h f => exact ⟨stack, tracks.update h f⟩
  | remove h =>
    rw [Call.leaves, remove_eq]
    cases entered : l.entries h with
    | some x => exact ⟨h.index :: stack, tracks.remove entered within⟩
    | none =>
      rw [erase_of_get?_eq_none (tracks.lookup h ▸ entered), Ledger.enter_remove_of_none entered]
      exact ⟨stack, tracks⟩

end Tracks

/-- What every sequence of calls keeps. -/
theorem tracks_played (calls : List (Call entity α)) (within : (played calls).2.Within) :
    ∃ stack, Tracks (played calls).1 (played calls).2 stack := by
  induction calls using List.reverseRecOn with
  | nil => exact ⟨[], .nothing⟩
  | append_singleton calls call ih =>
    rw [played_concat] at within ⊢
    obtain ⟨stack, tracks⟩ := ih within.of_enter
    exact tracks.step call within

/-! ## Handles are not given out again -/

/-- A handle that was given out and names nothing any more goes on to name nothing. -/
theorem Tracks.retired {stack : List Nat} (tracks : Tracks a l stack) (call : Call entity α)
    (issued : h ∈ l.issued) (dead : l.entries h = none) :
    h ∈ (l.enter a.fresh call).issued ∧ (l.enter a.fresh call).entries h = none := by
  cases call with
  | insert x =>
    have other : h ≠ a.fresh := fun same => tracks.fresh_not_issued (same ▸ issued)
    exact ⟨List.mem_cons_of_mem _ issued, (Function.update_of_ne other _ _).trans dead⟩
  | update q f =>
    refine ⟨issued, (Function.update_apply l.entries q _ h).trans ?_⟩
    split
    case isTrue same => rw [← same, dead, Option.map_none]
    case isFalse => exact dead
  | remove q =>
    cases entered : l.entries q with
    | none =>
      rw [Ledger.enter_remove_of_none entered]
      exact ⟨issued, dead⟩
    | some x =>
      rw [Ledger.enter_remove_of_some entered]
      refine ⟨issued, (Function.update_apply l.entries q none h).trans ?_⟩
      split
      case isTrue => rfl
      case isFalse => exact dead

/-- A handle that was issued and no longer resolves never does again, as long as no place is freed too often. -/
theorem retired_played {before later : List (Call entity α)}
    (within : (played (before ++ later)).2.Within) (issued : h ∈ (played before).2.issued)
    (dead : (played before).2.entries h = none) :
    h ∈ (played (before ++ later)).2.issued ∧ (played (before ++ later)).2.entries h = none := by
  induction later using List.reverseRecOn with
  | nil =>
    rw [List.append_nil]
    exact ⟨issued, dead⟩
  | append_singleton later call ih =>
    rw [← List.append_assoc, played_concat] at within ⊢
    obtain ⟨stack, tracks⟩ := tracks_played (before ++ later) within.of_enter
    obtain ⟨issued, dead⟩ := ih within.of_enter
    exact tracks.retired call issued dead

/-- Removing leaves nothing under the handle. -/
theorem entries_enter_remove {issue : Handle entity} :
    (l.enter issue (.remove h)).entries h = none := by
  cases entered : l.entries h with
  | none => rw [Ledger.enter_remove_of_none entered, entered]
  | some x =>
    rw [Ledger.enter_remove_of_some entered]
    exact Function.update_self h none l.entries

theorem issued_enter_remove {issue : Handle entity} :
    (l.enter issue (.remove h)).issued = l.issued := by
  cases entered : l.entries h with
  | none => rw [Ledger.enter_remove_of_none entered]
  | some x => rw [Ledger.enter_remove_of_some entered]

/-! ## The arena and its ledger -/

/-- An arena is the map of its ledger, gives out handles that were not given out before, and has its empty slots
on a stack, the one that was emptied last on top. -/
structure Refines (a : Arena entity α) (l : Ledger entity α) : Prop where
  get? : ∀ h, a.get? h = l.entries h
  contains : ∀ h, a.contains h = (l.entries h).isSome
  removed : ∀ h, (a.remove h).1 = l.entries h
  remove_absent : ∀ h, l.entries h = none → (a.remove h).2 = a
  modify_absent : ∀ h f, l.entries h = none → a.modify h f = a
  fresh : a.fresh ∉ l.issued
  issued : l.issued.Nodup
  size : a.size = a.toList.length
  listed : ∀ h x, (h, x) ∈ a.toList ↔ l.entries h = some x
  ordered : a.toList.Pairwise fun e e' => e.1.index < e'.1.index
  emptied : ∃ stack, Threads a.slots a.top stack ∧ stack.Nodup ∧
    (∀ i, i ∈ stack ↔ ∃ slot, a.slots[i]? = some slot ∧ slot.entry = none) ∧
    (stack.Pairwise fun i j => l.freed.idxOf i < l.freed.idxOf j) ∧
    a.fresh.index = stack.headD a.slots.length
  vacant : ∀ i, a.top = some i → ∃ slot, a.slots[i]? = some slot ∧ slot.entry = none

/-- What an arena that tracks a ledger answers is what the ledger says. -/
theorem Tracks.refines {stack : List Nat} (tracks : Tracks a l stack) : Refines a l where
  get? := tracks.lookup
  contains h := by rw [Arena.contains, tracks.lookup]
  removed h := by rw [remove_eq, tracks.lookup]
  remove_absent h absent := by rw [remove_eq, erase_of_get?_eq_none (tracks.lookup h ▸ absent)]
  modify_absent h f absent := by
    have dead : a.contains h = false := by rw [Arena.contains, tracks.lookup, absent, Option.isSome_none]
    rw [Arena.modify, dead]
    rfl
  fresh := tracks.fresh_not_issued
  issued := tracks.nodup
  size := tracks.counted
  listed h x := by rw [mem_toList_iff, tracks.lookup]
  ordered := ordered_toList
  emptied :=
    ⟨stack, tracks.stacked.threads, tracks.stacked.nodup, tracks.stacked.mem, tracks.recent,
      tracks.fresh_index⟩
  vacant i top := by
    rcases tracks.stacked.of_top top with ⟨slot, rest, -, slotAt, vacant, -⟩
    exact ⟨slot, slotAt, vacant⟩

/-- After every sequence of calls in which no slot is emptied 2^32 times, the arena is the map of its ledger, and
a handle that was given out and then removed names nothing any more. -/
theorem played_refines (calls : List (Call entity α))
    (within : ∀ i, (played calls).2.freed.count i < 2 ^ 32) :
    Refines (played calls).1 (played calls).2 ∧
      ∀ before h later, calls = before ++ .remove h :: later → h ∈ (played before).2.issued →
        (played calls).1.get? h = none := by
  obtain ⟨stack, tracks⟩ := tracks_played calls within
  refine ⟨tracks.refines, fun before h later split issued => ?_⟩
  subst split
  rw [tracks.lookup, List.append_cons]
  rw [List.append_cons] at within
  refine (retired_played within ?_ ?_).2
  · rw [played_concat, issued_enter_remove]
    exact issued
  · rw [played_concat, entries_enter_remove]

/-- A slot is emptied and used again; what names its old entry, or names it while it is empty, finds
nothing. -/
def reuse : List (Call .node Nat) :=
  [.insert 1, .insert 2, .remove ⟨0, 0⟩, .remove ⟨0, 1⟩, .insert 3, .remove ⟨0, 0⟩, .remove ⟨7, 0⟩,
    .update ⟨0, 1⟩ (· + 1)]

/-- A place that is freed is used again under a new handle, and the old handle does not resolve. -/
theorem played_refines_reuse :
    (played reuse).2.issued = [⟨0, 1⟩, ⟨1, 0⟩, ⟨0, 0⟩] ∧
      (∀ i, (played reuse).2.freed.count i < 2 ^ 32) ∧
      Refines (played reuse).1 (played reuse).2 ∧ (played reuse).1.get? ⟨0, 1⟩ = some 4 ∧
      (played reuse).1.get? ⟨0, 0⟩ = none := by
  have within (i : Nat) : (played reuse).2.freed.count i < 2 ^ 32 :=
    Nat.lt_of_le_of_lt List.count_le_length (by decide)
  obtain ⟨refines, removed⟩ := played_refines reuse within
  refine ⟨by decide, within, refines, by decide, ?_⟩
  exact removed [.insert 1, .insert 2] ⟨0, 0⟩ _ rfl (by decide)

end KernelFusion.Arena
