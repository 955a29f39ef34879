import KernelFusion.Proofs.Arena.Lookup
import Mathlib.Data.List.Perm.Basic

/-!
# The entries of an arena

`Arena.toList` lists what the handles of an arena name, each handle once: `mem_toList_iff` and
`nodup_handles`. So any other list of the handles that name something, each once, is a rearrangement of it.
-/

namespace KernelFusion.Arena

variable {entity : Entity} {α : Type} {a : Arena entity α} {h : Handle entity} {x : α}
  {slots : List (Slot α)} {index : Nat}

/-- The count of an arena is right. -/
def Counted (a : Arena entity α) : Prop := a.size = a.toList.length

/-- The entries of a stretch of places, by the place that each has. -/
theorem mem_entriesFrom : (h, x) ∈ entriesFrom index slots ↔ ∃ i slot, h.index = index + i ∧
    slots[i]? = some slot ∧ slot.generation = h.generation ∧ slot.entry = some x := by
  induction slots generalizing index with
  | nil => simp [entriesFrom]
  | cons slot rest ih =>
    -- the first slot is number `index`, slot `i` of the rest is number `index + 1 + i`
    have shift : (∃ i slot', h.index = index + i ∧ (slot :: rest)[i]? = some slot' ∧
          slot'.generation = h.generation ∧ slot'.entry = some x) ↔
        h.index = index ∧ slot.generation = h.generation ∧ slot.entry = some x ∨
          ∃ i slot', h.index = index + 1 + i ∧ rest[i]? = some slot' ∧
            slot'.generation = h.generation ∧ slot'.entry = some x := by
      constructor
      · rintro ⟨i, slot', place, slotAt, holds⟩
        cases i with
        | zero => exact .inl ⟨place, Option.some.inj slotAt ▸ holds⟩
        | succ i => exact .inr ⟨i, slot', by omega, slotAt, holds⟩
      · rintro (⟨place, holds⟩ | ⟨i, slot', place, slotAt, holds⟩)
        · exact ⟨0, slot, place, rfl, holds⟩
        · exact ⟨i + 1, slot', by omega, slotAt, holds⟩
    rw [shift, ← ih, entriesFrom]
    rcases slot with ⟨generation, _ | y, below⟩
    · simp
    · simp only [List.mem_cons, Prod.mk.injEq, Handle.ext_iff, Option.some.injEq]
      refine or_congr_left ?_
      rw [and_assoc, eq_comm (b := generation), eq_comm (b := y)]

/-- The listing has the entries that handles resolve to, and no others. -/
theorem mem_toList_iff : (h, x) ∈ a.toList ↔ a.get? h = some x := by
  rw [toList, mem_entriesFrom, get?_eq_some_iff]
  simp

theorem mem_handles_iff : h ∈ a.toList.map Prod.fst ↔ ∃ x, a.get? h = some x := by
  simp [mem_toList_iff]

theorem ordered_entriesFrom :
    (entriesFrom index slots : List (Handle entity × α)).Pairwise
      fun e e' => e.1.index < e'.1.index := by
  induction slots generalizing index with
  | nil => exact .nil
  | cons slot rest ih =>
    rw [entriesFrom]
    cases slot.entry with
    | none => exact ih
    | some x =>
      refine .cons (fun e listed => ?_) ih
      rcases mem_entriesFrom.mp listed with ⟨i, _, place, -⟩
      dsimp only
      omega

/-- The entries are listed in the order of their slots. -/
theorem ordered_toList : a.toList.Pairwise fun e e' => e.1.index < e'.1.index :=
  ordered_entriesFrom

/-- No handle is listed twice. -/
theorem nodup_handles : (a.toList.map Prod.fst).Nodup := by
  refine List.pairwise_map.mpr (ordered_toList.imp fun before same => ?_)
  exact Nat.lt_irrefl _ (same ▸ before)

/-- A list that has each handle that names something once. -/
theorem perm_handles {hs : List (Handle entity)} (nodup : hs.Nodup)
    (listed : ∀ h, h ∈ hs ↔ ∃ x, a.get? h = some x) : hs.Perm (a.toList.map Prod.fst) :=
  (List.perm_ext_iff_of_nodup nodup nodup_handles).mpr fun h =>
    (listed h).trans mem_handles_iff.symm

end KernelFusion.Arena
