import KernelFusion.Proofs.Region.Editing
import KernelFusion.Rewrite.Agenda
import Mathlib.Data.List.Sort

/-!
# Given nodes in program order

`Region.inProgramOrder` looks up the positions of the given nodes, sorts by them, and drops repetitions that stand
together. Repetitions come to stand together because different nodes have different positions, and the look-ups
succeed because each node of a region has one: both are what `Region.Consistent` says of the positions. So the answer
is the part of the program order that was given (`Consistent.inProgramOrder_eq`), whatever the order and the
repetitions in which it was given.
-/

namespace KernelFusion

/-! ## Dropping repetitions -/

section Repetitions

variable {α : Type} [BEq α] [LawfulBEq α] {x y a : α} {xs rest : List α}

omit [LawfulBEq α] in
theorem eraseReps_loop (x : α) (xs acc : List α) :
    List.eraseRepsBy.loop (· == ·) x xs acc =
      acc.reverse ++ List.eraseRepsBy.loop (· == ·) x xs [] := by
  induction xs generalizing x acc with
  | nil => simp [List.eraseRepsBy.loop]
  | cons y rest ih =>
    unfold List.eraseRepsBy.loop
    split
    · exact ih x acc
    · rw [ih y (x :: acc), ih y [x]]
      simp

theorem eraseReps_cons_self : (x :: x :: rest).eraseReps = (x :: rest).eraseReps := by
  change List.eraseRepsBy.loop (· == ·) x (x :: rest) [] = _
  unfold List.eraseRepsBy.loop
  rw [beq_self_eq_true]
  rfl

theorem eraseReps_cons_of_ne (ne : x ≠ y) :
    (x :: y :: rest).eraseReps = x :: (y :: rest).eraseReps := by
  change List.eraseRepsBy.loop (· == ·) x (y :: rest) [] = _
  unfold List.eraseRepsBy.loop
  rw [beq_false_of_ne ne]
  exact eraseReps_loop y rest [x]

/-- Dropping repetitions that stand together loses no element. -/
theorem mem_eraseReps : a ∈ xs.eraseReps ↔ a ∈ xs := by
  induction xs with
  | nil => rfl
  | cons x rest ih =>
    cases rest with
    | nil => rfl
    | cons y rest =>
      by_cases same : x = y
      · subst same
        rw [eraseReps_cons_self, ih]
        simp
      · rw [eraseReps_cons_of_ne same, List.mem_cons, ih, ← List.mem_cons]

/-- In a list that rises by a key that tells its elements apart, what is left rises strictly. -/
theorem pairwise_eraseReps {key : α → Nat} (rises : xs.Pairwise fun a b => key a ≤ key b)
    (apart : ∀ a ∈ xs, ∀ b ∈ xs, key a = key b → a = b) :
    xs.eraseReps.Pairwise fun a b => key a < key b := by
  induction xs with
  | nil => exact .nil
  | cons x rest ih =>
    have later := ih rises.of_cons fun a inRest b inRest' =>
      apart a (List.mem_cons_of_mem x inRest) b (List.mem_cons_of_mem x inRest')
    cases rest with
    | nil => exact List.pairwise_singleton _ x
    | cons y rest =>
      by_cases same : x = y
      · subst same
        rw [eraseReps_cons_self]
        exact later
      · rw [eraseReps_cons_of_ne same]
        refine List.pairwise_cons.mpr ⟨fun b member => ?_, later⟩
        have first : key x ≤ key y := List.rel_of_pairwise_cons rises List.mem_cons_self
        have ne : key x ≠ key y := fun equal =>
          same (apart x List.mem_cons_self y (List.mem_cons_of_mem x List.mem_cons_self) equal)
        have second : key y ≤ key b := by
          rcases List.mem_cons.mp (mem_eraseReps.mp member) with rfl | behind
          · exact Nat.le_refl _
          · exact List.rel_of_pairwise_cons rises.of_cons behind
        omega

end Repetitions

/-! ## Sorting by position -/

namespace Located

variable {x y : Located} {xs : List Located}

theorem le_of_notBehind (h : x.notBehind y = true) : x.1 ≤ y.1 := by
  by_contra greater
  have order : compare x.1 y.1 = .gt := Nat.compare_eq_gt.mpr (Nat.lt_of_not_le greater)
  rw [notBehind, order] at h
  cases h

theorem le_of_behind (h : ¬ x.notBehind y = true) : y.1 ≤ x.1 := by
  by_contra greater
  have order : compare x.1 y.1 = .lt := Nat.compare_eq_lt.mpr (Nat.lt_of_not_le greater)
  rw [notBehind, order] at h
  exact h rfl

/-- Inserting adds one element. -/
theorem perm_insertSorted : (insertSorted x xs).Perm (x :: xs) := by
  induction xs with
  | nil => exact .refl _
  | cons y rest ih =>
    rw [insertSorted]
    split
    · exact .refl _
    · exact (ih.cons y).trans (.swap x y rest)

/-- Sorting rearranges. -/
theorem perm_sort : (sort xs).Perm xs := by
  induction xs with
  | nil => exact .refl _
  | cons x rest ih => exact perm_insertSorted.trans (ih.cons x)

/-- Inserting keeps what is sorted by position sorted. -/
theorem pairwise_insertSorted (sorted : xs.Pairwise fun y z => y.1 ≤ z.1) :
    (insertSorted x xs).Pairwise fun y z => y.1 ≤ z.1 := by
  induction xs with
  | nil => exact List.pairwise_singleton _ x
  | cons y rest ih =>
    have below := List.pairwise_cons.mp sorted
    rw [insertSorted]
    split
    case isTrue front =>
      refine List.pairwise_cons.mpr ⟨fun z member => ?_, sorted⟩
      rcases List.mem_cons.mp member with rfl | member
      · exact le_of_notBehind front
      · exact Nat.le_trans (le_of_notBehind front) (below.1 z member)
    case isFalse behind =>
      refine List.pairwise_cons.mpr ⟨fun z member => ?_, ih below.2⟩
      rcases List.mem_cons.mp (perm_insertSorted.mem_iff.mp member) with rfl | member
      · exact le_of_behind behind
      · exact below.1 z member

/-- What is sorted stands by rising positions. -/
theorem pairwise_sort : (sort xs).Pairwise fun y z => y.1 ≤ z.1 := by
  induction xs with
  | nil => exact .nil
  | cons x rest ih => exact pairwise_insertSorted ih

end Located

/-! ## Nodes and their positions -/

namespace Region.Consistent

variable {g : Region} (c : g.Consistent) {ns : List NodeId} {n m : NodeId}

include c

theorem contains_iff_mem_order : g.contains n = true ↔ n ∈ g.order :=
  contains_eq_true_iff.trans (c.mem_order n).symm

/-- On a consistent region the given nodes that it has are found, each with its position. -/
theorem located_eq :
    g.located ns = .ok ((ns.filter g.contains).map fun n => (g.order.idxOf n, n)) := by
  rw [located, mapM_eq_ok_iff, List.forall₂_map_right_iff, List.forall₂_same]
  intro n member
  have live := c.contains_iff_mem_order.mp (List.mem_filter.mp member).2
  rw [c.position_eq live, ok_bind, pure_eq_ok]

/-- The query for the order of two nodes agrees with the program order. -/
theorem isBefore_of_precedes (before : Precedes g.order n m) : g.isBefore n m = .ok true := by
  rw [isBefore, c.position_eq before.mem_left, ok_bind, c.position_eq before.mem_right, ok_bind,
    pure_eq_ok, decide_eq_true before.2]

/-- What is left when the located nodes are sorted and repetitions are dropped. -/
theorem mem_located_iff {given : List Located} (located : g.located ns = .ok given) {x : Located} :
    x ∈ (Located.sort given).eraseReps ↔ x.1 = g.order.idxOf x.2 ∧ x.2 ∈ g.order ∧ x.2 ∈ ns := by
  rw [c.located_eq, Except.ok.injEq] at located
  rw [mem_eraseReps, Located.perm_sort.mem_iff, ← located, List.mem_map]
  constructor
  · intro listed
    rcases listed with ⟨n, member, rfl⟩
    rw [List.mem_filter, c.contains_iff_mem_order] at member
    exact ⟨rfl, member.2, member.1⟩
  · intro listed
    rcases listed with ⟨place, live, member⟩
    refine ⟨x.2, List.mem_filter.mpr ⟨member, c.contains_iff_mem_order.mpr live⟩, ?_⟩
    rw [← place]

/-- The positions rise strictly, since different nodes of a region stand at different places. -/
theorem rises_located {given : List Located} (located : g.located ns = .ok given) :
    ((Located.sort given).eraseReps.map Prod.snd).Pairwise (Precedes g.order) := by
  have apart : ∀ x ∈ Located.sort given, ∀ y ∈ Located.sort given, x.1 = y.1 → x = y := by
    intro x left y right same
    have leftAt := (c.mem_located_iff located).mp (mem_eraseReps.mpr left)
    have rightAt := (c.mem_located_iff located).mp (mem_eraseReps.mpr right)
    rw [leftAt.1, rightAt.1] at same
    exact Prod.ext (by rw [leftAt.1, rightAt.1, same]) ((List.idxOf_inj leftAt.2.1).mp same)
  refine List.pairwise_map.mpr ((pairwise_eraseReps Located.pairwise_sort apart).imp_of_mem ?_)
  intro x y left right less
  have leftAt := (c.mem_located_iff located).mp left
  have rightAt := (c.mem_located_iff located).mp right
  rw [leftAt.1, rightAt.1] at less
  exact ⟨rightAt.2.1, less⟩

/-- The nodes of the region among the given ones come out in program order, each once. -/
theorem inProgramOrder_eq : g.inProgramOrder ns = .ok (g.order.filter fun n => n ∈ ns) := by
  have asymmetric : Std.Antisymm (Precedes g.order) :=
    ⟨fun n m before after => absurd after before.asymm⟩
  have irreflexive : Std.Irrefl (Precedes g.order) := ⟨fun n before => before.ne rfl⟩
  rw [inProgramOrder, c.located_eq, ok_bind, pure_eq_ok, Except.ok.injEq]
  refine (c.rises_located c.located_eq).eq_of_mem_iff
    ((pairwise_precedes c.order_nodup).sublist List.filter_sublist) fun n => ?_
  rw [List.mem_map, List.mem_filter, decide_eq_true_iff]
  constructor
  · intro listed
    rcases listed with ⟨x, member, rfl⟩
    exact ((c.mem_located_iff c.located_eq).mp member).2
  · intro listed
    exact ⟨(g.order.idxOf n, n), (c.mem_located_iff c.located_eq).mpr ⟨rfl, listed⟩, rfl⟩

end Region.Consistent

end KernelFusion
