import KernelFusion.Region.Edit
import Mathlib.Data.List.InsertIdx
import Mathlib.Data.List.Perm.Basic

/-!
# Program order

Inserting a node into the program order moves the nodes behind it up by one place, erasing a node moves
them down by one. `Precedes` says that one node stands before another; it is kept and reflected by both
changes for the nodes that they are not about. `find?_reindex` gives the positions after a change.
-/

namespace KernelFusion

/-! ## Places after a change -/

section Places

variable {α : Type} {l : List α} {a b c : α} {i : Nat}

theorem insertIdx_eq_take_drop (le : i ≤ l.length) :
    l.insertIdx i c = l.take i ++ c :: l.drop i := by
  induction l generalizing i with
  | nil =>
    cases Nat.le_zero.mp le
    rfl
  | cons x rest ih =>
    cases i with
    | zero => rfl
    | succ i =>
      rw [List.insertIdx_succ_cons, ih (Nat.le_of_succ_le_succ le), List.take_succ_cons,
        List.drop_succ_cons, List.cons_append]

/-- An insertion between two parts of a list. -/
theorem insertIdx_append_length (front back : List α) :
    (front ++ back).insertIdx front.length c = front ++ c :: back := by
  rw [insertIdx_eq_take_drop (by simp), List.take_left, List.drop_left]

variable [DecidableEq α]

/-- The new element stands where it was inserted. -/
theorem idxOf_insertIdx_self (fresh : c ∉ l) (le : i ≤ l.length) :
    (l.insertIdx i c).idxOf c = i := by
  have absent : c ∉ l.take i := fun member => fresh (List.mem_of_mem_take member)
  rw [insertIdx_eq_take_drop le, List.idxOf_append_of_notMem absent, List.idxOf_cons_self,
    List.length_take, Nat.min_eq_left le, Nat.add_zero]

/-- The other elements move one place on if they stand at the insertion or behind it. -/
theorem idxOf_insertIdx_of_ne (ne : a ≠ c) (le : i ≤ l.length) :
    (l.insertIdx i c).idxOf a = if l.idxOf a < i then l.idxOf a else l.idxOf a + 1 := by
  induction l generalizing i with
  | nil =>
    cases Nat.le_zero.mp le
    simp [List.idxOf_cons_ne _ (Ne.symm ne)]
  | cons x rest ih =>
    cases i with
    | zero => simp [List.idxOf_cons_ne _ (Ne.symm ne)]
    | succ i =>
      rw [List.insertIdx_succ_cons]
      by_cases same : x = a
      · subst same
        simp
      · rw [List.idxOf_cons_ne _ same, List.idxOf_cons_ne _ same,
          ih (Nat.le_of_succ_le_succ le)]
        split <;> split <;> omega

/-- The other elements move one place back if they stand behind what is removed. -/
theorem idxOf_erase_of_ne (nodup : l.Nodup) (ne : a ≠ c) (member : c ∈ l) :
    (l.erase c).idxOf a = if l.idxOf a < l.idxOf c then l.idxOf a else l.idxOf a - 1 := by
  induction l with
  | nil => cases member
  | cons x rest ih =>
    obtain ⟨absent, nodup'⟩ := List.nodup_cons.mp nodup
    by_cases atHead : x = c
    · subst atHead
      rw [List.erase_cons_head, List.idxOf_cons_self, List.idxOf_cons_ne _ (Ne.symm ne)]
      simp
    · have inRest : c ∈ rest := (List.mem_cons.mp member).resolve_left (Ne.symm atHead)
      rw [List.erase_cons_tail (by simpa using atHead)]
      by_cases same : x = a
      · subst same
        rw [List.idxOf_cons_self, List.idxOf_cons_self, List.idxOf_cons_ne _ atHead]
        simp
      · rw [List.idxOf_cons_ne _ same, List.idxOf_cons_ne _ same, List.idxOf_cons_ne _ atHead,
          ih nodup' inRest]
        have below : rest.idxOf a ≠ rest.idxOf c := by
          intro equal
          exact ne ((List.idxOf_inj inRest).mp equal.symm).symm
        split <;> split <;> omega

/-! ## Standing before -/

/-- `a` stands before `b` in a list. -/
def Precedes (l : List α) (a b : α) : Prop := b ∈ l ∧ l.idxOf a < l.idxOf b

namespace Precedes

theorem mem_left (before : Precedes l a b) : a ∈ l :=
  List.idxOf_lt_length_iff.mp (Nat.lt_trans before.2 (List.idxOf_lt_length_of_mem before.1))

theorem mem_right (before : Precedes l a b) : b ∈ l := before.1

theorem ne (before : Precedes l a b) : a ≠ b := by
  rintro rfl
  exact Nat.lt_irrefl _ before.2

theorem trans (first : Precedes l a b) (second : Precedes l b c) : Precedes l a c :=
  ⟨second.1, Nat.lt_trans first.2 second.2⟩

theorem asymm (before : Precedes l a b) : ¬ Precedes l b a :=
  fun after => Nat.lt_asymm before.2 after.2

end Precedes

/-- An insertion does not change which of two other elements comes first. -/
theorem precedes_insertIdx_of_ne (neA : a ≠ c) (neB : b ≠ c) (le : i ≤ l.length) :
    Precedes (l.insertIdx i c) a b ↔ Precedes l a b := by
  unfold Precedes
  rw [idxOf_insertIdx_of_ne neA le, idxOf_insertIdx_of_ne neB le,
    List.mem_insertIdx le, or_iff_right neB]
  refine and_congr_right fun _ => ?_
  split <;> split <;> omega

/-- The nodes from the insertion point on stand behind the inserted one. -/
theorem precedes_insertIdx_self (fresh : c ∉ l) (ne : b ≠ c) (le : i ≤ l.length) :
    Precedes (l.insertIdx i c) c b ↔ b ∈ l ∧ i ≤ l.idxOf b := by
  unfold Precedes
  rw [idxOf_insertIdx_self fresh le, idxOf_insertIdx_of_ne ne le, List.mem_insertIdx le,
    or_iff_right ne]
  refine and_congr_right fun _ => ?_
  split <;> omega

/-- The nodes up to the insertion point stand before the inserted one. -/
theorem insertIdx_precedes_self (fresh : c ∉ l) (ne : a ≠ c) (le : i ≤ l.length) :
    Precedes (l.insertIdx i c) a c ↔ l.idxOf a < i := by
  unfold Precedes
  rw [idxOf_insertIdx_self fresh le, idxOf_insertIdx_of_ne ne le, List.mem_insertIdx le]
  constructor
  · rintro ⟨_, lt⟩
    split at lt <;> omega
  · intro lt
    refine ⟨Or.inl rfl, ?_⟩
    rwa [if_pos lt]

/-- A removal does not change which of two other elements comes first. -/
theorem precedes_erase_of_ne (nodup : l.Nodup) (neA : a ≠ c) (neB : b ≠ c) :
    Precedes (l.erase c) a b ↔ Precedes l a b := by
  by_cases member : c ∈ l
  · unfold Precedes
    rw [idxOf_erase_of_ne nodup neA member, idxOf_erase_of_ne nodup neB member,
      List.mem_erase_of_ne neB]
    have placeA : l.idxOf a ≠ l.idxOf c := fun equal =>
      neA ((List.idxOf_inj member).mp equal.symm).symm
    have placeB : l.idxOf b ≠ l.idxOf c := fun equal =>
      neB ((List.idxOf_inj member).mp equal.symm).symm
    refine and_congr_right fun _ => ?_
    split <;> split <;> omega
  · rw [List.erase_of_not_mem member]

/-- A list falls apart at two of its elements. -/
theorem Precedes.split (before : Precedes l a b) :
    ∃ front mid back, l = front ++ a :: (mid ++ b :: back) := by
  rcases List.eq_append_cons_of_mem before.mem_left with ⟨front, rest, rfl, absent⟩
  have behind : b ∈ rest := by
    rcases List.mem_append.mp before.mem_right with inFront | inRest
    · have lt := before.2
      rw [List.idxOf_append_of_mem inFront, List.idxOf_append_of_notMem absent] at lt
      have := List.idxOf_lt_length_of_mem inFront
      omega
    · exact (List.mem_cons.mp inRest).resolve_left before.ne.symm
  rcases List.append_of_mem behind with ⟨mid, back, rfl⟩
  exact ⟨front, mid, back, rfl⟩

section Splits

variable {front back : List α}

omit [DecidableEq α] in
theorem not_mem_front (nodup : (front ++ a :: back).Nodup) : a ∉ front :=
  fun inFront => (List.nodup_append.mp nodup).2.2 a inFront a List.mem_cons_self rfl

variable (absent : a ∉ front)

include absent

theorem idxOf_append_cons : (front ++ a :: back).idxOf a = front.length := by
  rw [List.idxOf_append_of_notMem absent, List.idxOf_cons_self, Nat.add_zero]

theorem insertIdx_idxOf :
    (front ++ a :: back).insertIdx ((front ++ a :: back).idxOf a) c = front ++ c :: a :: back := by
  rw [idxOf_append_cons absent, insertIdx_append_length]

theorem insertIdx_idxOf_succ :
    (front ++ a :: back).insertIdx ((front ++ a :: back).idxOf a + 1) c =
      front ++ a :: c :: back := by
  have place : front.length + 1 = (front ++ [a]).length := by
    rw [List.length_append, List.length_singleton]
  rw [idxOf_append_cons absent, place, List.append_cons, insertIdx_append_length,
    List.append_assoc, List.singleton_append]

/-- What stands in front of an element precedes it. -/
theorem precedes_append_cons (member : b ∈ front) : Precedes (front ++ a :: back) b a := by
  refine ⟨List.mem_append_right _ List.mem_cons_self, ?_⟩
  rw [idxOf_append_cons absent, List.idxOf_append_of_mem member]
  exact List.idxOf_lt_length_of_mem member

theorem erase_append_cons : (front ++ a :: back).erase a = front ++ back := by
  rw [List.erase_append_right _ absent, List.erase_cons_head]

end Splits

/-- Without repetitions, an element and its place determine each other. -/
theorem getElem?_eq_some_iff_of_nodup (nodup : l.Nodup) :
    l[i]? = some a ↔ a ∈ l ∧ l.idxOf a = i := by
  constructor
  · intro found
    rcases List.getElem?_eq_some_iff.mp found with ⟨lt, rfl⟩
    exact ⟨List.getElem_mem lt, nodup.idxOf_getElem i lt⟩
  · rintro ⟨member, rfl⟩
    exact List.getElem?_idxOf member

/-- Without repetitions, the elements precede one another in the order of the list. -/
theorem pairwise_precedes (nodup : l.Nodup) :
    l.Pairwise (Precedes l) := by
  refine List.pairwise_iff_getElem.mpr fun i j hi hj lt => ⟨List.getElem_mem hj, ?_⟩
  rwa [nodup.idxOf_getElem, nodup.idxOf_getElem]

/-- The elements from a place on are those that do not stand before it. -/
theorem mem_drop_iff_le_idxOf (nodup : l.Nodup) : a ∈ l.drop i ↔ a ∈ l ∧ i ≤ l.idxOf a := by
  constructor
  · intro behind
    have member := List.mem_of_mem_drop behind
    refine ⟨member, Nat.le_of_not_lt fun lt => ?_⟩
    exact List.disjoint_take_drop nodup (Nat.le_refl i) ((List.mem_take_iff_idxOf_lt member).mpr lt)
      behind
  · rintro ⟨member, le⟩
    rw [← List.take_append_drop i l, List.mem_append] at member
    refine member.resolve_left fun front => ?_
    have lt := (List.mem_take_iff_idxOf_lt (List.mem_of_mem_take front)).mp front
    omega

theorem idxOf_of_mem_drop (nodup : l.Nodup) (behind : a ∈ l.drop i) :
    l.idxOf a = i + (l.drop i).idxOf a := by
  have absent : a ∉ l.take i := fun front => List.disjoint_take_drop nodup (Nat.le_refl i) front behind
  have le : i ≤ l.length := by
    by_contra beyond
    rw [List.drop_eq_nil_of_le (by omega)] at behind
    cases behind
  conv_lhs => rw [← List.take_append_drop i l]
  rw [List.idxOf_append_of_notMem absent, List.length_take, Nat.min_eq_left le]

end Places

/-! ## The table of positions -/

namespace Region

variable {positions : Table NodeId Nat} {place : Nat} {q : NodeId}

/-- Giving nodes new positions changes the positions of those nodes only. -/
theorem find?_reindex {ns : List NodeId} (nodup : ns.Nodup) :
    (reindex positions place ns).find? q =
      if q ∈ ns then some (place + ns.idxOf q) else positions.find? q := by
  induction ns generalizing positions place with
  | nil => simp [reindex]
  | cons n rest ih =>
    obtain ⟨absent, nodup'⟩ := List.nodup_cons.mp nodup
    rw [reindex, ih nodup', Table.find?_insert]
    by_cases same : q = n
    · subst same
      simp [absent]
    · simp only [List.mem_cons, same, false_or, if_false, List.idxOf_cons_ne _ (Ne.symm same)]
      split
      · congr 1
        omega
      · rfl

/-- The position that a program order gives to a node. -/
def positionIn (order : List NodeId) (n : NodeId) : Option Nat :=
  if n ∈ order then some (order.idxOf n) else none

theorem positionIn_of_mem {order : List NodeId} (member : q ∈ order) :
    positionIn order q = some (order.idxOf q) :=
  if_pos member

/-- A position says that a node is in the order and where. -/
theorem positionIn_eq_some_iff {order : List NodeId} {i : Nat} :
    positionIn order q = some i ↔ q ∈ order ∧ order.idxOf q = i := by
  unfold positionIn
  split <;> simp [*]

/-- Renewing the positions from a place on is enough when those before it are right. -/
theorem find?_reindex_drop {order : List NodeId} (nodup : order.Nodup)
    (front : ∀ n, n ∉ order.drop place → positions.find? n = positionIn order n) :
    (reindex positions place (order.drop place)).find? q = positionIn order q := by
  rw [find?_reindex (nodup.sublist (List.drop_sublist place order))]
  split
  case isTrue behind =>
    rw [positionIn_of_mem (List.mem_of_mem_drop behind), idxOf_of_mem_drop nodup behind]
  case isFalse before => exact front q before

theorem nodup_insertIdx {order : List NodeId} (nodup : order.Nodup) (fresh : q ∉ order)
    (le : place ≤ order.length) : (order.insertIdx place q).Nodup :=
  (List.perm_insertIdx q order le).nodup_iff.mpr (List.nodup_cons.mpr ⟨fresh, nodup⟩)

/-- The positions stay right when a node is inserted. -/
theorem find?_reindex_insertIdx {order : List NodeId} {n : NodeId} (nodup : order.Nodup)
    (fresh : n ∉ order) (le : place ≤ order.length)
    (right : ∀ m, positions.find? m = positionIn order m) :
    (reindex positions place ((order.insertIdx place n).drop place)).find? q =
      positionIn (order.insertIdx place n) q := by
  have nodup' := nodup_insertIdx nodup fresh le
  refine find?_reindex_drop nodup' fun m before => ?_
  rw [mem_drop_iff_le_idxOf nodup', not_and] at before
  have ne : m ≠ n := by
    rintro rfl
    exact before ((List.mem_insertIdx le).mpr (Or.inl rfl))
      (Nat.le_of_eq (idxOf_insertIdx_self fresh le).symm)
  rw [right]
  unfold positionIn
  simp only [List.mem_insertIdx le, ne, false_or]
  by_cases member : m ∈ order
  · have lt := before ((List.mem_insertIdx le).mpr (Or.inr member))
    rw [idxOf_insertIdx_of_ne ne le] at lt ⊢
    split at lt
    case isTrue small => simp [member, small]
    case isFalse => omega
  · simp [member]

/-- The positions stay right when a node is erased. -/
theorem find?_reindex_erase {order : List NodeId} {n : NodeId} (nodup : order.Nodup)
    (member : n ∈ order) (right : ∀ m, positions.find? m = positionIn order m) :
    (reindex (positions.erase n) (order.idxOf n) ((order.erase n).drop (order.idxOf n))).find? q =
      positionIn (order.erase n) q := by
  have nodup' := nodup.erase n
  refine find?_reindex_drop nodup' fun m before => ?_
  rw [mem_drop_iff_le_idxOf nodup', not_and] at before
  rw [Table.find?_erase, right]
  unfold positionIn
  by_cases same : m = n
  · subst same
    simp [nodup.not_mem_erase]
  · simp only [same, if_false, List.mem_erase_of_ne same]
    by_cases inOrder : m ∈ order
    · have lt := before ((List.mem_erase_of_ne same).mpr inOrder)
      have place : order.idxOf m ≠ order.idxOf n := fun equal =>
        same ((List.idxOf_inj inOrder).mp equal)
      rw [idxOf_erase_of_ne nodup same member] at lt ⊢
      split at lt
      case isTrue small => simp [inOrder, small]
      case isFalse => omega
    · simp [inOrder]

end Region

end KernelFusion
