import Mathlib.Algebra.Order.BigOperators.Group.List
import Mathlib.Algebra.Order.Group.Nat
import Mathlib.Algebra.Ring.Nat
import Mathlib.Data.List.MinMax
import Mathlib.Order.Nat
import KernelFusion.Proofs.Region.Expansion

/-!
# How far a region reads

The span of an apply along a dimension is the largest distance at which its kernel accesses an operand, and the
spread of a region is the sum of the spans. Every offset that an expansion comes to is a sum of accesses of
different nodes, one on each level, so the spread bounds it, and the sums on the way as well. In an ordered region
whose spreads are in range every value expands (`Region.Consistent.expandable_of_within`).
-/

namespace KernelFusion

/-- The dimensions of the grid. -/
inductive Dimension where
  | i
  | j
  | k
deriving DecidableEq

namespace Offset

variable {a b c : Offset}

/-- The component of an offset along a dimension. -/
def along (a : Offset) : Dimension → Int
  | .i => a.i.toInt
  | .j => a.j.toInt
  | .k => a.k.toInt

/-- The greatest component that an offset can have. -/
def limit : Nat := 2 ^ 63 - 1

theorem along_zero (d : Dimension) : zero.along d = 0 := by
  cases d <;> rfl

/-- A sum of offsets that is in range is a sum in each dimension. -/
theorem along_of_add_eq_ok (sum : a.add b = .ok c) (d : Dimension) :
    c.along d = a.along d + b.along d := by
  rcases add_eq_ok_iff.mp sum with ⟨i, j, k⟩
  cases d with
  | i => exact i
  | j => exact j
  | k => exact k

/-- Two offsets have a sum when their sizes do not add up to more than the limit. -/
theorem exists_add_eq_ok (within : ∀ d, (a.along d).natAbs + (b.along d).natAbs ≤ limit) :
    ∃ c, a.add b = .ok c := by
  have inRange (x y : Int64) (small : x.toInt.natAbs + y.toInt.natAbs ≤ limit) :
      (Int64.ofInt (x.toInt + y.toInt)).toInt = x.toInt + y.toInt := by
    unfold limit at small
    refine Int64.toInt_ofInt_of_le ?_ ?_ <;> omega
  exact ⟨⟨_, _, _⟩, add_eq_ok_iff.mpr
    ⟨inRange a.i b.i (within .i), inRange a.j b.j (within .j), inRange a.k b.k (within .k)⟩⟩

end Offset

/-! ## Spans -/

/-- The largest distance at which a kernel accesses a parameter. -/
def Kernel.span (kernel : Kernel) (d : Dimension) : Nat :=
  (kernel.accesses.map fun read => (read.offset.along d).natAbs).foldr max 0

/-- The span of a kernel bounds its offsets. -/
theorem Kernel.le_span {kernel : Kernel} {read : Access} (member : read ∈ kernel.accesses)
    (d : Dimension) : (read.offset.along d).natAbs ≤ kernel.span d :=
  List.le_max_of_le (List.mem_map_of_mem member) (Nat.le_refl _)

/-- The span is the least such bound. -/
theorem Kernel.span_le {kernel : Kernel} {d : Dimension} {m : Nat}
    (each : ∀ read ∈ kernel.accesses, (read.offset.along d).natAbs ≤ m) : kernel.span d ≤ m := by
  refine List.max_le_of_forall_le _ m fun distance member => ?_
  rcases List.mem_map.mp member with ⟨read, isAccess, rfl⟩
  exact each read isAccess

namespace Region

variable {g : Region} {n : NodeId} {v w : ValueId} {shift : Offset} {levels : Nat} {d : Dimension}

/-- The span of a node; a load has none. -/
def spanAt (g : Region) (d : Dimension) (n : NodeId) : Nat :=
  ((g.nodes.get? n).bind fun node => node.kind.kernel?).elim 0 fun kernel => kernel.span d

/-- The sum of the spans of the nodes. -/
def spread (g : Region) (d : Dimension) : Nat := (g.order.map (g.spanAt d)).sum

theorem spanAt_apply {operands results : List ValueId} {kernel : Kernel}
    (found : g.nodes.get? n = some ⟨.apply operands kernel, results⟩) :
    g.spanAt d n = kernel.span d := by
  rw [spanAt, found]
  rfl

theorem spanAt_load {field : Field} {type : ElementType} {results : List ValueId}
    (found : g.nodes.get? n = some ⟨.load field type, results⟩) : g.spanAt d n = 0 := by
  rw [spanAt, found]
  rfl

/-! ## What lies below a value -/

/-- The sum of the spans of the nodes up to the one that produces a value. -/
def spreadBelow (g : Region) (d : Dimension) (v : ValueId) : Nat :=
  ((g.order.take (g.height v - 1)).map (g.spanAt d)).sum

/-- What is summed up to a place grows with the place. -/
theorem sum_take_le {order : List NodeId} {weight : NodeId → Nat} {k l : Nat} (le : k ≤ l) :
    ((order.take k).map weight).sum ≤ ((order.take l).map weight).sum :=
  (((List.take_sublist_take_left le).map weight).sum_le_sum fun _ _ => Nat.zero_le _)

theorem spreadBelow_le : g.spreadBelow d v ≤ g.spread d :=
  ((List.take_sublist _ _).map _).sum_le_sum fun _ _ => Nat.zero_le _

/-- Below what a node computes lies what is below its operands, and its own span. -/
theorem Consistent.spreadBelow_operand (c : g.Consistent) (o : g.Ordered) {node : Node}
    (found : g.nodes.get? n = some node) (operand : w ∈ node.kind.operands)
    (result : v ∈ node.results) : g.spanAt d n + g.spreadBelow d w ≤ g.spreadBelow d v := by
  have lower := c.height_lt o found operand result
  have height := height_eq (c.producerOf_result found result)
  have live := List.idxOf_lt_length_of_mem (c.mem_order_of_get? found)
  have last : g.order[g.order.idxOf n] = n := List.getElem_idxOf live
  calc g.spanAt d n + g.spreadBelow d w
      ≤ g.spanAt d n + ((g.order.take (g.order.idxOf n)).map (g.spanAt d)).sum :=
        Nat.add_le_add_left (sum_take_le (by omega)) _
    _ = ((g.order.take (g.order.idxOf n + 1)).map (g.spanAt d)).sum := by
        rw [List.take_succ_eq_append_getElem live, last, List.map_append, List.sum_append,
          Nat.add_comm]
        rfl
    _ = g.spreadBelow d v := by
        rw [spreadBelow, height]
        rfl

/-! ## Expansions in range -/

/-- A value expands at a shift when the size of the shift and the spread below the value stay within the limit. -/
theorem Consistent.exists_expandWithin (c : g.Consistent) (o : g.Ordered) {info : ValueInfo}
    (infoAt : g.values.get? v = some info) (enough : g.height v ≤ levels)
    (within : ∀ d, (shift.along d).natAbs + g.spreadBelow d v ≤ Offset.limit) :
    ∃ out, g.expandWithin levels v shift = .ok out := by
  induction levels generalizing v shift info with
  | zero => exact absurd height_pos (Nat.not_lt.mpr enough)
  | succ levels ih =>
    cases c.origin infoAt with
    | input found => exact ⟨_, expandWithin_input found⟩
    | load found member => exact ⟨_, c.expandWithin_load found member⟩
    | @apply n operands results kernel i type tree found resultAt returned =>
      rw [c.expandWithin_apply found resultAt returned]
      refine Expr.exists_bindM_eq_ok fun read needed => ?_
      have isAccess := returned.mem_accesses ((c.fits _ _ found).kernel kernel rfl) needed
      rcases c.exists_operand found isAccess with ⟨operand, operandAt⟩
      have isOperand : operand ∈ operands := List.mem_of_getElem? operandAt
      have isResult : v ∈ results := List.mem_of_getElem? resultAt
      -- The offset of the read is taken off the spread and added to the shift.
      have below (d : Dimension) : (read.offset.along d).natAbs + g.spreadBelow d operand ≤
          g.spreadBelow d v := by
        have step := c.spreadBelow_operand (d := d) o found isOperand isResult
        rw [spanAt_apply found] at step
        exact (Nat.add_le_add_right (Kernel.le_span isAccess d) _).trans step
      have room (d : Dimension) : (read.offset.along d).natAbs + (shift.along d).natAbs ≤
          Offset.limit := by
        have step := below d
        have whole := within d
        omega
      rcases Offset.exists_add_eq_ok room with ⟨shift', sum⟩
      have within' (d : Dimension) : (shift'.along d).natAbs + g.spreadBelow d operand ≤
          Offset.limit := by
        have step := below d
        have whole := within d
        have component := Offset.along_of_add_eq_ok sum d
        omega
      rcases c.operand_live found isOperand with ⟨info', infoAt'⟩
      have lower := c.height_lt o found isOperand isResult
      rcases ih infoAt' (by omega) within' with ⟨out, expanded⟩
      exact ⟨out, readWithin_eq_ok_iff.mpr ⟨operand, shift', operandAt, sum, expanded⟩⟩

/-- Every value of a region expands whose spreads are within the limit. -/
theorem Consistent.expandable_of_within (c : g.Consistent) (o : g.Ordered)
    (within : ∀ d, g.spread d ≤ Offset.limit) : g.Expandable := by
  intro v info infoAt
  refine c.exists_expandWithin o infoAt (c.height_le_depth v) fun d => ?_
  rw [Offset.along_zero, Int.natAbs_zero, Nat.zero_add]
  exact spreadBelow_le.trans (within d)

end Region

end KernelFusion
