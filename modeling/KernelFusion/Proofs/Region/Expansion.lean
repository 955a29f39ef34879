import KernelFusion.Proofs.Offset
import KernelFusion.Proofs.Expr.Replacement
import KernelFusion.Proofs.Kernel.Accesses
import KernelFusion.Proofs.Region.Editing
import KernelFusion.Region.Expansion

/-!
# How a value expands

In a consistent region a value is an input, the result of a load, or a result of an apply, and for each there is one
equation that says what the value expands to. More levels do not change an expansion that exists (`expandWithin_mono`),
and in an ordered region no more levels are needed than nodes, so `Region.depth` is enough (`expandAt_eq_ok`).

There the equations hold of `expandAt` itself, with no levels in them, and what holds of a value when it holds of
everything its producer reads holds of every value (`Consistent.value_induction`).
-/

namespace KernelFusion.Region

variable {g g' : Region} {n : NodeId} {v : ValueId} {shift shift' : Offset} {levels levels' i : Nat}
  {operands results : List ValueId} {kernel : Kernel} {type : ElementType} {tree : Expr Access}
  {out : Expr Cell}

/-- What a read in a kernel expands to when the result is read at a shift. -/
def readWithin (g : Region) (levels : Nat) (operands : List ValueId) (shift : Offset)
    (read : Access) : Except Error (Expr Cell) := do
  let operand ← orRefuse operands[read.param]? (.accessUnknownParameter read.param operands.length)
  let shift' ← Offset.lift (read.offset.compose shift)
  g.expandWithin levels operand shift'

/-- An access expands if the sum of offsets is in range and the operand expands there. -/
theorem readWithin_eq_ok_iff {read : Access} :
    g.readWithin levels operands shift read = .ok out ↔
      ∃ operand shift', operands[read.param]? = some operand ∧ read.offset.add shift = .ok shift' ∧
        g.expandWithin levels operand shift' = .ok out := by
  simp only [readWithin, bind_eq_ok_iff, orRefuse_eq_ok_iff, Offset.lift_eq_ok_iff, Offset.compose]
  constructor
  · intro found
    rcases found with ⟨operand, operandAt, shift', sum, expanded⟩
    exact ⟨operand, shift', operandAt, sum, expanded⟩
  · intro found
    rcases found with ⟨operand, shift', operandAt, sum, expanded⟩
    exact ⟨operand, operandAt, shift', sum, expanded⟩

theorem readWithin_of_add {operand : ValueId} {read : Access}
    (operandAt : operands[read.param]? = some operand) (sum : read.offset.add shift = .ok shift') :
    g.readWithin levels operands shift read = g.expandWithin levels operand shift' := by
  have lifted : Offset.lift (read.offset.compose shift) = .ok shift' :=
    Offset.lift_eq_ok_iff.mpr sum
  rw [readWithin, operandAt, orRefuse_some, ok_bind, lifted, ok_bind]

/-- Reads of values that expand to the same. -/
theorem readWithin_map {f : ValueId → ValueId}
    (same : ∀ u ∈ operands, ∀ shift, g'.expandWithin levels' (f u) shift = g.expandWithin levels u shift) :
    g'.readWithin levels' (operands.map f) shift = g.readWithin levels operands shift := by
  funext read
  rw [readWithin, readWithin, List.getElem?_map, List.length_map]
  cases operandAt : operands[read.param]? with
  | none => rfl
  | some operand =>
    rw [Option.map_some, orRefuse_some, orRefuse_some, ok_bind, ok_bind]
    cases Offset.lift (read.offset.compose shift) with
    | error e => rfl
    | ok shift' => exact same operand (List.mem_of_getElem? operandAt) shift'

/-! ## The three kinds of value -/

theorem definition_of_get? {info : ValueInfo} (found : g.values.get? v = some info) :
    g.definition v = .ok info.definition := by
  rw [definition, value_eq_ok_iff.mpr found, ok_bind, pure_eq_ok]

theorem expandWithin_input (found : g.values.get? v = some ⟨type, .input i⟩) :
    g.expandWithin (levels + 1) v shift = .ok (.read ⟨.input i, shift⟩) := by
  rw [expandWithin, definition_of_get? found, ok_bind]
  rfl

/-- The result of a load stands for a read of the field. -/
theorem Consistent.expandWithin_load (c : g.Consistent) {field : Field}
    (found : g.nodes.get? n = some ⟨.load field type, results⟩) (member : v ∈ results) :
    g.expandWithin (levels + 1) v shift = .ok (.read ⟨.field field, shift⟩) := by
  rcases List.getElem?_of_mem member with ⟨i, resultAt⟩
  rcases c.get?_result found resultAt with ⟨type', infoAt⟩
  rw [expandWithin, definition_of_get? infoAt, ok_bind]
  dsimp only
  rw [kind_of_get? found, ok_bind]
  rfl

/-- A result of an apply stands for the expression that the kernel returns, with the operands in the place of the
parameters. -/
theorem Consistent.expandWithin_apply (c : g.Consistent)
    (found : g.nodes.get? n = some ⟨.apply operands kernel, results⟩)
    (resultAt : results[i]? = some v) (returned : kernel.Returns i type tree) :
    g.expandWithin (levels + 1) v shift = tree.bindM (g.readWithin levels operands shift) := by
  rcases c.get?_result found resultAt with ⟨type', infoAt⟩
  have wf := (c.fits _ _ found).kernel kernel rfl
  rcases returned with ⟨loc, locAt, -, treeEq⟩
  have treeAt : kernel.tree? loc = some tree :=
    (wf.tree?_eq (List.mem_of_getElem? locAt)).trans treeEq
  rw [expandWithin, definition_of_get? infoAt, ok_bind]
  dsimp only
  rw [kind_of_get? found, ok_bind]
  dsimp only
  rw [locAt, orRefuse_some, ok_bind, treeAt, orRefuse_some, ok_bind]
  rfl

/-- Where a value comes from, with what it stands for. -/
inductive Origin (g : Region) (v : ValueId) : Prop
  | input {type : ElementType} {i : Nat} : g.values.get? v = some ⟨type, .input i⟩ → Origin g v
  | load {n : NodeId} {field : Field} {type : ElementType} {results : List ValueId} :
    g.nodes.get? n = some ⟨.load field type, results⟩ → v ∈ results → Origin g v
  | apply {n : NodeId} {operands results : List ValueId} {kernel : Kernel} {i : Nat}
    {type : ElementType} {tree : Expr Access} :
    g.nodes.get? n = some ⟨.apply operands kernel, results⟩ → results[i]? = some v →
    kernel.Returns i type tree → Origin g v

/-- A result of an apply stands for an expression over what its kernel reads. -/
theorem Consistent.exists_returns (c : g.Consistent)
    (found : g.nodes.get? n = some ⟨.apply operands kernel, results⟩)
    (resultAt : results[i]? = some v) : ∃ type tree, kernel.Returns i type tree := by
  have fits := c.fits _ _ found
  rcases fits.results i v resultAt with ⟨type, typeAt, -⟩
  rcases (fits.kernel kernel rfl).exists_returns typeAt with ⟨tree, returned⟩
  exact ⟨type, tree, returned⟩

/-- A value of a consistent region comes from an input, a load or an apply. -/
theorem Consistent.origin (c : g.Consistent) {info : ValueInfo}
    (infoAt : g.values.get? v = some info) : g.Origin v := by
  rcases info with ⟨type, definition⟩
  cases definition with
  | input i => exact .input infoAt
  | result n i =>
    rcases c.defines v _ infoAt with ⟨⟨kind, results⟩, found, resultAt⟩
    cases kind with
    | load field type' => exact .load found (List.mem_of_getElem? resultAt)
    | apply operands kernel =>
      rcases c.exists_returns found resultAt with ⟨type', tree, returned⟩
      exact .apply found resultAt returned

/-- An apply has an operand for every access of its kernel. -/
theorem Consistent.exists_operand (c : g.Consistent)
    (found : g.nodes.get? n = some ⟨.apply operands kernel, results⟩) {read : Access}
    (isAccess : read ∈ kernel.accesses) : ∃ operand, operands[read.param]? = some operand := by
  have fits := c.fits _ _ found
  rcases (fits.kernel kernel rfl).param_at isAccess with ⟨type, paramAt⟩
  rcases exists_left_of_getElem? fits.operands paramAt with ⟨operand, operandAt, -⟩
  exact ⟨operand, operandAt⟩

/-! ## More levels -/

theorem expandWithin_succ (expanded : g.expandWithin levels v shift = .ok out) :
    g.expandWithin (levels + 1) v shift = .ok out := by
  induction levels generalizing v shift out with
  | zero => cases expanded
  | succ levels ih =>
    rw [expandWithin] at expanded ⊢
    rcases bind_eq_ok_iff.mp expanded with ⟨definition, definitionEq, expanded⟩
    rw [definitionEq, ok_bind]
    cases definition with
    | input i => exact expanded
    | result n i =>
      dsimp only at expanded ⊢
      rcases bind_eq_ok_iff.mp expanded with ⟨kind, kindEq, expanded⟩
      rw [kindEq, ok_bind]
      cases kind with
      | load field type => exact expanded
      | apply operands kernel =>
        dsimp only at expanded ⊢
        rcases bind_eq_ok_iff.mp expanded with ⟨loc, locEq, expanded⟩
        rcases bind_eq_ok_iff.mp expanded with ⟨tree, treeEq, expanded⟩
        rw [locEq, ok_bind, treeEq, ok_bind]
        -- The same reads succeed, each by the hypothesis for its operand.
        have wider : tree.bindM (g.readWithin (levels + 1) operands shift) = .ok out := by
          refine Expr.bindM_mono (fun read out' found => ?_)
            (show tree.bindM (g.readWithin levels operands shift) = .ok out from expanded)
          rcases readWithin_eq_ok_iff.mp found with ⟨operand, shift', operandAt, sum, inner⟩
          exact readWithin_eq_ok_iff.mpr ⟨operand, shift', operandAt, sum, ih inner⟩
        exact wider

/-- More levels make no difference to an expansion that succeeds. -/
theorem expandWithin_mono (expanded : g.expandWithin levels v shift = .ok out)
    (le : levels ≤ levels') : g.expandWithin levels' v shift = .ok out := by
  induction le with
  | refl => exact expanded
  | step _ ih => exact expandWithin_succ ih

/-! ## As many levels as nodes -/

/-- The levels that the expansion of a value has at most in an ordered region. -/
def height (g : Region) (v : ValueId) : Nat :=
  match g.producerOf v with
  | none => 1
  | some n => g.order.idxOf n + 2

theorem height_pos : 0 < g.height v := by
  unfold height
  split
  case h_1 => exact Nat.one_pos
  case h_2 => exact Nat.succ_pos _

/-- A result is two levels above the position of its node. -/
theorem height_eq (produced : g.producerOf v = some n) : g.height v = g.order.idxOf n + 2 := by
  rw [height, produced]

theorem Consistent.height_le_length (c : g.Consistent) (v : ValueId) :
    g.height v ≤ g.order.length + 1 := by
  cases produced : g.producerOf v with
  | none =>
    rw [height, produced]
    exact Nat.succ_pos _
  | some n =>
    rcases c.producer_live produced with ⟨node, found, -⟩
    rw [height_eq produced]
    exact Nat.succ_le_succ (List.idxOf_lt_length_of_mem (c.mem_order_of_get? found))

theorem Consistent.height_le_depth (c : g.Consistent) (v : ValueId) : g.height v ≤ g.depth := by
  have le : g.height v ≤ g.order.length + g.values.size + 1 :=
    Nat.le_trans (c.height_le_length v) (by omega)
  exact Nat.le_trans le (Nat.le_mul_of_pos_right _ (Nat.two_pow_pos 192))

/-- An operand has fewer levels than what is computed from it. -/
theorem Consistent.height_lt (c : g.Consistent) (o : g.Ordered) {node : Node}
    (found : g.nodes.get? n = some node) {w : ValueId} (operand : w ∈ node.kind.operands)
    (result : v ∈ node.results) : g.height w < g.height v := by
  rw [height_eq (c.producerOf_result found result)]
  cases produced : g.producerOf w with
  | none =>
    rw [height, produced]
    exact Nat.lt_add_of_pos_left (Nat.succ_pos _)
  | some m =>
    have before := (o n m ⟨node, w, found, operand, produced⟩).2
    rw [height_eq produced]
    omega

/-- What holds of a value when it holds of everything its producer reads, holds of every value. -/
theorem Consistent.value_induction (c : g.Consistent) (o : g.Ordered) {P : ValueId → Prop}
    (step : ∀ v info, g.values.get? v = some info → (∀ n node u, g.nodes.get? n = some node →
      v ∈ node.results → u ∈ node.kind.operands → P u) → P v)
    {info : ValueInfo} (infoAt : g.values.get? v = some info) : P v := by
  induction height : g.height v using Nat.strongRecOn generalizing v info with
  | ind height ih =>
    refine step v info infoAt fun n node u found result operand => ?_
    rcases c.operand_live found operand with ⟨info', infoAt'⟩
    exact ih (g.height u) (height ▸ c.height_lt o found operand result) infoAt' rfl

/-- Two numbers of levels that are enough give the same, be it an expression or a failure. -/
theorem Consistent.expandWithin_enough (c : g.Consistent) (o : g.Ordered) {info : ValueInfo}
    (infoAt : g.values.get? v = some info) (enough : g.height v ≤ levels)
    (enough' : g.height v ≤ levels') :
    g.expandWithin levels v shift = g.expandWithin levels' v shift := by
  induction levels generalizing v shift levels' info with
  | zero => exact absurd height_pos (Nat.not_lt.mpr enough)
  | succ levels ih =>
    cases levels' with
    | zero => exact absurd height_pos (Nat.not_lt.mpr enough')
    | succ levels' =>
    cases c.origin infoAt with
    | input found => rw [expandWithin_input found, expandWithin_input found]
    | load found member => rw [c.expandWithin_load found member, c.expandWithin_load found member]
    | @apply n operands results kernel i type tree found resultAt returned =>
      have same : g.readWithin levels' (operands.map id) shift = g.readWithin levels operands shift := by
        refine readWithin_map fun u operand shift => ?_
        rcases c.operand_live found operand with ⟨info', infoAt'⟩
        have lower := c.height_lt o found operand (List.mem_of_getElem? resultAt)
        exact (ih infoAt' (by omega) (by omega)).symm
      rw [List.map_id] at same
      rw [c.expandWithin_apply found resultAt returned, c.expandWithin_apply found resultAt returned, same]

/-- As many levels as the height of a value are enough for its expansion. -/
theorem Consistent.expandWithin_of_height (c : g.Consistent) (o : g.Ordered) {info : ValueInfo}
    (infoAt : g.values.get? v = some info) (expanded : g.expandWithin levels v shift = .ok out)
    (enough : g.height v ≤ levels') : g.expandWithin levels' v shift = .ok out := by
  have more := Nat.le_max_right levels levels'
  rw [c.expandWithin_enough o infoAt enough (Nat.le_trans enough more)]
  exact expandWithin_mono expanded (Nat.le_max_left levels levels')

/-- In an ordered region the depth is enough. -/
theorem Consistent.expandAt_eq_ok (c : g.Consistent) (o : g.Ordered) {info : ValueInfo}
    (infoAt : g.values.get? v = some info) (expanded : g.expandWithin levels v shift = .ok out) :
    g.expandAt v shift = .ok out :=
  c.expandWithin_of_height o infoAt expanded (c.height_le_depth v)

/-! ## Without levels -/

theorem Consistent.expandAt_eq_succ (c : g.Consistent) (o : g.Ordered) {info : ValueInfo}
    (infoAt : g.values.get? v = some info) :
    g.expandAt v shift = g.expandWithin (g.depth + 1) v shift :=
  c.expandWithin_enough o infoAt (c.height_le_depth v) (Nat.le_succ_of_le (c.height_le_depth v))

theorem Consistent.expandAt_input (c : g.Consistent) (o : g.Ordered)
    (found : g.values.get? v = some ⟨type, .input i⟩) :
    g.expandAt v shift = .ok (.read ⟨.input i, shift⟩) := by
  rw [c.expandAt_eq_succ o found, expandWithin_input found]

/-- The result of a load stands for a read of the field at the given place. -/
theorem Consistent.expandAt_load (c : g.Consistent) (o : g.Ordered) {field : Field}
    (found : g.nodes.get? n = some ⟨.load field type, results⟩) (member : v ∈ results) :
    g.expandAt v shift = .ok (.read ⟨.field field, shift⟩) := by
  rcases List.getElem?_of_mem member with ⟨i, resultAt⟩
  rcases c.get?_result found resultAt with ⟨type', infoAt⟩
  rw [c.expandAt_eq_succ o infoAt, c.expandWithin_load found member]

/-- What a result of an apply expands to is read from what the operands expand to. -/
theorem Consistent.expandAt_apply (c : g.Consistent) (o : g.Ordered)
    (found : g.nodes.get? n = some ⟨.apply operands kernel, results⟩)
    (resultAt : results[i]? = some v) (returned : kernel.Returns i type tree) :
    g.expandAt v shift = tree.bindM (g.readWithin g.depth operands shift) := by
  rcases c.get?_result found resultAt with ⟨type', infoAt⟩
  rw [c.expandAt_eq_succ o infoAt, c.expandWithin_apply found resultAt returned]

/-- A value expands as in another region when its node does the same there with other operands, and these expand as
its operands do. -/
theorem Consistent.expandAt_congr (c : g.Consistent) (o : g.Ordered) (c' : g'.Consistent)
    (o' : g'.Ordered) {f : ValueId → ValueId} {info : ValueInfo} (infoAt : g.values.get? v = some info)
    (infoAt' : g'.values.get? v = some info)
    (produced : ∀ n node, g.nodes.get? n = some node → v ∈ node.results →
      g'.nodes.get? n = some (node.rename f) ∧
        ∀ u ∈ node.kind.operands, ∀ shift, g'.expandAt (f u) shift = g.expandAt u shift) :
    g'.expandAt v shift = g.expandAt v shift := by
  cases c.origin infoAt with
  | input found =>
    have found' := infoAt'.trans (infoAt.symm.trans found)
    rw [c.expandAt_input o found, c'.expandAt_input o' found']
  | load found member =>
    have found' := (produced _ _ found member).1
    rw [c.expandAt_load o found member, c'.expandAt_load o' found' member]
  | @apply n operands results kernel i type tree found resultAt returned =>
    rcases produced n _ found (List.mem_of_getElem? resultAt) with ⟨found', alike⟩
    have reads : g'.readWithin g'.depth (operands.map f) shift = g.readWithin g.depth operands shift :=
      readWithin_map alike
    rw [c.expandAt_apply o found resultAt returned, c'.expandAt_apply o' found' resultAt returned, reads]

/-! ## Regions whose values expand -/

/-- A value expands in place. -/
def Unfolds (g : Region) (v : ValueId) : Prop := ∃ levels out, g.expandWithin levels v .zero = .ok out

/-- Every value that is there expands. -/
def Expandable (g : Region) : Prop :=
  ∀ v info, g.values.get? v = some info → ∃ out, g.expand v = .ok out

theorem Expandable.unfolds (expandable : g.Expandable) {info : ValueInfo}
    (infoAt : g.values.get? v = some info) : g.Unfolds v := by
  rcases expandable v info infoAt with ⟨out, expanded⟩
  exact ⟨g.depth, out, expanded⟩

/-- A region is expandable if each of its values unfolds. -/
theorem Consistent.expandable_of_unfolds (c : g.Consistent) (o : g.Ordered)
    (each : ∀ v info, g.values.get? v = some info → g.Unfolds v) : g.Expandable := by
  intro v info infoAt
  rcases each v info infoAt with ⟨levels, out, expanded⟩
  exact ⟨out, c.expandAt_eq_ok o infoAt expanded⟩

end KernelFusion.Region
