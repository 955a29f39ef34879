import KernelFusion.Proofs.Region.Expansion
import KernelFusion.Proofs.Region.Verification

/-!
# Expansion is total and moves with the shift

In a region that passes its check every value expands at every shift, unless a sum of offsets is out of range on the
way: `expandAt_total`. As many levels as there are nodes, and one for the source, are enough, so the expansion comes
to its end. What it comes to reads fields that are loaded and inputs that there are, and every operator in it has as
many arguments as it takes.

The shift is added to the offsets at the leaves and has no other part in an expansion (`Consistent.expandAt_shifted`):
two expansions of a value differ by the difference of their shifts.
-/

namespace KernelFusion

/-- The cell that is read in the place of a cell at a further shift. -/
def Cell.shifted (shift : Offset) (cell : Cell) : Except Error (Expr Cell) := do
  let offset ← Offset.lift (cell.offset.add shift)
  return .read { cell with offset }

theorem Cell.shifted_of_add {source : Source} {shift offset offset' : Offset}
    (sum : offset.add shift = .ok offset') :
    Cell.shifted shift ⟨source, offset⟩ = .ok (.read ⟨source, offset'⟩) := by
  have lifted : Offset.lift (offset.add shift) = .ok offset' := Offset.lift_eq_ok_iff.mpr sum
  rw [shifted, lifted, ok_bind, pure_eq_ok]

/-- The expression in which a shift is added to the offset of every cell. -/
def Expr.shifted (shift : Offset) (e : Expr Cell) : Except Error (Expr Cell) :=
  e.bindM (Cell.shifted shift)

namespace Region

variable {g : Region} {n : NodeId} {v : ValueId} {shift shift' further : Offset} {levels i : Nat}
  {operands results : List ValueId} {kernel : Kernel} {type : ElementType} {tree : Expr Access}
  {out out' : Expr Cell} {info : ValueInfo} {read : Access}

/-- A source that there is to read: a field that some node loads, or an input. -/
inductive Offers (g : Region) : Source → Prop
  | field {n : NodeId} {field : Field} {type : ElementType} {results : List ValueId} :
    g.nodes.get? n = some ⟨.load field type, results⟩ → Offers g (.field field)
  | input {i : Nat} : i < g.inputs.length → Offers g (.input i)

/-- An expression that can be evaluated: its operators have their arguments, and what it reads is there. -/
structure Closed (g : Region) (out : Expr Cell) : Prop where
  saturated : out.Saturated
  offered : ∀ cell ∈ out.reads, g.Offers cell.source

/-- What reads of closed expressions are put together to is closed. -/
theorem Closed.bindM {f : Access → Except Error (Expr Cell)} (saturated : tree.Saturated)
    (replaced : tree.bindM f = .ok out)
    (each : ∀ read ∈ tree.reads, ∀ out', f read = .ok out' → g.Closed out') : g.Closed out where
  saturated := saturated.bindM replaced fun read member out' found => (each read member out' found).saturated
  offered cell member := by
    rcases Expr.exists_of_mem_reads_bindM replaced member with ⟨read, isRead, out', found, member'⟩
    exact (each read isRead out' found).offered cell member'

theorem closed_read {cell : Cell} (offered : g.Offers cell.source) : g.Closed (.read cell) where
  saturated := .read
  offered cell' member := by
    rw [Expr.reads, List.mem_singleton] at member
    exact member ▸ offered

/-! ## What an expansion comes to -/

/-- An expansion that comes to a closed expression, or fails by a sum of offsets out of range. -/
def Settles (g : Region) : Except Error (Expr Cell) → Prop
  | .ok out => g.Closed out
  | .error failure => failure = .arithmetic .addition

/-- A read settles when the operand does that it reads. -/
theorem readWithin_settles {operand : ValueId} (operandAt : operands[read.param]? = some operand)
    (settles : ∀ shift, g.Settles (g.expandWithin levels operand shift)) :
    g.Settles (g.readWithin levels operands shift read) := by
  rw [readWithin, operandAt, orRefuse_some, ok_bind, Offset.compose]
  cases sum : read.offset.add shift with
  | error fault =>
    rw [Offset.eq_addition_of_add_eq_error sum]
    exact rfl
  | ok shift' => exact settles shift'

/-- Every value settles, at every shift. -/
theorem Consistent.expandAt_settles (c : g.Consistent) (o : g.Ordered)
    (infoAt : g.values.get? v = some info) (shift : Offset) : g.Settles (g.expandAt v shift) := by
  refine c.value_induction o (P := fun v => ∀ shift, g.Settles (g.expandAt v shift))
    (fun v info infoAt ih shift => ?_) infoAt shift
  cases c.origin infoAt with
  | @input type i found =>
    rw [c.expandAt_input o found]
    have inputAt : g.inputs[i]? = some v := c.defines v _ found
    exact closed_read (.input (List.getElem?_eq_some_iff.mp inputAt).1)
  | load found member =>
    rw [c.expandAt_load o found member]
    exact closed_read (.field found)
  | @apply n operands results kernel i type tree found resultAt returned =>
    rw [c.expandAt_apply o found resultAt returned]
    have wf := (c.fits _ _ found).kernel kernel rfl
    have reads (read : Access) (needed : read ∈ tree.reads) :
        g.Settles (g.readWithin g.depth operands shift read) := by
      rcases c.exists_operand found (returned.mem_accesses wf needed) with ⟨operand, operandAt⟩
      exact readWithin_settles operandAt
        (ih n _ operand found (List.mem_of_getElem? resultAt) (List.mem_of_getElem? operandAt))
    cases expanded : tree.bindM (g.readWithin g.depth operands shift) with
    | ok out =>
      refine Closed.bindM (wf.saturated returned) expanded fun read needed out' found => ?_
      have settled := reads read needed
      rwa [found] at settled
    | error failure =>
      rcases Expr.exists_of_bindM_eq_error expanded with ⟨read, needed, failed⟩
      have settled := reads read needed
      rwa [failed] at settled

/-! ## Another shift -/

/-- An expansion at a further shift is the expansion with the shift added at its leaves. -/
theorem Consistent.expandAt_shifted (c : g.Consistent) (o : g.Ordered)
    (infoAt : g.values.get? v = some info) (sum : shift.add further = .ok shift')
    (expanded : g.expandAt v shift = .ok out) (expanded' : g.expandAt v shift' = .ok out') :
    out.shifted further = .ok out' := by
  refine c.value_induction o (P := fun v => ∀ shift shift' out out', shift.add further = .ok shift' →
    g.expandAt v shift = .ok out → g.expandAt v shift' = .ok out' → out.shifted further = .ok out')
    (fun v info infoAt ih shift shift' out out' sum expanded expanded' => ?_) infoAt
    shift shift' out out' sum expanded expanded'
  cases c.origin infoAt with
  | input found =>
    rw [c.expandAt_input o found, Except.ok.injEq] at expanded expanded'
    rw [← expanded, ← expanded', Expr.shifted, Expr.bindM, Cell.shifted_of_add sum]
  | load found member =>
    rw [c.expandAt_load o found member, Except.ok.injEq] at expanded expanded'
    rw [← expanded, ← expanded', Expr.shifted, Expr.bindM, Cell.shifted_of_add sum]
  | @apply n operands results kernel i type tree found resultAt returned =>
    rw [c.expandAt_apply o found resultAt returned] at expanded expanded'
    refine Expr.bindM_of_bindM (fun read mid end' first whole => ?_) expanded expanded'
    rcases readWithin_eq_ok_iff.mp first with ⟨operand, near, operandAt, sumNear, first⟩
    rcases readWithin_eq_ok_iff.mp whole with ⟨operand', far, operandAt', sumFar, whole⟩
    rw [operandAt, Option.some.injEq] at operandAt'
    subst operandAt'
    exact ih n _ operand found (List.mem_of_getElem? resultAt) (List.mem_of_getElem? operandAt) near far
      mid end' (Offset.add_regroup sumNear sum sumFar) first whole

/-! ## The whole of it -/

/-- A value of a region that passes its check has an expansion, unless a sum of offsets is out of range, and the
expansion at a shift is the one in place with the shift added at its leaves. -/
theorem expandAt_total (built : g.Built) (verified : g.verify = .ok ())
    (infoAt : g.values.get? v = some info) :
    (∀ shift, (∃ out, g.expandAt v shift = .ok out ∧ g.Closed out) ∨
        g.expandAt v shift = .error (.arithmetic .addition)) ∧
      (∀ shift levels, g.order.length + 1 ≤ levels →
        g.expandWithin levels v shift = g.expandAt v shift) ∧
      ∀ shift out out', g.expand v = .ok out → g.expandAt v shift = .ok out' →
        out.shifted shift = .ok out' := by
  have c := built.consistent
  have o : g.Ordered := c.verify_eq_ok_iff.mp verified
  refine ⟨fun shift => ?_, fun shift levels enough => ?_, fun shift out out' expanded expanded' => ?_⟩
  · have settles := c.expandAt_settles o infoAt shift
    cases expanded : g.expandAt v shift with
    | ok out =>
      rw [expanded] at settles
      exact .inl ⟨out, rfl, settles⟩
    | error failure =>
      rw [expanded] at settles
      exact .inr (congrArg Except.error settles)
  · exact c.expandWithin_enough o infoAt (Nat.le_trans (c.height_le_length v) enough) (c.height_le_depth v)
  · exact c.expandAt_shifted o infoAt (Offset.zero_add shift) expanded expanded'

/-- Two applies in a row add their offsets, and a shift of the value shifts the whole expression. -/
theorem expandAt_total_tandem :
    ∃ g, g = tandem [⟨1, 0, 0⟩] [⟨0, 1, 0⟩] ∧ g.Built ∧ g.verify = .ok () ∧
      g.values.get? ⟨2, 0⟩ = some ⟨.float64, .result ⟨2, 0⟩ 0⟩ ∧
      g.expand ⟨2, 0⟩ = .ok (.read ⟨.field ⟨"u"⟩, ⟨1, 1, 0⟩⟩) ∧
      g.Closed (.read ⟨.field ⟨"u"⟩, ⟨1, 1, 0⟩⟩) ∧
      g.expandAt ⟨2, 0⟩ ⟨0, 0, 5⟩ = .ok (.read ⟨.field ⟨"u"⟩, ⟨1, 1, 5⟩⟩) ∧
      (Expr.read ⟨.field ⟨"u"⟩, ⟨1, 1, 0⟩⟩).shifted ⟨0, 0, 5⟩ =
        .ok (.read ⟨.field ⟨"u"⟩, ⟨1, 1, 5⟩⟩) := by
  have built := built_tandem [⟨1, 0, 0⟩] [⟨0, 1, 0⟩]
  have verified : (tandem [⟨1, 0, 0⟩] [⟨0, 1, 0⟩]).verify = .ok () := rfl
  have infoAt : (tandem [⟨1, 0, 0⟩] [⟨0, 1, 0⟩]).values.get? ⟨2, 0⟩ =
      some ⟨.float64, .result ⟨2, 0⟩ 0⟩ := rfl
  rcases expandAt_total built verified infoAt with ⟨total, levels, shifted⟩
  have expanded := (levels .zero 4 (by decide)).symm
  have expanded' := (levels ⟨0, 0, 5⟩ 4 (by decide)).symm
  refine ⟨_, rfl, built, verified, infoAt, expanded, ?_, expanded', shifted _ _ _ expanded expanded'⟩
  rcases total .zero with ⟨out, same, closed⟩ | failed
  · cases expanded.symm.trans same
    exact closed
  · cases expanded.symm.trans failed

end Region

end KernelFusion
