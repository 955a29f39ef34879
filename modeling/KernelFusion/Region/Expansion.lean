import KernelFusion.Expr.Cell
import KernelFusion.Kernel.Unfold
import KernelFusion.Region.Basic

/-!
# Expansion

Expanding a value follows every access back to a field or a region input and adds up the offsets on
the way. The result is what the value denotes: two regions that compute the same thing expand their
outputs to the same expressions, however the work is split among nodes.

A value expands level by level, one level per node on the way to the sources. In a region whose
operands are produced before they are read there are no more levels than nodes. In any region a chain
of reads that is longer than `Region.depth` reads some value twice at one and the same shift, so it
has no end, and the value has no expansion.
-/

namespace KernelFusion

namespace Region

/-- A bound on the levels of an expansion: the number of values times the number of shifts. -/
def depth (g : Region) : Nat := (g.order.length + g.values.size + 1) * Nat.pow 2 192

/-- Expands a value as read at `shift`, down to the given number of levels. -/
def expandWithin (g : Region) : Nat → ValueId → Offset → Except Error (Expr Cell)
  | 0, v, _ => .error (.circular v)
  | levels + 1, v, shift => do
    match ← g.definition v with
    | .input index => return .read ⟨.input index, shift⟩
    | .result n index =>
      match ← g.kind n with
      | .load field _ => return .read ⟨.field field, shift⟩
      | .apply operands kernel =>
        let loc ← orRefuse kernel.returns[index]?
          (.returnArityMismatch n kernel.returns.length (index + 1))
        let tree ← orRefuse (kernel.tree? loc) (.localWithoutResult loc)
        tree.bindM fun read => do
          let operand ← orRefuse operands[read.param]?
            (.accessUnknownParameter read.param operands.length)
          let shift' ← Offset.lift (read.offset.compose shift)
          g.expandWithin levels operand shift'

/-- Expands a value as read at `shift`. -/
def expandAt (g : Region) (v : ValueId) (shift : Offset) : Except Error (Expr Cell) :=
  g.expandWithin g.depth v shift

/-- Expands a value as read in place. -/
def expand (g : Region) (v : ValueId) : Except Error (Expr Cell) := g.expandAt v .zero

/-- Expands every output, in order. -/
def expandOutputs (g : Region) : Except Error (List (Expr Cell)) := g.outputs.mapM g.expand

end Region

end KernelFusion
