import KernelFusion.Expr.Basic
import KernelFusion.Kernel.Basic

/-!
# Unfolding a kernel

Each local of a kernel stands for an expression over accesses. `treesOf` computes the expressions
of all instructions in one pass, each from those of the earlier ones, so what a local stands for does
not depend on the instructions after it. A return has no expression, and neither has a computation
that refers to a local without one.
-/

namespace KernelFusion

/-- The expression of an instruction, given those of the instructions before it. -/
def Inst.tree? (earlier : List (Option (Expr Access))) : Inst → Option (Expr Access)
  | .access read => some (.read read)
  | .const literal => some (.const literal)
  | .compute op args => (args.mapM fun arg => earlier[arg]?.join).map (.compute op)
  | .ret _ => none

/-- The expressions of steps that follow instructions with the given expressions. -/
def treesAfter : List (Option (Expr Access)) → List Step → List (Option (Expr Access))
  | earlier, [] => earlier
  | earlier, step :: rest => treesAfter (earlier ++ [step.inst.tree? earlier]) rest

/-- The expressions of a list of steps. -/
def treesOf (steps : List Step) : List (Option (Expr Access)) := treesAfter [] steps

/-- The expression that a local of a list of steps stands for. -/
def treeAt? (steps : List Step) (loc : Local) : Option (Expr Access) := (treesOf steps)[loc]?.join

/-- The expression that a local of a kernel stands for. -/
def Kernel.tree? (kernel : Kernel) (loc : Local) : Option (Expr Access) :=
  treeAt? kernel.steps loc

end KernelFusion
