import KernelFusion.Literal
import KernelFusion.Offset

/-!
# Kernels

A `Kernel` is what an apply node computes at every grid point: a straight-line list of
instructions over typed parameters. Parameters are only ever read by an access at a constant
offset, and the list ends in a return whose operands become the results of the node. A local is the
place of an instruction in the list and stands for its result.

Kernels are made by finishing a `Draft`, which checks each instruction as it is added; the
definitions here read any list of steps.
-/

namespace KernelFusion

/-- The place of an instruction, standing for its result. -/
abbrev Local := Nat

/-- A read of a parameter at an offset from the current grid point. -/
@[ext]
structure Access where
  param : Nat
  offset : Offset
deriving DecidableEq

/-- An instruction of a kernel. -/
inductive Inst where
  | access (read : Access)
  | const (literal : Literal)
  | compute (op : Operator) (args : List Local)
  /-- The end of a kernel; its operands are the results. -/
  | ret (operands : List Local)
deriving DecidableEq

namespace Inst

/-- Whether an instruction ends a kernel. -/
def isReturn : Inst → Bool
  | .ret _ => true
  | _ => false

/-- Whether two instructions differ at most in literals that stand for the same value. -/
def agrees : Inst → Inst → Bool
  | .const a, .const b => a.agrees b
  | a, b => a == b

end Inst

/-- An instruction with the type of its result; a return has none. -/
@[ext]
structure Step where
  inst : Inst
  type : Option ElementType
deriving DecidableEq

/-- Whether two steps have the same type and instructions that agree. -/
def Step.agrees (a b : Step) : Bool := a.inst.agrees b.inst && a.type == b.type

/-- A pointwise computation over typed parameters. -/
@[ext]
structure Kernel where
  params : List ElementType
  steps : List Step
deriving DecidableEq

namespace Kernel

/-- The kernel that passes its one parameter through. -/
def identity (type : ElementType) : Kernel where
  params := [type]
  steps := [⟨.access ⟨0, .zero⟩, some type⟩, ⟨.ret [0], none⟩]

/-- The instructions in order, the return included. -/
def insts (kernel : Kernel) : List Inst := kernel.steps.map Step.inst

/-- The operands of the return. -/
def returns (kernel : Kernel) : List Local :=
  match kernel.steps.getLast? with
  | some ⟨.ret operands, _⟩ => operands
  | _ => []

/-- The type of a local, if it has a result. -/
def localType (kernel : Kernel) (loc : Local) : Option ElementType :=
  kernel.steps[loc]?.bind Step.type

/-- The types of the returned locals, which are those of the owning node's results. -/
def resultTypes (kernel : Kernel) : List ElementType :=
  kernel.returns.filterMap kernel.localType

/-- The accesses in order. -/
def accesses (kernel : Kernel) : List Access :=
  kernel.steps.filterMap fun step =>
    match step.inst with
    | .access read => some read
    | _ => none

/-- Whether some access reads a parameter. -/
def readsParam (kernel : Kernel) (param : Nat) : Bool :=
  kernel.accesses.any (·.param == param)

/-- Whether two kernels differ at most in literals that stand for the same value. -/
def agrees (a b : Kernel) : Bool :=
  a.params == b.params && a.steps.length == b.steps.length &&
    (a.steps.zip b.steps).all fun p => p.1.agrees p.2

end Kernel

end KernelFusion
