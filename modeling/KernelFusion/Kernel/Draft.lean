import KernelFusion.Error
import KernelFusion.Kernel.Basic

/-!
# Drafts of kernels

A `Draft` is a kernel under construction. Instructions are added at its end by operations that
check them: an access must read a parameter that exists, a computation must have as many arguments
as its operator takes, and every local must name an earlier instruction with a result. A failed
operation leaves the draft as it was, unless it is made of several of these.

`Draft.splice` copies the instructions of a finished kernel into a draft, with each access replaced
as the caller decides.
-/

namespace KernelFusion

/-- A kernel under construction. -/
@[ext]
structure Draft where
  params : List ElementType
  steps : List Step := []
deriving DecidableEq

/-- A computation on a draft that may fail; a failure keeps what was added before it. -/
abbrev Drafting := EStateM Error Draft

namespace Draft

/-! ## Checking locals -/

/-- The type of a local that an instruction at place `inst` may refer to. -/
def localType (draft : Draft) (inst : Nat) (loc : Local) : Except Error ElementType :=
  if loc < inst then
    orRefuse (draft.steps[loc]?.bind Step.type) (.localWithoutResult loc)
  else .error (.undefinedLocal inst loc)

/-- The types of several locals, in order. -/
def localTypes (draft : Draft) (inst : Nat) (locs : List Local) : Except Error (List ElementType) :=
  locs.mapM (draft.localType inst)

/-! ## Adding instructions -/

/-- Adds an instruction with a result of the given type. -/
def push (inst : Inst) (type : ElementType) : Drafting Local := fun draft =>
  .ok draft.steps.length { draft with steps := draft.steps ++ [⟨inst, some type⟩] }

/-- Adds an access; its result has the type of the parameter. -/
def access (read : Access) : Drafting Local := do
  let draft ← get
  let type ← orRefuse draft.params[read.param]?
    (.accessUnknownParameter read.param draft.params.length)
  push (.access read) type

/-- Adds a literal; its result has the literal's type. -/
def constant (literal : Literal) : Drafting Local :=
  push (.const literal) literal.type

/-- Adds a computation; its result has the type of the first argument. -/
def compute (op : Operator) (args : List Local) : Drafting Local := do
  unless args.length = op.arity do
    throw (.computeArity op op.arity args.length)
  let draft ← get
  match ← draft.localTypes draft.steps.length args with
  | [] => throw (.computeArity op op.arity 0)
  | type :: _ => push (.compute op args) type

/-- Ends a draft with a return of the given locals. -/
def finish (draft : Draft) (returns : List Local) : Except Error Kernel := do
  let _ ← draft.localTypes draft.steps.length returns
  return ⟨draft.params, draft.steps ++ [⟨.ret returns, none⟩]⟩

/-! ## Copying a kernel into a draft -/

/-- The copies of several locals of the kernel being spliced, whose first instructions have the
given copies. -/
def copiesOf (copies locs : List Local) : Except Error (List Local) :=
  locs.mapM fun loc => orRefuse copies[loc]? (.undefinedLocal copies.length loc)

section Splice

variable {m : Type → Type} [Monad m] [MonadLiftT Drafting m]

/-- Copies the remaining steps of a kernel whose first instructions have the given copies, up to the
return. -/
def spliceSteps (onAccess : Access → m Local) : List Local → List Step → m (List Local)
  | _, [] => (throw .missingReturn : Drafting (List Local))
  | copies, step :: rest =>
    match step.inst with
    | .access read => do
      let loc ← onAccess read
      spliceSteps onAccess (copies ++ [loc]) rest
    | .const literal => do
      let loc ← constant literal
      spliceSteps onAccess (copies ++ [loc]) rest
    | .compute op args => do
      let args' ← (copiesOf copies args : Drafting (List Local))
      let loc ← compute op args'
      spliceSteps onAccess (copies ++ [loc]) rest
    | .ret operands => (copiesOf copies operands : Drafting (List Local))

/-- Copies every instruction of `kernel` but the return into the draft. An access is not copied:
`onAccess` decides what it becomes and gives the local that stands for it; it may keep a state of its
own beside the draft. The result is the list of locals that stand for the returned ones. -/
def splice (kernel : Kernel) (onAccess : Access → m Local) : m (List Local) :=
  spliceSteps onAccess [] kernel.steps

end Splice

end Draft

/-- The kernel over `params` whose instructions are added by `program`, and which returns the locals
that `program` gives. -/
def Kernel.build (params : List ElementType) (program : Drafting (List Local)) :
    Except Error Kernel :=
  match program.run { params } with
  | .ok returns draft => draft.finish returns
  | .error e _ => .error e

end KernelFusion
