import KernelFusion.Arena.Handle
import KernelFusion.Element
import KernelFusion.Offset

/-!
# Why an operation is refused

One constructor per cause, with the data that identify it, and one text per cause. Operations on
kernels, regions and rewrites all fail with an `Error`; an operation that changes a state also says,
by its type, which state a failure leaves behind.
-/

namespace KernelFusion

/-- Why an operation on a kernel or a region is refused. -/
inductive Error where
  /-- The handle names no node. -/
  | staleNode (node : NodeId)
  /-- The handle names no value. -/
  | staleValue (value : ValueId)
  /-- The node is a load. -/
  | notAnApply (node : NodeId)
  /-- Uses are to be redirected to a value of another type. -/
  | replaceTypeMismatch (source : ValueId) (sourceType : ElementType) (target : ValueId)
      (targetType : ElementType)
  /-- A node is to be replaced by too few or too many values. -/
  | replacementCountMismatch (node : NodeId) (expected actual : Nat)
  /-- A node is to be erased while a result of it is still used. -/
  | eraseLiveNode (node : NodeId) (value : ValueId) (uses : Nat)
  /-- An apply has too few or too many operands for its kernel. -/
  | parameterCountMismatch (operands params : Nat)
  /-- An operand has another type than its parameter. -/
  | parameterTypeMismatch (index : Nat) (operand param : ElementType)
  /-- An access reads a parameter that the kernel does not have. -/
  | accessUnknownParameter (param params : Nat)
  /-- An instruction refers to a local at or after its own place. -/
  | undefinedLocal (inst loc : Nat)
  /-- A local refers to an instruction without a result. -/
  | localWithoutResult (loc : Nat)
  /-- A kernel does not end in a return. -/
  | missingReturn
  /-- An operator has too few or too many arguments. -/
  | computeArity (op : Operator) (expected actual : Nat)
  /-- A node has another number of results than its kernel returns. -/
  | returnArityMismatch (node : NodeId) (returned results : Nat)
  /-- A result has another type than its kernel returns. -/
  | resultTypeMismatch (node : NodeId) (index : Nat) (result returned : ElementType)
  /-- An operand is produced at or after the node that reads it. -/
  | useBeforeDef (node : NodeId) (value : ValueId) (producer : NodeId)
  /-- A new node would stand at or before the producer of one of its operands. -/
  | operandAfterInsertionPoint (value : ValueId) (producer : NodeId)
  /-- The use list of a value disagrees with the sites that read it. -/
  | defUseMismatch (value : ValueId)
  /-- The program order disagrees with the nodes. -/
  | orderMismatch (ordered live : Nat)
  /-- A value is read in order to compute itself, at the same offset, so it has no expansion. -/
  | circular (value : ValueId)
  /-- Arithmetic on displacements failed. -/
  | arithmetic (fault : Offset.Fault)
deriving DecidableEq

namespace Error

/-- The text of an error. -/
def message : Error → String
  | .staleNode node => "node " ++ node.text ++ " is not live in this graph"
  | .staleValue value => "value " ++ value.text ++ " is not live in this graph"
  | .notAnApply node => "node " ++ node.text ++ " is not an apply node"
  | .replaceTypeMismatch source sourceType target targetType =>
    "cannot replace " ++ source.text ++ " (" ++ sourceType.text ++ ") with " ++ target.text ++
      " (" ++ targetType.text ++ ")"
  | .replacementCountMismatch node expected actual =>
    "node " ++ node.text ++ " has " ++ toString expected ++ " results but " ++ toString actual ++
      " replacements were given"
  | .eraseLiveNode node value uses =>
    "cannot erase node " ++ node.text ++ ": result " ++ value.text ++ " still has " ++
      toString uses ++ " use(s)"
  | .parameterCountMismatch operands params =>
    "apply has " ++ toString operands ++ " operands but body declares " ++ toString params ++
      " parameters"
  | .parameterTypeMismatch index operand param =>
    "operand " ++ toString index ++ " has type " ++ operand.text ++
      " but body parameter has type " ++ param.text
  | .accessUnknownParameter param params =>
    "access reads parameter " ++ toString param ++ " but body has " ++ toString params ++
      " parameters"
  | .undefinedLocal inst loc =>
    "instruction " ++ toString inst ++ " references local " ++ toString loc ++
      " which is not defined before it"
  | .localWithoutResult loc =>
    "local " ++ toString loc ++ " refers to an instruction without a result"
  | .missingReturn => "body must end with exactly one return"
  | .computeArity op expected actual =>
    op.text ++ " expects " ++ toString expected ++ " argument(s), got " ++ toString actual
  | .returnArityMismatch node returned results =>
    "node " ++ node.text ++ " returns " ++ toString returned ++ " values but declares " ++
      toString results ++ " results"
  | .resultTypeMismatch node index result returned =>
    "node " ++ node.text ++ " result " ++ toString index ++ " has type " ++ result.text ++
      " but body returns " ++ returned.text
  | .useBeforeDef node value producer =>
    "node " ++ node.text ++ " reads " ++ value.text ++ " which is produced by " ++ producer.text ++
      " later in program order"
  | .operandAfterInsertionPoint value producer =>
    "operand " ++ value.text ++ " is produced by " ++ producer.text ++
      ", which does not precede the insertion point"
  | .defUseMismatch value =>
    "def-use list of " ++ value.text ++ " is inconsistent with its references"
  | .orderMismatch ordered live =>
    "program order lists " ++ toString ordered ++ " nodes but the arena holds " ++ toString live
  | .circular value => "value " ++ value.text ++ " depends on itself"
  | .arithmetic fault => fault.message

end Error

/-! ## Failing with an error -/

/-- A fault of offset arithmetic, as an error. -/
def Offset.lift {α : Type} : Except Offset.Fault α → Except Error α
  | .ok x => .ok x
  | .error fault => .error (.arithmetic fault)

/-- Computations that may fail take part in computations on a state, which a failure leaves as it is. -/
scoped instance monadLiftExcept {ε σ : Type} : MonadLift (Except ε) (EStateM ε σ) where
  monadLift
    | .ok x => fun s => .ok x s
    | .error e => fun s => .error e s

/-- What an optional value holds, or else an error. -/
def orRefuse {α : Type} (x : Option α) (e : Error) : Except Error α :=
  match x with
  | some a => .ok a
  | none => .error e

end KernelFusion
