import KernelFusion.Arena.Handle
import KernelFusion.Kernel.Basic

/-!
# Nodes, values and uses

What a region stores under its handles. A node either loads a field or applies a kernel to operands;
either way it has results, which are values. A value knows its type and where it is defined. A use is
a site that reads a value: an operand of an apply, or an output of the region.
-/

namespace KernelFusion

/-- What a node does. -/
inductive NodeKind where
  /-- Reads an external field; one result, no operands. -/
  | load (field : Field) (type : ElementType)
  /-- Evaluates a kernel over the operands at every grid point. -/
  | apply (operands : List ValueId) (kernel : Kernel)
deriving DecidableEq

/-- The kinds of node, without what they hold. -/
inductive NodeTag where
  | load
  | apply
deriving DecidableEq, Ord

/-- The name of a kind of node. -/
def NodeTag.text : NodeTag → String
  | .load => "Load"
  | .apply => "Apply"

namespace NodeKind

/-- The kind of node. -/
def tag : NodeKind → NodeTag
  | .load .. => .load
  | .apply .. => .apply

/-- The operands in order; a load has none. -/
def operands : NodeKind → List ValueId
  | .load .. => []
  | .apply operands _ => operands

/-- The kernel of an apply. -/
def kernel? : NodeKind → Option Kernel
  | .load .. => none
  | .apply _ kernel => some kernel

/-- Replaces the operand at a place; a load, or a place beyond the operands, stays as it is. -/
def setOperand (index : Nat) (value : ValueId) : NodeKind → NodeKind
  | .load field type => .load field type
  | .apply operands kernel => .apply (operands.set index value) kernel

/-- Whether two kinds differ at most in literals that stand for the same value. -/
def agrees : NodeKind → NodeKind → Bool
  | .load field type, .load field' type' => field == field' && type == type'
  | .apply operands kernel, .apply operands' kernel' =>
    operands == operands' && kernel.agrees kernel'
  | _, _ => false

end NodeKind

/-- A node with the handles of its results. -/
@[ext]
structure Node where
  kind : NodeKind
  results : List ValueId
deriving DecidableEq

/-- Whether two nodes have the same results and kinds that agree. -/
def Node.agrees (a b : Node) : Bool := a.kind.agrees b.kind && a.results == b.results

/-- Where a value comes from. -/
inductive Definition where
  /-- An input of the region. -/
  | input (index : Nat)
  /-- A result of a node. -/
  | result (node : NodeId) (index : Nat)
deriving DecidableEq

/-- The node that defines a value, unless it is an input. -/
def Definition.node? : Definition → Option NodeId
  | .input _ => none
  | .result node _ => some node

/-- What is known of a value. -/
@[ext]
structure ValueInfo where
  type : ElementType
  definition : Definition
deriving DecidableEq

/-- A site that reads a value. -/
inductive Use where
  /-- An operand of an apply. -/
  | operand (node : NodeId) (index : Nat)
  /-- An output of the region. -/
  | output (index : Nat)
deriving DecidableEq, Ord

/-- The node that a use belongs to, unless it is an output. -/
def Use.node? : Use → Option NodeId
  | .operand node _ => some node
  | .output _ => none

end KernelFusion
