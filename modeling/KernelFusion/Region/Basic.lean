import KernelFusion.Arena.Basic
import KernelFusion.Error
import KernelFusion.Region.UseIndex

/-!
# Regions

A `Region` is a dataflow graph with a total program order: inputs, nodes that load fields or apply
kernels, and outputs. Next to the nodes and values themselves it keeps three things that could be
recomputed from them and are kept in step by every edit: the position of each node in the program
order, the sites that read each value, and the definition of each value.

This module has the questions one can ask of a region. A question about a handle that names nothing is
refused.
-/

namespace KernelFusion

/-- A dataflow graph of loads and applies in program order. -/
@[ext]
structure Region where
  nodes : Arena .node Node := .empty
  values : Arena .value ValueInfo := .empty
  uses : UseIndex := .empty
  order : List NodeId := []
  positions : Table NodeId Nat := .empty
  inputs : List ValueId := []
  outputs : List ValueId := []
deriving DecidableEq

namespace Region

/-- The region without inputs, nodes and outputs. -/
def empty : Region := {}

instance : Inhabited Region := ⟨empty⟩

/-! ## Nodes -/

/-- The node that a handle names. -/
def node (g : Region) (n : NodeId) : Except Error Node := orRefuse (g.nodes.get? n) (.staleNode n)

/-- Whether a handle names a node. -/
def contains (g : Region) (n : NodeId) : Bool := g.nodes.contains n

/-- What a node does. -/
def kind (g : Region) (n : NodeId) : Except Error NodeKind := return (← g.node n).kind

/-- The operands of a node. -/
def operands (g : Region) (n : NodeId) : Except Error (List ValueId) := return (← g.kind n).operands

/-- The results of a node. -/
def results (g : Region) (n : NodeId) : Except Error (List ValueId) := return (← g.node n).results

/-- The result of a node at a place. -/
def result (g : Region) (n : NodeId) (index : Nat) : Except Error ValueId := do
  let results ← g.results n
  orRefuse results[index]? (.returnArityMismatch n results.length (index + 1))

/-- The kernel of an apply. -/
def kernel (g : Region) (n : NodeId) : Except Error Kernel := do
  orRefuse (← g.kind n).kernel? (.notAnApply n)

/-- The number of nodes of a kind. -/
def count (g : Region) (tag : NodeTag) : Nat :=
  g.nodes.toList.countP fun e => e.2.kind.tag == tag

/-! ## Program order -/

/-- The position of a node in program order. -/
def position (g : Region) (n : NodeId) : Except Error Nat :=
  orRefuse (g.positions.find? n) (.staleNode n)

/-- Whether one node stands strictly before another. -/
def isBefore (g : Region) (a b : NodeId) : Except Error Bool := do
  let i ← g.position a
  let j ← g.position b
  return i < j

/-! ## Values -/

/-- What is known of the value that a handle names. -/
def value (g : Region) (v : ValueId) : Except Error ValueInfo :=
  orRefuse (g.values.get? v) (.staleValue v)

/-- The type of a value. -/
def valueType (g : Region) (v : ValueId) : Except Error ElementType := return (← g.value v).type

/-- Where a value comes from. -/
def definition (g : Region) (v : ValueId) : Except Error Definition :=
  return (← g.value v).definition

/-- The node that produces a value, unless it is an input. -/
def producer (g : Region) (v : ValueId) : Except Error (Option NodeId) :=
  return (← g.definition v).node?

/-- The apply that produces a value, if one does. -/
def applyProducer (g : Region) (v : ValueId) : Except Error (Option NodeId) := do
  match ← g.producer v with
  | none => return none
  | some n => return if (← g.kind n).tag = .apply then some n else none

/-! ## Uses -/

/-- The sites that read a value, none if the handle names nothing. -/
def usesOf (g : Region) (v : ValueId) : List Use := g.uses.sites v

/-- The nodes that read a value, each once, in the order of its uses. -/
def readers (g : Region) (v : ValueId) : List NodeId :=
  ((g.usesOf v).filterMap Use.node?).eraseDups

/-- The nodes that read some result of a node, each once, in result order and then in the order of
uses. -/
def resultReaders (g : Region) (n : NodeId) : Except Error (List NodeId) :=
  return ((← g.results n).flatMap g.readers).eraseDups

/-- Whether something other than `n` reads a value; an output counts. -/
def usedOutside (g : Region) (v : ValueId) (n : NodeId) : Bool :=
  (g.usesOf v).any fun site => site.node? != some n

end Region

end KernelFusion
