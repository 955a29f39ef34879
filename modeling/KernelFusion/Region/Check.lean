import KernelFusion.Region.Basic

/-!
# Checking a region

`Region.verify` checks everything that a region promises: the program order lists each node once and
the positions agree with it; every result is defined by its node; every apply agrees with its kernel in
operands and results; operands are produced strictly before they are read; and the use lists hold
exactly the sites that read each value. The first thing found wrong is the error.
-/

namespace KernelFusion

namespace Region

/-! ## The sites of a region, from its nodes and outputs -/

/-- The operands of a node as sites, each with the value it reads, numbered from `index`. -/
def operandSites (n : NodeId) (index : Nat) : List ValueId → List (ValueId × Use)
  | [] => []
  | operand :: rest => (operand, .operand n index) :: operandSites n (index + 1) rest

/-- The outputs as sites, each with the value it reads, numbered from `index`. -/
def outputSites (index : Nat) : List ValueId → List (ValueId × Use)
  | [] => []
  | output :: rest => (output, .output index) :: outputSites (index + 1) rest

/-- The sites of a node. -/
def nodeSites (g : Region) (n : NodeId) : List (ValueId × Use) :=
  match g.nodes.get? n with
  | some node => operandSites n 0 node.kind.operands
  | none => []

/-- Every site of the region with the value it reads: operands in program order, then outputs. -/
def allSites (g : Region) : List (ValueId × Use) :=
  g.order.flatMap g.nodeSites ++ outputSites 0 g.outputs

/-- The sites that read a value, found by going through the nodes and outputs. -/
def sitesReading (g : Region) (v : ValueId) : List Use :=
  g.allSites.filterMap fun site => if site.1 = v then some site.2 else none

/-! ## The parts of the check -/

/-- Checks that the results of a node, numbered from `index`, are defined by it. -/
def checkResults (g : Region) (n : NodeId) (index : Nat) : List ValueId → Except Error Unit
  | [] => return
  | result :: rest => do
    unless (← g.definition result) = .result n index do
      throw (.defUseMismatch result)
    g.checkResults n (index + 1) rest

/-- Checks an operand of the node at position `place` against its parameter. -/
def checkRead (g : Region) (place : Nat) (n : NodeId) (index : Nat) (operand : ValueId)
    (param : ElementType) : Except Error Unit := do
  let type ← g.valueType operand
  unless type = param do
    throw (.parameterTypeMismatch index type param)
  match ← g.producer operand with
  | none => return
  | some producer =>
    unless (← g.position producer) < place do
      throw (.useBeforeDef n operand producer)

/-- Checks the operands of a node, numbered from `index`, against the parameters of its kernel. -/
def checkReads (g : Region) (place : Nat) (n : NodeId) (index : Nat) :
    List ValueId → List ElementType → Except Error Unit
  | operand :: operands, param :: params => do
    g.checkRead place n index operand param
    g.checkReads place n (index + 1) operands params
  | _, _ => return

/-- Checks the types of the results of a node, numbered from `index`, against those its kernel
returns. -/
def checkReturned (g : Region) (n : NodeId) (index : Nat) :
    List ValueId → List ElementType → Except Error Unit
  | result :: results, returned :: types => do
    let type ← g.valueType result
    unless type = returned do
      throw (.resultTypeMismatch n index type returned)
    g.checkReturned n (index + 1) results types
  | _, _ => return

/-- Checks the node at position `place`. -/
def checkNode (g : Region) (place : Nat) (n : NodeId) : Except Error Unit := do
  let node ← g.node n
  unless g.positions.find? n = some place do
    throw (.orderMismatch g.order.length g.nodes.size)
  g.checkResults n 0 node.results
  match node.kind with
  | .load .. =>
    unless node.results.length = 1 do
      throw (.returnArityMismatch n 1 node.results.length)
  | .apply operands kernel => do
    unless operands.length = kernel.params.length do
      throw (.parameterCountMismatch operands.length kernel.params.length)
    g.checkReads place n 0 operands kernel.params
    let returned := kernel.resultTypes
    unless returned.length = node.results.length do
      throw (.returnArityMismatch n returned.length node.results.length)
    g.checkReturned n 0 node.results returned

/-- Checks nodes that stand in program order from position `place` on. -/
def checkNodes (g : Region) (place : Nat) : List NodeId → Except Error Unit
  | [] => return
  | n :: rest => do
    g.checkNode place n
    g.checkNodes (place + 1) rest

/-- Checks that the use list of a value holds the sites that read it, in any order. -/
def checkUses (g : Region) (v : ValueId) : Except Error Unit :=
  unless (g.usesOf v).isPerm (g.sitesReading v) do
    throw (.defUseMismatch v)

/-! ## The check -/

/-- Checks everything that a region promises. Use lists have no order among themselves: where several are wrong, the
error names the value of one of them, here of the first in the table. -/
def verify (g : Region) : Except Error Unit := do
  unless g.order.length = g.nodes.size ∧ g.positions.size = g.nodes.size do
    throw (.orderMismatch g.order.length g.nodes.size)
  g.checkNodes 0 g.order
  g.outputs.forM fun output => do
    let _ ← g.value output
  g.uses.keys.forM g.checkUses
  (g.allSites.map Prod.fst).forM g.checkUses

end Region

end KernelFusion
