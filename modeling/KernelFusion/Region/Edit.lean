import KernelFusion.Region.Basic

/-!
# Edits of a region

Every change to a region is an `Edit`: it gives a result or an error, and in both cases the region it
leaves behind. Each single edit checks all it needs before it changes anything. `Region.replaceNode` is
made of several edits: when it is refused at its last step, the erasure, the uses it has redirected
stay redirected.

Edits keep nodes, values, uses, program order and positions in step with one another; the changes
proper (`insertNode`, `removeNode`, `moveUses`) are total functions on regions.
-/

namespace KernelFusion

/-- A computation on a region that may fail; a failure keeps what was changed before it. -/
abbrev Edit := EStateM Error Region

/-- Where a new node goes in program order. -/
inductive InsertPoint where
  | before (anchor : NodeId)
  | after (anchor : NodeId)
  | last
deriving DecidableEq

namespace Region

/-! ## Checks -/

/-- The position that a new node will have. -/
def resolve (g : Region) : InsertPoint → Except Error Nat
  | .before anchor => g.position anchor
  | .after anchor => return (← g.position anchor) + 1
  | .last => return g.order.length

/-- Checks that an operand can be read through a parameter by a node at position `place`. -/
def checkOperand (g : Region) (place index : Nat) (operand : ValueId) (param : ElementType) :
    Except Error Unit := do
  let type ← g.valueType operand
  unless type = param do
    throw (.parameterTypeMismatch index type param)
  match ← g.producer operand with
  | none => return
  | some producer =>
    unless (← g.position producer) < place do
      throw (.operandAfterInsertionPoint operand producer)

/-- Checks operands against parameters, the first of them being operand number `index`. -/
def checkOperands (g : Region) (place index : Nat) :
    List ValueId → List ElementType → Except Error Unit
  | operand :: operands, param :: params => do
    g.checkOperand place index operand param
    g.checkOperands place (index + 1) operands params
  | _, _ => return

/-- Checks that one value can stand for another. -/
def checkReplacement (g : Region) (source target : ValueId) : Except Error Unit := do
  let sourceType ← g.valueType source
  let targetType ← g.valueType target
  unless sourceType = targetType do
    throw (.replaceTypeMismatch source sourceType target targetType)

/-- Checks that nothing reads the results of a node. -/
def checkUnused (g : Region) (n : NodeId) : List ValueId → Except Error Unit
  | [] => return
  | value :: rest => do
    unless (g.usesOf value).length = 0 do
      throw (.eraseLiveNode n value (g.usesOf value).length)
    g.checkUnused n rest

/-! ## Changes -/

/-- Renews the positions of a list of nodes that stand in program order from position `place` on. -/
def reindex (positions : Table NodeId Nat) (place : Nat) : List NodeId → Table NodeId Nat
  | [] => positions
  | n :: rest => reindex (positions.insert n place) (place + 1) rest

/-- Adds the results of a node, numbered from `index`, and gives their handles. -/
def addResults (values : Arena .value ValueInfo) (n : NodeId) (index : Nat) :
    List ElementType → List ValueId × Arena .value ValueInfo
  | [] => ([], values)
  | type :: rest =>
    let (handles, values') := addResults (values.insert ⟨type, .result n index⟩) n (index + 1) rest
    (values.fresh :: handles, values')

/-- Puts a node with fresh results at a position; its handle is `g.nodes.fresh`. -/
def insertNode (g : Region) (place : Nat) (kind : NodeKind) (types : List ElementType) : Region :=
  let n := g.nodes.fresh
  let (results, values) := addResults g.values n 0 types
  let order := g.order.insertIdx place n
  { g with
    nodes := g.nodes.insert ⟨kind, results⟩
    values := values
    uses := g.uses.addOperands n 0 kind.operands
    order := order
    positions := reindex g.positions place (order.drop place) }

/-- Takes a node away from a position, together with its results and the uses it makes. -/
def removeNode (g : Region) (place : Nat) (n : NodeId) (node : Node) : Region :=
  let order := g.order.eraseIdx place
  { g with
    nodes := g.nodes.erase n
    values := node.results.foldl Arena.erase g.values
    uses := g.uses.removeOperands n 0 node.kind.operands
    order := order
    positions := reindex (g.positions.erase n) place (order.drop place) }

/-- Makes a site read `target`. -/
def setSite (g : Region) (target : ValueId) : Use → Region
  | .operand n index =>
    { g with nodes := g.nodes.modify n fun node =>
        { node with kind := node.kind.setOperand index target } }
  | .output index => { g with outputs := g.outputs.set index target }

/-- Makes every site that reads `source` read `target`. -/
def moveUses (g : Region) (source target : ValueId) : Region :=
  (g.usesOf source).foldl (fun g site => g.setSite target site)
    { g with uses := g.uses.move source target }

/-! ## Edits -/

/-- Adds an input. -/
def addInput (type : ElementType) : Edit ValueId := fun g =>
  .ok g.values.fresh
    { g with
      values := g.values.insert ⟨type, .input g.inputs.length⟩
      inputs := g.inputs ++ [g.values.fresh] }

/-- Makes a value an output and gives the place of the output. -/
def addOutput (value : ValueId) : Edit Nat := do
  let g ← get
  let _ ← g.value value
  set { g with
    outputs := g.outputs ++ [value]
    uses := g.uses.add value (.output g.outputs.length) }
  return g.outputs.length

/-- Inserts a load of a field. -/
def insertLoad (point : InsertPoint) (field : Field) (type : ElementType) : Edit NodeId := do
  let g ← get
  let place ← g.resolve point
  set (g.insertNode place (.load field type) [type])
  return g.nodes.fresh

/-- Inserts an apply. The operands must agree with the parameters of the kernel in number and type,
and each must be produced before the insertion point. -/
def insertApply (point : InsertPoint) (operands : List ValueId) (kernel : Kernel) :
    Edit NodeId := do
  let g ← get
  let place ← g.resolve point
  unless operands.length = kernel.params.length do
    throw (.parameterCountMismatch operands.length kernel.params.length)
  g.checkOperands place 0 operands kernel.params
  set (g.insertNode place (.apply operands kernel) kernel.resultTypes)
  return g.nodes.fresh

/-- Inserts a node that does what `n` does, with results of its own. -/
def insertCopy (point : InsertPoint) (n : NodeId) : Edit NodeId := do
  let g ← get
  match ← g.kind n with
  | .load field type => insertLoad point field type
  | .apply operands kernel => insertApply point operands kernel

/-- Makes every use of one value a use of another of the same type. -/
def redirectUses (source target : ValueId) : Edit Unit := do
  let g ← get
  g.checkReplacement source target
  unless source = target do
    set (g.moveUses source target)

/-- Erases a node whose results nothing reads. -/
def eraseNode (n : NodeId) : Edit Unit := do
  let g ← get
  let node ← g.node n
  g.checkUnused n node.results
  let place ← g.position n
  set (g.removeNode place n node)

/-- Redirects the results of a node to other values, place by place, and erases the node. -/
def replaceNode (n : NodeId) (values : List ValueId) : Edit Unit := do
  let g ← get
  let results ← g.results n
  unless results.length = values.length do
    throw (.replacementCountMismatch n results.length values.length)
  (results.zip values).forM fun (source, target) =>
    (g.checkReplacement source target : Except Error Unit)
  (results.zip values).forM fun (source, target) => redirectUses source target
  eraseNode n

end Region

end KernelFusion
