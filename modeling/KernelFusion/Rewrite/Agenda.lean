import KernelFusion.Region.Basic

/-!
# The agenda

The nodes that wait for a visit, first come, first served. A node that waits already is not added again,
and next to the queue the agenda keeps the nodes that wait as a set, which `Agenda.mark` asks.

Several nodes at once go on the agenda in program order (`Agenda.markLive`), whatever order they are given
in: they are sorted by their positions, which `Region.inProgramOrder` looks up.
-/

namespace KernelFusion

/-! ## Given nodes in program order -/

/-- A node with its position in program order. -/
abbrev Located := Nat × NodeId

namespace Located

/-- Whether a node does not come behind another: by position, then by handle. -/
def notBehind (x y : Located) : Bool := ((compare x.1 y.1).then (compare x.2 y.2)).isLE

/-- Puts a node before the first one that it does not come behind. -/
def insertSorted (x : Located) : List Located → List Located
  | [] => [x]
  | y :: rest => if x.notBehind y then x :: y :: rest else y :: insertSorted x rest

/-- Sorts nodes by position; what is there more than once comes to stand together. -/
def sort (xs : List Located) : List Located := xs.foldr insertSorted []

end Located

namespace Region

/-- Those of the given nodes that the region has, with their positions. -/
def located (g : Region) (ns : List NodeId) : Except Error (List Located) :=
  (ns.filter g.contains).mapM fun n => return (← g.position n, n)

/-- Those of the given nodes that the region has, each once, by their positions. -/
def inProgramOrder (g : Region) (ns : List NodeId) : Except Error (List NodeId) :=
  return (Located.sort (← g.located ns)).eraseReps.map Prod.snd

end Region

/-! ## The nodes that wait -/

/-- The nodes that wait for a visit. -/
@[ext]
structure Agenda where
  queue : List NodeId := []
  waiting : List NodeId := []
deriving DecidableEq

namespace Agenda

/-- The agenda on which no node waits. -/
def empty : Agenda := {}

instance : Inhabited Agenda := ⟨empty⟩

/-- Adds a node at the end unless it waits already. -/
def mark (a : Agenda) (n : NodeId) : Agenda :=
  if n ∈ a.waiting then a else ⟨a.queue ++ [n], n :: a.waiting⟩

/-- Adds several nodes, each unless it waits already. -/
def markEach (a : Agenda) (ns : List NodeId) : Agenda := ns.foldl mark a

/-- Adds those of the given nodes that the region has, by their positions. -/
def markLive (a : Agenda) (g : Region) (ns : List NodeId) : Except Error Agenda :=
  return a.markEach (← g.inProgramOrder ns)

/-- Adds those of the given nodes that stand in program order, in that order. It is what `markLive` comes to
where the positions agree with the program order. -/
def markAll (a : Agenda) (g : Region) (ns : List NodeId) : Agenda :=
  a.markEach (g.order.filter fun n => n ∈ ns)

/-- Takes the first node off. -/
def next? (a : Agenda) : Option (NodeId × Agenda) :=
  match a.queue with
  | [] => none
  | n :: rest => some (n, ⟨rest, a.waiting.erase n⟩)

end Agenda

end KernelFusion
