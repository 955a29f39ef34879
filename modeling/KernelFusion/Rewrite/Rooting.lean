import KernelFusion.Rewrite.Rule

/-!
# Root introduction

A load that several applies read is copied, and the copy is read by a new apply alone, the root, which
passes it through. The root stands right before the earliest of the former readers and takes over all
uses of the load, which then goes. Afterwards the field is loaded once and read once, and the former
readers share the result of an apply.
-/

namespace KernelFusion

namespace Region

/-- The node that comes first in program order among `n` and the given ones. -/
def earliest (g : Region) (n : NodeId) : List NodeId → Except Error NodeId
  | [] => return n
  | m :: rest => do
    if ← g.isBefore m n then g.earliest m rest else g.earliest n rest

/-- Gives a load with several readers a single one. -/
def introduceRoot (load : NodeId) : Edit Outcome := do
  let g ← get
  match ← g.kind load with
  | .apply .. => return .noMatch
  | .load _ type =>
    match ← g.results load with
    | [] => return .noMatch
    | output :: _ =>
      match g.readers output with
      | first :: second :: rest => do
        let anchor ← g.earliest first (second :: rest)
        let copy ← insertCopy (.before load) load
        let copied ← (← get).result copy 0
        let root ← insertApply (.before anchor) [copied] (.identity type)
        let shared ← (← get).result root 0
        replaceNode load [shared]
        return .rewritten [copy, root]
      | _ => return .noMatch

end Region

end KernelFusion
