import KernelFusion.Kernel.Draft
import KernelFusion.Rewrite.Rule

/-!
# Output rerouting

A consumer whose only apply producer is also read elsewhere cannot absorb it. Instead the producer is
copied, and the consumer is rebuilt over the copy with the results that escape as results of its own:
each escaping result is read in place and returned behind the consumer's own results. All readers of
the producer then read the rebuilt consumer, the producer goes, and its copy has one reader.

The rebuilt consumer stands right behind the copy, where the producer stood. So the rule asks that no
operand of the consumer is produced after the producer.
-/

namespace KernelFusion

namespace Region

/-- The applies that produce operands, each once, in operand order. -/
def applyProducers (g : Region) (operands : List ValueId) : Except Error (List NodeId) :=
  return ((← operands.mapM g.applyProducer).filterMap id).eraseDups

/-- Whether every operand that is produced by a node is produced at position `place` or before. -/
def producedBy (g : Region) (place : Nat) : List ValueId → Except Error Bool
  | [] => return true
  | operand :: rest => do
    match ← g.producer operand with
    | none => g.producedBy place rest
    | some producer =>
      if place < (← g.position producer) then return false else g.producedBy place rest

end Region

/-- What the readers of a producer read after rerouting: for each of its results the forwarded value, if
it is one that escapes, and else the copy. -/
def forwardedResults : List (ValueId × Bool) → List ValueId → List ValueId
  | (_, true) :: results, value :: forwarded => value :: forwardedResults results forwarded
  | (copy, _) :: results, forwarded => copy :: forwardedResults results forwarded
  | [], _ => []

namespace Region

/-- Rebuilds a kernel over more parameters, with the parameters at the given places returned, as read in
place, behind its own results. -/
def forwardingKernel (kernel : Kernel) (params : List ElementType) (places : List Nat) :
    Except Error Kernel :=
  Kernel.build params do
    let own ← Draft.splice kernel Draft.access
    let extra ← places.mapM fun place => Draft.access ⟨place, .zero⟩
    return own ++ extra

/-- Routes the escaping results of a consumer's only apply producer through the consumer. -/
def rerouteOutputs (consumer : NodeId) : Edit Outcome := do
  let g ← get
  match ← g.kind consumer with
  | .load .. => return .noMatch
  | .apply operands kernel =>
    match ← g.applyProducers operands with
    | [producer] => do
      let place ← g.position producer
      unless ← g.producedBy place operands do return .noMatch
      let produced ← g.results producer
      let escapes := produced.map fun result => g.usedOutside result consumer
      unless escapes.contains true do return .noMatch
      let own := (← g.results consumer).length
      let copy ← insertCopy (.after producer) producer
      let copies ← (← get).results copy
      let escaping := ((copies.zip escapes).filter (·.2)).map Prod.fst
      let (operands', places) := placeOperands (substituteAll produced copies operands) escaping
      let params ← (← get).valueTypes operands'
      let kernel' ← forwardingKernel kernel params places
      let rebuilt ← insertApply (.after copy) operands' kernel'
      let results ← (← get).results rebuilt
      replaceNode consumer (results.take own)
      replaceNode producer (forwardedResults (copies.zip escapes) (results.drop own))
      return .rewritten [copy, rebuilt]
    | _ => return .noMatch

end Region

end KernelFusion
