import KernelFusion.Region.Edit

/-!
# Rewrite rules and their outcomes

The three ways to bring kernels together, by name, and what an attempt to rewrite at a node can come
to. A rule looks at a node, its operands and its readers; where its conditions do not hold it answers
`Outcome.noMatch` and changes nothing.
-/

namespace KernelFusion

/-- The rewrite rules. -/
inductive Rule where
  /-- A load with several readers gets a single one, which passes it on. -/
  | rootIntroduction
  /-- A producer's results reach all their readers through one consumer. -/
  | outputRerouting
  /-- A producer with a single consumer is merged into it. -/
  | producerInlining
deriving DecidableEq

/-- The name of a rule. -/
def Rule.text : Rule → String
  | .rootIntroduction => "root_introduction"
  | .outputRerouting => "output_rerouting"
  | .producerInlining => "producer_inlining"

/-- What an attempt to rewrite comes to. -/
inductive Outcome where
  | noMatch
  /-- The region was rewritten; `created` are the nodes that came in. -/
  | rewritten (created : List NodeId)
deriving DecidableEq

namespace Region

/-- The types of a list of values. -/
def valueTypes (g : Region) (values : List ValueId) : Except Error (List ElementType) :=
  values.mapM g.valueType

end Region

/-! ## Operand lists -/

/-- Puts values among the operands of a kernel: one that is an operand already keeps its place, another
goes to the end. Gives the operands with the place of each value. -/
def placeOperands (operands : List ValueId) : List ValueId → List ValueId × List Nat
  | [] => (operands, [])
  | value :: rest =>
    match operands.idxOf? value with
    | some place =>
      let (operands', places) := placeOperands operands rest
      (operands', place :: places)
    | none =>
      let (operands', places) := placeOperands (operands ++ [value]) rest
      (operands', operands.length :: places)

/-- Replaces each value that stands in `sources` by the one at the same place of `targets`. -/
def substituteAll (sources targets values : List ValueId) : List ValueId :=
  values.map fun value => ((sources.zip targets).lookup value).getD value

end KernelFusion
