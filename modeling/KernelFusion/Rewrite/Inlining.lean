import KernelFusion.Kernel.Draft
import KernelFusion.Rewrite.Rule

/-!
# Producer inlining

An apply whose results nothing reads but one consumer is merged into that consumer. Each access of the
consumer to a result of the producer at some offset becomes a copy of the producer's kernel whose own
accesses are moved by that offset. The merged apply reads what the consumer read besides the producer,
followed by what the producer read; consumer and producer go.
-/

namespace KernelFusion

/-- What a parameter of the consumer becomes in the merged kernel. -/
inductive Binding where
  /-- A parameter of the merged kernel. -/
  | param (index : Nat)
  /-- A result of the producer, computed where it is read. -/
  | inlined (result : Nat)
deriving DecidableEq

/-- What the parameters of the consumer become, the kept ones numbered from `index`, by its operands and
the results of the producer. -/
def bindingsOf (produced : List ValueId) (index : Nat) : List ValueId → List Binding
  | [] => []
  | operand :: rest =>
    match produced.idxOf? operand with
    | some result => .inlined result :: bindingsOf produced index rest
    | none => .param index :: bindingsOf produced (index + 1) rest

/-- Copies the producer's kernel into a draft with its accesses moved by `offset`, its parameters being
the ones at the given places, and gives the local for one of its results. -/
def inlineResult (producer : NodeId) (kernel : Kernel) (places : List Nat) (result : Nat)
    (offset : Offset) : Drafting Local := do
  let locals ← Draft.splice kernel fun read => do
    let param ← orRefuse places[read.param]? (.accessUnknownParameter read.param places.length)
    let offset' ← Offset.lift (read.offset.compose offset)
    Draft.access ⟨param, offset'⟩
  orRefuse locals[result]? (.returnArityMismatch producer locals.length (result + 1))

/-- The kernel of the consumer with the producer's kernel at each access to a result of it. -/
def mergedKernel (consumerKernel : Kernel) (bindings : List Binding) (producer : NodeId)
    (producerKernel : Kernel) (places : List Nat) (params : List ElementType) :
    Except Error Kernel :=
  Kernel.build params <|
    Draft.splice consumerKernel fun read => do
      match ← orRefuse bindings[read.param]?
          (.accessUnknownParameter read.param bindings.length) with
      | .param index => Draft.access ⟨index, read.offset⟩
      | .inlined result => inlineResult producer producerKernel places result read.offset

namespace Region

/-- The first apply, in operand order, whose results nothing reads but `consumer`. -/
def exclusiveProducer (g : Region) (consumer : NodeId) :
    List ValueId → Except Error (Option NodeId)
  | [] => return none
  | operand :: rest => do
    match ← g.applyProducer operand with
    | none => g.exclusiveProducer consumer rest
    | some producer =>
      if (← g.results producer).any fun result => g.usedOutside result consumer then
        g.exclusiveProducer consumer rest
      else return some producer

/-- Merges an apply that only `consumer` reads into it. -/
def inlineProducer (consumer : NodeId) : Edit Outcome := do
  let g ← get
  match ← g.kind consumer with
  | .load .. => return .noMatch
  | .apply operands kernel =>
    match ← g.exclusiveProducer consumer operands with
    | none => return .noMatch
    | some producer => do
      let produced ← g.results producer
      let kept := operands.filter fun operand => !produced.contains operand
      let (operands', places) := placeOperands kept (← g.operands producer)
      let producerKernel ← g.kernel producer
      let params ← g.valueTypes operands'
      let kernel' ← mergedKernel kernel (bindingsOf produced 0 operands) producer producerKernel
        places params
      let merged ← insertApply (.before consumer) operands' kernel'
      let results ← (← get).results merged
      replaceNode consumer results
      eraseNode producer
      return .rewritten [merged]

end Region

end KernelFusion
