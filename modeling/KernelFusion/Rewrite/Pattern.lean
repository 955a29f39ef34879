import KernelFusion.Rewrite.Inlining
import KernelFusion.Rewrite.Rerouting
import KernelFusion.Rewrite.Rooting

/-!
# Patterns and their order

A `Pattern` is a rewrite that is offered nodes of one kind; its benefit decides when. Patterns may keep
a state of their own beside the region, of a type `σ` that all patterns of a set share. The three rules
need none.

A `PatternSet` holds patterns by falling benefit, and patterns of equal benefit in the order in which
they were added.
-/

namespace KernelFusion

/-- A rewrite that is offered nodes of one kind. -/
structure Pattern (σ : Type) where
  rule : Rule
  benefit : Nat
  root : NodeTag
  attempt : NodeId → EStateM Error (Region × σ) Outcome

namespace Pattern

variable {σ : Type}

/-- An edit as a rewrite that leaves the state of the patterns alone. -/
def ofEdit (edit : Edit Outcome) : EStateM Error (Region × σ) Outcome := fun (g, s) =>
  match edit.run g with
  | .ok outcome g' => .ok outcome (g', s)
  | .error e g' => .error e (g', s)

/-- The name of a pattern is that of its rule. -/
def name (p : Pattern σ) : String := p.rule.text

end Pattern

namespace Rule

/-- Applies a rule at a node. -/
def apply : Rule → NodeId → Edit Outcome
  | .rootIntroduction => Region.introduceRoot
  | .outputRerouting => Region.rerouteOutputs
  | .producerInlining => Region.inlineProducer

/-- Merging comes before rerouting, which makes merges possible. -/
def benefit : Rule → Nat
  | .rootIntroduction => 1
  | .outputRerouting => 2
  | .producerInlining => 3

/-- The kind of node that a rule rewrites. -/
def root : Rule → NodeTag
  | .rootIntroduction => .load
  | .outputRerouting | .producerInlining => .apply

/-- A rule as a pattern. -/
def pattern {σ : Type} (rule : Rule) : Pattern σ where
  rule := rule
  benefit := rule.benefit
  root := rule.root
  attempt n := Pattern.ofEdit (rule.apply n)

end Rule

/-- How many elements at the front of a list have a property that all behind them lack. The search asks the
element in the middle and goes on in one half, so it finds this place only in a list that has one. -/
def partitionPoint {α : Type} (holds : α → Bool) (xs : List α) : Nat :=
  match half : xs.drop (xs.length / 2) with
  | [] => 0
  | middle :: behind =>
    if holds middle then xs.length / 2 + 1 + partitionPoint holds behind
    else partitionPoint holds (xs.take (xs.length / 2))
termination_by xs.length
decreasing_by
  · have lengths := congrArg List.length half
    rw [List.length_drop, List.length_cons] at lengths
    omega
  · have lengths := congrArg List.length half
    rw [List.length_drop, List.length_cons] at lengths
    rw [List.length_take]
    omega

/-- Patterns by falling benefit. -/
structure PatternSet (σ : Type) where
  patterns : List (Pattern σ) := []

namespace PatternSet

variable {σ : Type}

/-- The set without patterns. -/
def empty : PatternSet σ := {}

/-- Adds a pattern behind those of at least its benefit. -/
def push (set : PatternSet σ) (p : Pattern σ) : PatternSet σ :=
  ⟨set.patterns.insertIdx (partitionPoint (fun q => p.benefit ≤ q.benefit) set.patterns) p⟩

/-- The patterns for nodes of a kind, in order. -/
def forTag (set : PatternSet σ) (tag : NodeTag) : List (Pattern σ) :=
  set.patterns.filter (·.root == tag)

/-- The number of patterns. -/
def size (set : PatternSet σ) : Nat := set.patterns.length

/-- Whether there are no patterns. -/
def isEmpty (set : PatternSet σ) : Bool := set.patterns.isEmpty

/-- The names of the patterns in order, such as `["output_rerouting", "root_introduction"]`. -/
def text (set : PatternSet σ) : String :=
  "[" ++ ", ".intercalate (set.patterns.map fun p => "\"" ++ p.name ++ "\"") ++ "]"

end PatternSet

end KernelFusion
