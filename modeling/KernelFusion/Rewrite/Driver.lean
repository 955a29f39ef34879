import KernelFusion.Region.Check
import KernelFusion.Rewrite.Agenda
import KernelFusion.Rewrite.Pattern

/-!
# Rewriting to a fixpoint

A `Driver` visits the nodes of an agenda one by one. A visited node is offered to the patterns for its
kind, in order, until one rewrites; then the neighbourhood of what the rewrite brought in goes on the
agenda. When the agenda is empty, a sweep puts all nodes on it; the run ends with a sweep in which nothing
was rewritten, so that no pattern matches anywhere.

A run can be endless for patterns that never come to rest, so it has a budget of visits and of sweeps.
-/

namespace KernelFusion

/-- What a run has done so far. -/
@[ext]
structure Tally where
  /-- Rewrites by root introduction. -/
  roots : Nat := 0
  /-- Rewrites by output rerouting. -/
  rerouted : Nat := 0
  /-- Rewrites by producer inlining. -/
  inlined : Nat := 0
  /-- Visits of nodes that the region has. -/
  visited : Nat := 0
  /-- Sweeps over the whole region, the last one included. -/
  sweeps : Nat := 0
deriving DecidableEq

namespace Tally

/-- The number of rewrites. -/
def rewrites (t : Tally) : Nat := t.roots + t.rerouted + t.inlined

/-- Counts a rewrite. -/
def record (t : Tally) : Rule → Tally
  | .rootIntroduction => { t with roots := t.roots + 1 }
  | .outputRerouting => { t with rerouted := t.rerouted + 1 }
  | .producerInlining => { t with inlined := t.inlined + 1 }

end Tally

/-- Why a run stops before its end. -/
inductive Failure where
  /-- An operation was refused. -/
  | refused (cause : Error)
  /-- The region did not pass the check after a rewrite. -/
  | invalidated (rule : Rule) (cause : Error)
  /-- The budget of visits or sweeps is used up. -/
  | exhausted
deriving DecidableEq

/-- The text of a failure; a fault of arithmetic speaks for itself. -/
def Failure.message : Failure → String
  | .refused (.arithmetic fault) => fault.message
  | .refused cause => "graph error: " ++ cause.message
  | .invalidated rule cause =>
    "invariant violated after " ++ rule.text ++ " rewrite: " ++ cause.message
  | .exhausted => "rewriting did not come to an end"

/-- A region that is being rewritten, with the state of the patterns and of the run. -/
@[ext]
structure Session (σ : Type) where
  region : Region
  state : σ
  agenda : Agenda := .empty
  tally : Tally := {}
deriving DecidableEq

/-- A part of a run; a failure keeps what was done before it. -/
abbrev Run (σ : Type) := EStateM Failure (Session σ)

namespace Region

/-- The nodes around `n`: itself, its readers, the producers of its operands and their readers. -/
def neighbourhood (g : Region) (n : NodeId) : Except Error (List NodeId) := do
  let readers ← g.resultReaders n
  let operands ← g.operands n
  let around ← operands.mapM fun operand => do
    match ← g.producer operand with
    | none => return []
    | some producer => return producer :: (← g.resultReaders producer)
  return n :: readers ++ around.flatten

end Region

/-- Patterns to offer nodes to, and whether to check the region after each rewrite. -/
structure Driver (σ : Type) where
  patterns : PatternSet σ
  verify : Bool := false

namespace Driver

variable {σ : Type}

/-! ## One visit -/

/-- Gives the result of a computation that may fail, a failure being a refusal. -/
def require {α : Type} (x : Except Error α) : Run σ α := fun s =>
  match x with
  | .ok a => .ok a s
  | .error e => .error (.refused e) s

/-- Offers a node to one pattern. -/
def attempt (p : Pattern σ) (n : NodeId) : Run σ Outcome := fun s =>
  match (p.attempt n).run (s.region, s.state) with
  | .ok outcome (g, state) => .ok outcome { s with region := g, state := state }
  | .error e (g, state) => .error (.refused e) { s with region := g, state := state }

/-- Offers a node to patterns in order up to the first that rewrites, and gives that one with the nodes
it brought in. -/
def offer (n : NodeId) : List (Pattern σ) → Run σ (Option (Pattern σ × List NodeId))
  | [] => return none
  | p :: rest => do
    match ← attempt p n with
    | .noMatch => offer n rest
    | .rewritten created => return some (p, created)

/-- Puts the neighbourhoods of those of the given nodes that the region has on the agenda. -/
def markAffected (created : List NodeId) : Run σ Unit := do
  let s ← get
  let live := created.filter s.region.contains
  let affected ← require (live.mapM s.region.neighbourhood)
  let agenda ← require (s.agenda.markLive s.region affected.flatten)
  set { s with agenda := agenda }

/-- Checks the region after a rewrite. -/
def checkAfter (rule : Rule) : Run σ Unit := fun s =>
  match s.region.verify with
  | .ok _ => .ok () s
  | .error e => .error (.invalidated rule e) s

/-- Visits the first node of the agenda. The result is `none` when no node waits, and otherwise whether
something was rewritten; a node that the region no longer has is passed over. -/
def step (d : Driver σ) : Run σ (Option Bool) := do
  let s ← get
  match s.agenda.next? with
  | none => return none
  | some (n, agenda) => do
    set { s with agenda := agenda }
    unless s.region.contains n do return some false
    modify fun s => { s with tally := { s.tally with visited := s.tally.visited + 1 } }
    let kind ← require (s.region.kind n)
    match ← offer n (d.patterns.forTag kind.tag) with
    | none => return some false
    | some (p, created) => do
      modify fun s => { s with tally := s.tally.record p.rule }
      if d.verify then checkAfter p.rule
      markAffected created
      return some true

/-! ## Runs -/

/-- Visits nodes until none waits, at most as many as the budget allows. -/
def drain (d : Driver σ) : Nat → Run σ Unit
  | 0 => throw .exhausted
  | budget + 1 => do
    match ← d.step with
    | none => return
    | some _ => d.drain budget

/-- Sweeps over the region until a sweep rewrites nothing. Sweeps, and the visits of each, are at most as
many as the budget allows. -/
def sweep (d : Driver σ) (visits : Nat) : Nat → Run σ Tally
  | 0 => throw .exhausted
  | budget + 1 => do
    let s ← get
    set { s with tally := { s.tally with sweeps := s.tally.sweeps + 1 } }
    let agenda ← require (s.agenda.markLive s.region s.region.order)
    modify fun s => { s with agenda := agenda }
    d.drain visits
    let s' ← get
    if s'.tally.rewrites = s.tally.rewrites then return s'.tally else d.sweep visits budget

/-- More visits than the three rules can ask for in a region of this size, and more than can be made
before a limited pattern has used up a count that fits a machine word. -/
def budget (g : Region) (a : Agenda) : Nat :=
  Nat.pow 2 64 * Nat.pow (g.order.length + g.outputs.length + a.queue.length + 2) 8

/-- Runs to a fixpoint from the agenda and tally of the session. -/
def run (d : Driver σ) : Run σ Tally := do
  let s ← get
  let budget := budget s.region s.agenda
  d.sweep budget budget

end Driver

end KernelFusion
