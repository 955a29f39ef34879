import KernelFusion.Proofs.Fusion.Worklist

/-!
# Where fusion ends

When fusion succeeds, none of the rules that are on matches anywhere (`Driver.quiet_of_sweep`). With all three on, this
can be said without the rules: `Region.Settled` is how a region looks in which none of them matches
(`Region.Sound.settled_iff`).

Fusion of such a region is one sweep, which visits the nodes in program order, each of them once, and leaves
everything as it is (`Driver.sweep_of_quiet`). So fusion is idempotent.
-/

namespace KernelFusion

/-! ## A region in which no rule matches -/

namespace Region

variable {g : Region} {n : NodeId} {v : ValueId} {node : Node}

/-- There is nothing left to share, to route or to merge. -/
structure Settled (g : Region) : Prop where
  /-- The result of a load is read by one apply at most. -/
  loads : ∀ n node v, g.nodes.get? n = some node → node.kind.tag = .load → v ∈ node.results →
    ∀ a i b j, Use.operand a i ∈ g.usesOf v → Use.operand b j ∈ g.usesOf v → a = b
  /-- The uses of an apply are not all operands of a single other node. -/
  applies : ∀ p node, g.nodes.get? p = some node → node.kind.tag = .apply →
    (∃ v ∈ node.results, g.usesOf v ≠ []) →
      ∀ n, n ≠ p → ∃ v ∈ node.results, ∃ site ∈ g.usesOf v, ∀ i, site ≠ .operand n i
  /-- An apply that reads a single apply also reads a node that stands behind it. -/
  consumers : ∀ n node p, g.nodes.get? n = some node →
    (∀ q, (∃ v ∈ node.kind.operands, g.applyProducerOf v = some q) ↔ q = p) →
      ∃ v ∈ node.kind.operands, ∃ m, g.producerOf v = some m ∧ Precedes g.order p m

/-- A site is outside of a node when it is not one of its operands. -/
theorem node?_ne_iff {site : Use} : site.node? ≠ some n ↔ ∀ i, site ≠ .operand n i := by
  cases site with
  | operand m i => simp [Use.node?]
  | output i => simp [Use.node?]

/-- A node escapes another if some site that reads it is none of the other's operands. -/
theorem Consistent.escapes_iff_exists_site (c : g.Consistent) {p : NodeId}
    (found : g.nodes.get? p = some node) :
    g.Escapes p n ↔ ∃ v ∈ node.results, ∃ site ∈ g.usesOf v, ∀ i, site ≠ .operand n i := by
  rw [c.escapes_iff found]
  simp only [usedOutside, List.any_eq_true, bne_iff_ne, node?_ne_iff]

namespace Settled

variable (settled : g.Settled)

include settled

/-- A settled region has no shared load. -/
theorem not_rootIntroduction (c : g.Consistent) (found : g.nodes.get? n = some node) :
    ¬ Rule.rootIntroduction.Matches g n := by
  intro isMatch
  rcases isMatch with ⟨isLoad, a, b, ne, readsA, readsB⟩
  rw [tagOf_of_get? found, Option.some.injEq] at isLoad
  rcases node with ⟨kind, results⟩
  cases kind with
  | apply => cases isLoad
  | load field type =>
  -- A load has a single result, so both readers read the same value.
  rcases c.exists_loaded found with ⟨loaded, rfl⟩
  rcases (c.reads_iff found).mp readsA with ⟨v, member, i, usedA⟩
  rcases (c.reads_iff found).mp readsB with ⟨w, member', j, usedB⟩
  rw [List.mem_singleton.mp member] at usedA
  rw [List.mem_singleton.mp member'] at usedB
  exact ne (settled.loads n _ loaded found rfl List.mem_cons_self a i b j usedA usedB)

/-- In a settled region an apply that reads a single apply also reads what stands behind it, so it is not rerouted. -/
theorem not_outputRerouting (found : g.nodes.get? n = some node) :
    ¬ Rule.outputRerouting.Matches g n := by
  intro isMatch
  rcases isMatch with ⟨p, feeds, early, -⟩
  simp only [feeds_iff found] at feeds
  rcases settled.consumers n node p found feeds with ⟨v, operand, m, produced, behind⟩
  exact early m ⟨node, v, found, operand, produced⟩ behind

/-- In a settled region no apply has a producer that nothing else uses. -/
theorem not_producerInlining (sound : g.Sound) : ¬ Rule.producerInlining.Matches g n := by
  have c := sound.consistent
  intro isMatch
  rcases isMatch with ⟨p, ⟨isApply, reads⟩, confined⟩
  rcases (c.mem_order p).mp (c.reads_live reads).2 with ⟨node, found⟩
  rw [tagOf_of_get? found, Option.some.injEq] at isApply
  rcases (c.reads_iff found).mp reads with ⟨v, member, i, used⟩
  have isUsed : ∃ v ∈ node.results, g.usesOf v ≠ [] := ⟨v, member, List.ne_nil_of_mem used⟩
  have apart : n ≠ p := (sound.ordered n p reads).ne.symm
  exact confined ((c.escapes_iff_exists_site found).mpr
    (settled.applies p node found isApply isUsed n apart))

end Settled

section Quiet

variable (c : g.Consistent) (quiet : ∀ n, ∀ rule : Rule, ¬ rule.Matches g n)

include c quiet

theorem loads_of_quiet (found : g.nodes.get? n = some node) (isLoad : node.kind.tag = .load)
    (member : v ∈ node.results) {a b : NodeId} {i j : Nat} (usedA : Use.operand a i ∈ g.usesOf v)
    (usedB : Use.operand b j ∈ g.usesOf v) : a = b := by
  refine not_not.mp fun ne => quiet n .rootIntroduction ⟨?_, a, b, ne, ?_, ?_⟩
  · rw [tagOf_of_get? found, isLoad]
  · exact (c.reads_iff found).mpr ⟨v, member, i, usedA⟩
  · exact (c.reads_iff found).mpr ⟨v, member, j, usedB⟩

theorem applies_of_quiet {p : NodeId} (found : g.nodes.get? p = some node)
    (isApply : node.kind.tag = .apply) (isUsed : ∃ v ∈ node.results, g.usesOf v ≠ []) :
    ∃ v ∈ node.results, ∃ site ∈ g.usesOf v, ∀ i, site ≠ .operand n i := by
  rw [← c.escapes_iff_exists_site found]
  refine not_not.mp fun confined => quiet n .producerInlining ⟨p, ⟨?_, ?_⟩, confined⟩
  · rw [tagOf_of_get? found, isApply]
  · -- Whatever site uses the node, it is an operand of `n`, as all of them are.
    rcases isUsed with ⟨v, member, used⟩
    rcases List.exists_mem_of_ne_nil _ used with ⟨site, used⟩
    rw [c.escapes_iff_exists_site found] at confined
    refine (c.reads_iff found).mpr ⟨v, member, ?_⟩
    refine not_not.mp fun outside => confined ⟨v, member, site, used, fun i same => ?_⟩
    exact outside ⟨i, same ▸ used⟩

omit c in
theorem consumers_of_quiet {p : NodeId} (found : g.nodes.get? n = some node)
    (only : ∀ q, (∃ v ∈ node.kind.operands, g.applyProducerOf v = some q) ↔ q = p) :
    ∃ v ∈ node.kind.operands, ∃ m, g.producerOf v = some m ∧ Precedes g.order p m := by
  simp only [← feeds_iff found] at only
  refine not_not.mp fun early => ?_
  have notBehind : ∀ m, g.Reads n m → ¬ Precedes g.order p m := by
    intro m reads behind
    rcases (reads_iff_operand found).mp reads with ⟨v, operand, produced⟩
    exact early ⟨v, operand, m, produced, behind⟩
  -- Either rule would match, according to who else reads the producer.
  by_cases escapes : g.Escapes p n
  · exact quiet n .outputRerouting ⟨p, only, notBehind, escapes⟩
  · exact quiet n .producerInlining ⟨p, (only p).mpr rfl, escapes⟩

end Quiet

/-- A region is settled exactly when no rule matches anywhere. -/
theorem Sound.settled_iff (sound : g.Sound) :
    g.Settled ↔ ∀ n, ∀ rule : Rule, ¬ rule.Matches g n := by
  have c := sound.consistent
  constructor
  · intro settled n rule isMatch
    have live : n ∈ g.order := live_of_matches c isMatch
    rcases (c.mem_order n).mp live with ⟨node, found⟩
    cases rule with
    | rootIntroduction => exact settled.not_rootIntroduction c found isMatch
    | outputRerouting => exact settled.not_outputRerouting found isMatch
    | producerInlining => exact settled.not_producerInlining sound isMatch
  · intro quiet
    exact {
      loads := fun _ _ _ found isLoad member _ _ _ _ => loads_of_quiet c quiet found isLoad member
      applies := fun _ _ found isApply isUsed _ _ => applies_of_quiet c quiet found isApply isUsed
      consumers := fun _ _ _ found only => consumers_of_quiet quiet found only }

end Region

namespace Driver

variable {σ : Type} {d : Driver σ} {s s' : Session σ} {rules : List Rule} {n : NodeId}

/-! ## The end of a run -/

/-- A run that succeeds leaves a region in which no rule matches. -/
theorem quiet_of_sweep (runs : d.Runs rules) (sound : s.region.Sound) (proper : s.agenda.Proper)
    {visits budget : Nat} {tally : Tally} (ran : (d.sweep visits budget).run s = .ok tally s') :
    s'.region.Sound ∧ Quiet rules s' := by
  rcases sweep_ok runs sound ran with ⟨s₁, steps₁, empty₁, last⟩
  have sound₁ : s₁.region.Sound := (steps₁.follows runs sound 0).sound
  have watchful₁ : Watchful rules s₁ :=
    steps₁.watchful runs sound (watchful_seeded sound proper)
  rcases last with ⟨-, -, rfl⟩ | ⟨moved, budget', ran'⟩
  · exact ⟨sound₁, watchful₁.quiet empty₁⟩
  · -- The second sweep rewrites nothing, so it is the last.
    rcases sweep_ok runs sound₁ ran' with ⟨s₂, steps₂, empty₂, last⟩
    have sound₂ : s₂.region.Sound := (steps₂.follows runs sound₁ 0).sound
    rcases last with ⟨-, -, rfl⟩ | ⟨moved', -⟩
    · exact ⟨sound₂, quiet_of_steps runs sound₁ watchful₁.proper steps₂ empty₂⟩
    · exact absurd (steps₂.of_quiet runs sound₁ (watchful₁.quiet empty₁)) moved'

/-! ## A run that finds nothing -/

theorem offer_of_mismatch (sound : s.region.Sound) {node : Node}
    (found : s.region.nodes.get? n = some node) {patterns : List (Pattern σ)}
    (mismatch : ∀ p ∈ patterns, ∃ rule : Rule, p = rule.pattern ∧ ¬ rule.Matches s.region n) :
    (offer n patterns).run s = .ok none s := by
  induction patterns with
  | nil => rfl
  | cons p rest ih =>
    rw [List.forall_mem_cons] at mismatch
    rcases mismatch with ⟨⟨rule, rfl, noMatch⟩, mismatch⟩
    have answer : (rule.apply n).run s.region = .ok .noMatch s.region :=
      (sound.run_eq_noMatch_iff (sound.consistent.mem_order_of_get? found) rule).mpr noMatch
    have first : (attempt (rule.pattern : Pattern σ) n).run s = .ok .noMatch s := by
      rw [attempt_run, answer]
    rw [offer, run_bind_ok first]
    exact ih mismatch

/-- A visit at which nothing matches only takes the node off the agenda. -/
theorem step_of_quiet (runs : d.Runs rules) (sound : s.region.Sound) (quiet : Quiet rules s)
    {agenda : Agenda} (taken : s.agenda.next? = some (n, agenda)) (live : n ∈ s.region.order) :
    d.step.run s = .ok (some false) { s with agenda := agenda, tally := counted s.tally } := by
  rcases (sound.consistent.mem_order n).mp live with ⟨node, found⟩
  have refused : (offer n (d.patterns.forTag node.kind.tag)).run
      { s with agenda := agenda, tally := counted s.tally } =
        .ok none { s with agenda := agenda, tally := counted s.tally } := by
    refine offer_of_mismatch (s := { s with agenda := agenda, tally := counted s.tally }) sound found
      fun p member => ?_
    rcases (mem_forTag runs).mp member with ⟨rule, enabled, isRule, -⟩
    exact ⟨rule, isRule, quiet n rule enabled⟩
  rw [step_of_get? taken found, visit, run_bind_ok refused]
  rfl

/-- From a session to another by visits of the given nodes in the given order. -/
inductive Visits (d : Driver σ) : List NodeId → Session σ → Session σ → Prop
  | nil {s : Session σ} : Visits d [] s s
  | cons {n : NodeId} {ns : List NodeId} {s s' s'' : Session σ} {agenda : Agenda} {moved : Bool} :
    s.agenda.next? = some (n, agenda) → d.step.run s = .ok (some moved) s' →
    Visits d ns s' s'' → Visits d (n :: ns) s s''

/-- A session in which all nodes that waited have been visited and nothing was rewritten. -/
def passedOver (s : Session σ) : Session σ :=
  { s with
    agenda := ⟨[], s.agenda.queue.foldl List.erase s.agenda.waiting⟩
    tally := { s.tally with visited := s.tally.visited + s.agenda.queue.length } }

/-- Where no rule matches, a drain visits what waits, one by one, and changes nothing. -/
theorem drain_of_quiet (runs : d.Runs rules) (sound : s.region.Sound) (quiet : Quiet rules s)
    (live : ∀ n ∈ s.agenda.queue, n ∈ s.region.order) {budget : Nat}
    (enough : s.agenda.queue.length < budget) :
    (d.drain budget).run s = .ok () (passedOver s) ∧
      d.Visits s.agenda.queue s (passedOver s) := by
  rcases s with ⟨g, state, ⟨queue, waiting⟩, tally⟩
  dsimp only at live enough sound ⊢
  induction queue generalizing waiting tally budget with
  | nil =>
    cases budget with
    | zero => exact absurd enough (Nat.lt_irrefl 0)
    | succ budget =>
      have idle : d.step.run ⟨g, state, ⟨[], waiting⟩, tally⟩ =
          .ok none ⟨g, state, ⟨[], waiting⟩, tally⟩ := rfl
      rw [drain, run_bind_ok idle]
      exact ⟨rfl, .nil⟩
  | cons n rest ih =>
    cases budget with
    | zero => exact absurd enough (Nat.not_lt_zero _)
    | succ budget =>
      rw [List.forall_mem_cons] at live
      rw [List.length_cons] at enough
      have visited : d.step.run ⟨g, state, ⟨n :: rest, waiting⟩, tally⟩ =
          .ok (some false) ⟨g, state, ⟨rest, waiting.erase n⟩, counted tally⟩ :=
        step_of_quiet runs sound quiet rfl live.1
      have later := ih (counted tally) (waiting.erase n) quiet live.2
        (Nat.lt_of_succ_lt_succ enough)
      have same : passedOver ⟨g, state, ⟨rest, waiting.erase n⟩, counted tally⟩ =
          passedOver (⟨g, state, ⟨n :: rest, waiting⟩, tally⟩ : Session σ) := by
        simp only [passedOver, counted, List.foldl_cons, List.length_cons, Nat.add_assoc,
          Nat.add_comm 1]
      rw [same] at later
      rw [drain_of_visit visited]
      exact ⟨later.1, .cons rfl visited later.2⟩

/-- One sweep over a region in which nothing matches. -/
theorem sweep_of_quiet (runs : d.Runs rules) (sound : s.region.Sound) (quiet : Quiet rules s)
    (empty : s.agenda = .empty) {visits b : Nat} (enough : s.region.order.length < visits) :
    (d.sweep visits (b + 1)).run s =
        .ok { s.tally with
          visited := s.tally.visited + s.region.order.length
          sweeps := s.tally.sweeps + 1 } (passedOver (seeded s)) ∧
      d.Visits s.region.order (seeded s) (passedOver (seeded s)) := by
  have queue : (seeded s).agenda.queue = s.region.order := by
    rw [seeded, empty]
    exact Agenda.queue_markAll_order sound.consistent.order_nodup
  have live : ∀ n ∈ (seeded s).agenda.queue, n ∈ (seeded s).region.order := by
    intro n waits
    rwa [queue] at waits
  have drained := drain_of_quiet (s := seeded s) runs sound quiet live (queue ▸ enough)
  have still : (passedOver (seeded s)).tally.rewrites = s.tally.rewrites := rfl
  have counts : (passedOver (seeded s)).tally = { s.tally with
      visited := s.tally.visited + s.region.order.length
      sweeps := s.tally.sweeps + 1 } := by
    rw [passedOver, queue]
    rfl
  rw [queue] at drained
  refine ⟨?_, drained.2⟩
  rw [sweep_run sound.consistent, run_bind_ok drained.1, run_get_bind, if_pos still, ← counts]
  rfl

end Driver

/-! ## Fusion -/

theorem fuse_quiet {g g' : Region} {settings : Settings} {tally : Tally} (sound : g.Sound)
    (ran : (fuse settings).run g = .ok tally g') :
    g'.Sound ∧ ∀ n, ∀ rule ∈ settings.rules, ¬ rule.Matches g' n := by
  cases off : settings.isNoop with
  | true =>
    rw [fuse_of_noop off] at ran
    cases ran
    rw [settings.isNoop_iff.mp off]
    exact ⟨sound, fun n rule enabled => by cases enabled⟩
  | false =>
    rw [fuse_of_not_noop off] at ran
    cases swept : settings.driver.run.run (startOf g) with
    | error e s =>
      rw [swept] at ran
      cases ran
    | ok tally' s =>
      rw [swept] at ran
      cases ran
      unfold Driver.run at swept
      rw [run_get_bind] at swept
      exact Driver.quiet_of_sweep settings.runs_driver (s := startOf g) sound Agenda.proper_empty
        swept

/-- Fusion of a region in which no rule matches. -/
theorem fuse_of_quiet {g : Region} {settings : Settings} (sound : g.Sound)
    (on : settings.isNoop = false) (quiet : ∀ n, ∀ rule ∈ settings.rules, ¬ rule.Matches g n) :
    (fuse settings).run g = .ok { visited := g.order.length, sweeps := 1 } g ∧
      settings.driver.Visits g.order (Driver.seeded (startOf g))
        (Driver.passedOver (Driver.seeded (startOf g))) := by
  have enough := (Driver.enough_budget (startOf g)).1
  have within : g.order.length ≤ g.reach := Nat.le_add_right _ _
  rcases Nat.exists_eq_succ_of_ne_zero (Nat.ne_of_gt (Nat.zero_lt_of_lt enough)) with
    ⟨budget, budgetEq⟩
  have visits : g.order.length < budget + 1 := by
    change 0 + g.reach + _ < _ at enough
    omega
  have swept := Driver.sweep_of_quiet settings.runs_driver (s := startOf g) sound quiet rfl
    (b := budget) visits
  have ran : settings.driver.run.run (startOf g) =
      (settings.driver.sweep (budget + 1) (budget + 1)).run (startOf g) := by
    unfold Driver.run
    rw [run_get_bind, budgetEq]
  refine ⟨?_, swept.2⟩
  rw [fuse_of_not_noop on, ran, swept.1]
  simp [startOf, Driver.passedOver, Driver.seeded]

/-- Where fusion succeeds no rule that is on matches any more, which with all rules on makes the region a settled one.
Fusing once more takes one sweep, in which every node is visited exactly once and nothing is rewritten. -/
theorem fuse_reaches_fixpoint {g : Region} (built : g.Built) (verified : g.verify = .ok ())
    (settings : Settings) {tally : Tally} {g' : Region} (ran : (fuse settings).run g = .ok tally g') :
    (∀ n, g'.contains n → ∀ rule ∈ settings.rules, (rule.apply n).run g' = .ok .noMatch g') ∧
    (settings.inline → settings.reroute → settings.root → g'.Settled) ∧
    (settings.isNoop = false →
      (fuse settings).run g' = .ok { visited := g'.order.length, sweeps := 1 } g' ∧
      ∃ visited s, settings.driver.Visits visited (Driver.seeded (startOf g')) s ∧
        s.agenda.queue = [] ∧ s.region = g' ∧ visited.Nodup ∧ ∀ n, n ∈ visited ↔ g'.contains n) := by
  have sound : g.Sound := built.consistent.sound_iff.mpr verified
  rcases fuse_quiet sound ran with ⟨sound', quiet⟩
  have live_iff : ∀ n, n ∈ g'.order ↔ g'.contains n := fun n =>
    (sound'.consistent.mem_order n).trans Region.contains_eq_true_iff.symm
  refine ⟨fun n live rule enabled => ?answers, fun inline reroute root => ?settled, fun on => ?again⟩
  case answers =>
    exact (sound'.run_eq_noMatch_iff ((live_iff n).mpr live) rule).mpr (quiet n rule enabled)
  case settled =>
    refine sound'.settled_iff.mpr fun n rule => quiet n rule ?_
    cases rule <;> simp [Settings.rules, inline, reroute, root]
  case again =>
    have again := fuse_of_quiet sound' on quiet
    exact ⟨again.1, _, _, again.2, rfl, rfl, sound'.consistent.order_nodup, live_iff⟩

/-- The region with a shared load settles, and stays as it is when it is fused again. -/
theorem fuse_reaches_fixpoint_sharedField :
    Region.sharedField.Built ∧ Region.sharedField.verify = .ok () ∧
      ∃ g', (fuse {}).run Region.sharedField = .ok ⟨1, 2, 2, 11, 2⟩ g' ∧ g'.Settled ∧
        (fuse {}).run g' = .ok { visited := g'.order.length, sweeps := 1 } g' := by
  rcases exists_fuse_sharedField with ⟨g', ran⟩
  have fixpoint := fuse_reaches_fixpoint Region.built_sharedField Region.verify_sharedField {} ran
  exact ⟨Region.built_sharedField, Region.verify_sharedField, g', ran, fixpoint.2.1 rfl rfl rfl,
    (fixpoint.2.2 rfl).1⟩

end KernelFusion
