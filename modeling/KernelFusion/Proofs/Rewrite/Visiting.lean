import KernelFusion.Proofs.Rewrite.Agenda
import KernelFusion.Proofs.Rewrite.Priority
import KernelFusion.Proofs.Rewrite.Reshaping

/-!
# What one visit does

A driver whose patterns are the rules takes the first node off the agenda and offers it to the rules for its kind.
On a sound region a visit can end in five ways, one for each constructor of `Driver.Stepped`: nothing waits, the
node is gone, no rule matches, a rule rewrites, or a sum of offsets is out of range. That the region is checked
after a rewrite makes no difference, since it passes (`Driver.stepped`).
-/

namespace KernelFusion

/-! ## The neighbourhood of a node -/

namespace Region

variable {g : Region} {n m : NodeId} {node : Node} {rule : Rule}

/-- A node stands around another: it is the other, or reads it, or is a node that the other reads, or reads such a
node. -/
def Near (g : Region) (n m : NodeId) : Prop :=
  m = n ∨ g.Reads m n ∨ ∃ p, g.Reads n p ∧ (m = p ∨ g.Reads m p)

namespace Consistent

variable (c : g.Consistent)

include c

/-- The readers of a node are found. -/
theorem resultReaders_of_get? (found : g.nodes.get? n = some node) :
    ∃ readers, g.resultReaders n = .ok readers ∧ ∀ m, m ∈ readers ↔ g.Reads m n := by
  refine ⟨_, by rw [resultReaders, results_of_get? found, ok_bind, pure_eq_ok], fun m => ?_⟩
  rw [List.mem_eraseDups, List.mem_flatMap, c.reads_iff found]
  simp only [mem_readers]

/-- The neighbourhood of a node is found, and it holds what stands around the node. -/
theorem neighbourhood_of_get? (found : g.nodes.get? n = some node) :
    ∃ around, g.neighbourhood n = .ok around ∧ ∀ m, m ∈ around ↔ g.Near n m := by
  rcases c.resultReaders_of_get? found with ⟨readers, readersEq, mem_readers⟩
  rw [neighbourhood, readersEq, ok_bind, operands_of_get? found, ok_bind]
  refine exists_mapM_bind_eq_ok (fun v around => ∀ m, m ∈ around ↔
    ∃ p, g.producerOf v = some p ∧ (m = p ∨ g.Reads m p)) ?each ?whole
  case each =>
    intro v member
    rcases c.operand_live found member with ⟨info, infoAt⟩
    rw [producer_of_get? infoAt, ok_bind]
    cases produced : g.producerOf v with
    | none => exact ⟨[], rfl, by simp⟩
    | some p =>
      rcases c.producer_live produced with ⟨nodeP, foundP, -⟩
      rcases c.resultReaders_of_get? foundP with ⟨readersP, readersPEq, mem_readersP⟩
      dsimp only
      rw [readersPEq]
      refine ⟨p :: readersP, rfl, fun m => ?_⟩
      rw [List.mem_cons, mem_readersP]
      simp
  case whole =>
    -- What the operands reach is near, by the producer of the operand.
    intro around related
    refine ⟨n :: readers ++ around.flatten, rfl, fun m => ?_⟩
    rw [Near, List.mem_append, List.mem_cons, mem_readers, or_assoc, List.mem_flatten]
    refine or_congr_right (or_congr_right ?_)
    constructor
    · intro member
      rcases member with ⟨ms, memberOf, member⟩
      rcases exists_left_of_mem related memberOf with ⟨v, operand, reached⟩
      rcases (reached m).mp member with ⟨p, produced, at'⟩
      exact ⟨p, ⟨node, v, found, operand, produced⟩, at'⟩
    · intro reached
      rcases reached with ⟨p, ⟨node', v, found', operand, produced⟩, at'⟩
      rw [found, Option.some.injEq] at found'
      subst found'
      rcases exists_right_of_mem related operand with ⟨ms, memberOf, reached⟩
      exact ⟨ms, memberOf, (reached m).mpr ⟨p, produced, at'⟩⟩

end Consistent

/-- A rule matches only at nodes of its kind. -/
theorem tagOf_of_matches (isMatch : rule.Matches g n) : g.tagOf n = some rule.root := by
  have reader {p : NodeId} (reads : g.Reads n p) : g.tagOf n = some .apply := by
    rcases reads with ⟨⟨kind, results⟩, v, found, operand, -⟩
    cases kind with
    | load => cases operand
    | apply => exact tagOf_of_get? found
  cases rule with
  | rootIntroduction => exact isMatch.1
  | outputRerouting =>
    rcases isMatch with ⟨p, feeds, -⟩
    exact reader ((feeds p).mpr rfl).2
  | producerInlining =>
    rcases isMatch with ⟨p, feeds, -⟩
    exact reader feeds.2

/-- The nodes around those of the given nodes that the region has, in program order. -/
def affected (g : Region) (created : List NodeId) : Except Error (List NodeId) := do
  let around ← (created.filter g.contains).mapM g.neighbourhood
  g.inProgramOrder around.flatten

/-- A node stands around nodes of the region only. -/
theorem Consistent.contains_of_near (c : g.Consistent) (near : g.Near n m) (live : m ∈ g.order) :
    g.contains n = true := by
  refine contains_eq_true_iff.mpr ((c.mem_order n).mp ?_)
  rcases near with same | reads | ⟨p, reads, -⟩
  · exact same ▸ live
  · exact (c.reads_live reads).2
  · exact (c.reads_live reads).1

/-- Handles of nodes that are gone, or never were, have no part in what is around the others. -/
theorem Consistent.exists_affected (c : g.Consistent) (created : List NodeId) :
    ∃ around : List NodeId, g.affected created = .ok (g.order.filter fun m => m ∈ around) ∧
      ∀ m, m ∈ around ↔ ∃ n ∈ created, g.contains n = true ∧ g.Near n m := by
  have each : ∀ n ∈ created.filter g.contains, ∃ around, g.neighbourhood n = .ok around ∧
      ∀ m, m ∈ around ↔ g.Near n m := by
    intro n member
    obtain ⟨node, found⟩ := contains_eq_true_iff.mp (List.mem_filter.mp member).2
    exact c.neighbourhood_of_get? found
  obtain ⟨around, aroundEq, related⟩ := exists_mapM_eq_ok each
  refine ⟨around.flatten, ?_, fun m => ?_⟩
  · rw [affected, aroundEq, ok_bind, c.inProgramOrder_eq]
  · rw [List.mem_flatten]
    constructor
    · intro member
      obtain ⟨ms, memberOf, member⟩ := member
      obtain ⟨n, isCreated, near⟩ := exists_left_of_mem related memberOf
      obtain ⟨named, live⟩ := List.mem_filter.mp isCreated
      exact ⟨n, named, live, (near m).mp member⟩
    · intro reached
      obtain ⟨n, named, live, isNear⟩ := reached
      obtain ⟨ms, memberOf, near⟩ := exists_right_of_mem related (List.mem_filter.mpr ⟨named, live⟩)
      exact ⟨ms, memberOf, (near m).mpr isNear⟩

end Region

/-! ## The rules as patterns -/

namespace Driver

variable {σ : Type} {d : Driver σ} {s : Session σ} {n : NodeId} {rules : List Rule}

/-- A driver whose patterns are rules. -/
def Runs (d : Driver σ) (rules : List Rule) : Prop :=
  ∀ p, p ∈ d.patterns.patterns ↔ ∃ rule ∈ rules, p = rule.pattern

theorem runs_settings (settings : Settings) (verify : Bool) :
    Runs (⟨settings.patterns, verify⟩ : Driver σ) settings.rules := fun _ =>
  settings.mem_patterns

/-- The patterns for a kind are the rules for it. -/
theorem mem_forTag (runs : d.Runs rules) {tag : NodeTag} {p : Pattern σ} :
    p ∈ d.patterns.forTag tag ↔ ∃ rule ∈ rules, p = rule.pattern ∧ rule.root = tag := by
  rw [PatternSet.forTag, List.mem_filter, runs p]
  constructor
  · intro member
    rcases member with ⟨⟨rule, enabled, rfl⟩, root⟩
    exact ⟨rule, enabled, rfl, by simpa [Rule.pattern] using root⟩
  · intro member
    rcases member with ⟨rule, enabled, rfl, root⟩
    exact ⟨⟨rule, enabled, rfl⟩, by simpa [Rule.pattern] using root⟩

/-! ## Offering a node -/

/-- A rule is attempted on the region and leaves the rest of the session alone. -/
theorem attempt_run {rule : Rule} :
    (attempt (rule.pattern : Pattern σ) n).run s =
      match (rule.apply n).run s.region with
      | .ok outcome g' => .ok outcome { s with region := g' }
      | .error e g' => .error (.refused e) { s with region := g' } := by
  have offered : ((rule.pattern : Pattern σ).attempt n).run (s.region, s.state) =
      Pattern.ofEdit (rule.apply n) (s.region, s.state) := rfl
  change attempt (rule.pattern : Pattern σ) n s = _
  rw [attempt, offered, Pattern.ofEdit]
  cases (rule.apply n).run s.region with
  | ok => rfl
  | error => rfl

/-- The ways in which the offer of a node to patterns can end. -/
inductive Offered (s : Session σ) (patterns : List (Pattern σ)) (n : NodeId) :
    EStateM.Result Failure (Session σ) (Option (Pattern σ × List NodeId)) → Prop
  | refused : (∀ p ∈ patterns, ¬ p.rule.Matches s.region n) → Offered s patterns n (.ok none s)
  | rewritten {p : Pattern σ} {created : List NodeId} {g' : Region} : p ∈ patterns →
    p.rule.Matches s.region n → s.region.Rewrote g' p.rule n created →
    (p.rule.apply n).run s.region = .ok (.rewritten created) g' →
    Offered s patterns n (.ok (some (p, created)) { s with region := g' })
  | overflow {p : Pattern σ} : (p.rule.apply n).run s.region = .error (.arithmetic .addition) s.region →
    Offered s patterns n (.error (.refused (.arithmetic .addition)) s)

/-- A node of a sound region is offered to rules in one of these ways, by induction on the rules. -/
theorem offered (sound : s.region.Sound) {node : Node} (found : s.region.nodes.get? n = some node)
    {patterns : List (Pattern σ)} (areRules : ∀ p ∈ patterns, ∃ rule : Rule, p = rule.pattern) :
    Offered s patterns n ((offer n patterns).run s) := by
  induction patterns with
  | nil => exact .refused fun p member => by cases member
  | cons p rest ih =>
    rw [List.forall_mem_cons] at areRules
    rcases areRules with ⟨⟨rule, rfl⟩, areRules⟩
    have first : (attempt (rule.pattern : Pattern σ) n).run s = _ := attempt_run
    have applied := sound.applied rule n
    rw [offer]
    generalize applying : (rule.apply n).run s.region = result at first applied
    cases applied with
    | stale absent =>
      rw [absent] at found
      cases found
    | noMatch mismatch =>
      -- The region is as it was, so the next patterns are offered the same session.
      rw [run_bind_ok first]
      have later := ih areRules
      dsimp only
      generalize (offer n rest).run s = result at later ⊢
      cases later with
      | refused mismatches => exact .refused (List.forall_mem_cons.mpr ⟨mismatch, mismatches⟩)
      | rewritten member isMatch rewrote applied =>
        exact .rewritten (List.mem_cons_of_mem _ member) isMatch rewrote applied
      | overflow failed => exact .overflow failed
    | rewritten isMatch rewrote =>
      rw [run_bind_ok first]
      exact .rewritten List.mem_cons_self isMatch rewrote applying
    | overflow =>
      rw [run_bind_error first]
      exact .overflow (p := rule.pattern) applying

theorem require_ok {α : Type} {x : Except Error α} {a : α} (ok : x = .ok a) :
    (require x).run s = .ok a s := by
  rw [ok]
  rfl

theorem require_error {α : Type} {x : Except Error α} {e : Error} (refused : x = .error e) :
    (require x).run s = .error (.refused e) s := by
  rw [refused]
  rfl

theorem markAffected_eq {created : List NodeId} : (markAffected created).run s =
    match s.region.affected created with
    | .ok marks => .ok () { s with agenda := s.agenda.markEach marks }
    | .error e => .error (.refused e) s := by
  unfold markAffected Region.affected Agenda.markLive
  rw [run_get_bind]
  dsimp only
  cases gathering : (created.filter s.region.contains).mapM s.region.neighbourhood with
  | error e => rw [run_bind_error (require_error rfl), error_bind]
  | ok around =>
    rw [run_bind_ok (require_ok rfl), ok_bind]
    cases s.region.inProgramOrder around.flatten with
    | error e => rw [error_bind, run_bind_error (require_error rfl)]
    | ok marks => rw [ok_bind, pure_eq_ok, run_bind_ok (require_ok rfl)]; rfl

/-- After a rewrite the nodes around those that came in are put on the agenda. -/
theorem markAffected_run (c : s.region.Consistent) {created : List NodeId}
    (live : ∀ n ∈ created, ∃ node, s.region.nodes.get? n = some node) :
    ∃ around, (markAffected created).run s =
        .ok () { s with agenda := s.agenda.markAll s.region around } ∧
      ∀ m, m ∈ around ↔ ∃ n ∈ created, s.region.Near n m := by
  obtain ⟨around, affected, near⟩ := c.exists_affected created
  refine ⟨around, ?_, fun m => ?_⟩
  · rw [markAffected_eq, affected]
    rfl
  · rw [near]
    refine exists_congr fun n => and_congr_right fun named => and_iff_right ?_
    exact Region.contains_eq_true_iff.mpr (live n named)

/-! ## One visit -/

/-- Counts a visit. -/
def counted (t : Tally) : Tally := { t with visited := t.visited + 1 }

/-- The ways in which a visit can end. -/
inductive Stepped (rules : List Rule) (s : Session σ) :
    EStateM.Result Failure (Session σ) (Option Bool) → Prop
  | idle : s.agenda.queue = [] → Stepped rules s (.ok none s)
  | passed {n : NodeId} {agenda : Agenda} : s.agenda.next? = some (n, agenda) →
    s.region.nodes.get? n = none → Stepped rules s (.ok (some false) { s with agenda := agenda })
  | unmatched {n : NodeId} {agenda : Agenda} : s.agenda.next? = some (n, agenda) →
    (∀ rule ∈ rules, ¬ rule.Matches s.region n) →
    Stepped rules s (.ok (some false) { s with agenda := agenda, tally := counted s.tally })
  | rewritten {n : NodeId} {agenda : Agenda} {rule : Rule} {created around : List NodeId}
    {g' : Region} : s.agenda.next? = some (n, agenda) → rule ∈ rules →
    rule.Matches s.region n → s.region.Rewrote g' rule n created →
    (∀ m, m ∈ around ↔ ∃ n ∈ created, g'.Near n m) →
    (rule.apply n).run s.region = .ok (.rewritten created) g' →
    Stepped rules s (.ok (some true)
      ⟨g', s.state, agenda.markAll g' around, (counted s.tally).record rule⟩)
  | overflow {n : NodeId} {agenda : Agenda} {rule : Rule} : s.agenda.next? = some (n, agenda) →
    (rule.apply n).run s.region = .error (.arithmetic .addition) s.region →
    Stepped rules s (.error (.refused (.arithmetic .addition))
      { s with agenda := agenda, tally := counted s.tally })

/-- What is left of the visit of a node of a kind, once the node is counted. -/
def visit (d : Driver σ) (n : NodeId) (tag : NodeTag) : Run σ (Option Bool) := do
  match ← offer n (d.patterns.forTag tag) with
  | none => return some false
  | some (p, created) => do
    modify fun s => { s with tally := s.tally.record p.rule }
    if d.verify then checkAfter p.rule
    markAffected created
    return some true

theorem step_of_idle (idle : s.agenda.next? = none) : d.step.run s = .ok none s := by
  unfold step
  rw [run_get_bind, idle]
  rfl

theorem step_of_none {agenda : Agenda} (taken : s.agenda.next? = some (n, agenda))
    (absent : s.region.nodes.get? n = none) :
    d.step.run s = .ok (some false) { s with agenda := agenda } := by
  have gone : s.region.contains n = false := by
    rw [← Bool.not_eq_true, Region.contains_eq_true_iff, absent]
    simp
  unfold step
  rw [run_get_bind, taken]
  dsimp only
  rw [run_bind_ok (EStateM.run_set _ _), gone]
  rfl

/-- A node that the region has is counted and visited. -/
theorem step_of_get? {agenda : Agenda} (taken : s.agenda.next? = some (n, agenda)) {node : Node}
    (found : s.region.nodes.get? n = some node) :
    d.step.run s = (d.visit n node.kind.tag).run
      { s with agenda := agenda, tally := counted s.tally } := by
  have live : s.region.contains n = true := Region.contains_eq_true_iff.mpr ⟨node, found⟩
  have count : (modify fun s =>
      { s with tally := { s.tally with visited := s.tally.visited + 1 } } : Run σ Unit).run
      { s with agenda := agenda } = .ok () { s with agenda := agenda, tally := counted s.tally } :=
    rfl
  unfold step
  rw [run_get_bind, taken]
  dsimp only
  rw [run_bind_ok (EStateM.run_set _ _), live, if_pos rfl, run_bind_ok count,
    run_bind_ok (require_ok (Region.kind_of_get? found))]
  rfl

/-- What is made of the check after a rewrite, if it is made. -/
theorem checkAfter_run {verify : Bool} {rule : Rule} {α : Type} (rest : Run σ α) :
    (if verify = true then do
        checkAfter rule
        rest
      else rest).run s =
      match if verify then s.region.verify else .ok () with
      | .ok () => rest.run s
      | .error e => .error (.invalidated rule e) s := by
  cases verify with
  | false => rfl
  | true =>
    have checked : (checkAfter rule).run s = match s.region.verify with
        | .ok () => .ok () s
        | .error e => .error (.invalidated rule e) s := rfl
    rw [if_pos rfl, if_pos rfl]
    cases verified : s.region.verify with
    | ok => exact run_bind_ok (by rw [checked, verified])
    | error e => exact run_bind_error (by rw [checked, verified])

/-- On a sound region it makes no difference whether the check is made. -/
theorem check_run (sound : s.region.Sound) (verify : Bool) (rule : Rule) {α : Type}
    (rest : Run σ α) :
    (if verify = true then do
        checkAfter rule
        rest
      else rest).run s = rest.run s := by
  rw [checkAfter_run, sound.consistent.sound_iff.mp sound, ite_self]

/-- What follows a rewrite, with or without a check. -/
theorem visit_of_rewritten {tag : NodeTag} {p : Pattern σ} {created : List NodeId} {g' : Region}
    (sound' : g'.Sound)
    (ran : (offer n (d.patterns.forTag tag)).run s =
      .ok (some (p, created)) { s with region := g' }) :
    (d.visit n tag).run s = (do
      markAffected created
      return some true).run ⟨g', s.state, s.agenda, s.tally.record p.rule⟩ := by
  have recorded : (modify fun s => { s with tally := s.tally.record p.rule } : Run σ Unit).run
      { s with region := g' } = .ok () ⟨g', s.state, s.agenda, s.tally.record p.rule⟩ := rfl
  unfold visit
  rw [run_bind_ok ran]
  dsimp only
  rw [run_bind_ok recorded, check_run sound']

theorem areRules_forTag (runs : d.Runs rules) (tag : NodeTag) :
    ∀ p ∈ d.patterns.forTag tag, ∃ rule : Rule, p = rule.pattern := by
  intro p member
  rcases (mem_forTag runs).mp member with ⟨rule, -, isRule, -⟩
  exact ⟨rule, isRule⟩

/-- A visit of a sound region by rules ends in one of the five ways. -/
theorem stepped (runs : d.Runs rules) (sound : s.region.Sound) : Stepped rules s (d.step.run s) := by
  cases taken : s.agenda.next? with
  | none =>
    rw [step_of_idle taken]
    exact .idle (Agenda.next?_eq_none_iff.mp taken)
  | some first =>
  rcases first with ⟨n, agenda⟩
  cases found : s.region.nodes.get? n with
  | none =>
    rw [step_of_none taken found]
    exact .passed taken found
  | some node =>
  rw [step_of_get? taken found]
  have answer := offered (s := { s with agenda := agenda, tally := counted s.tally }) sound found
    (areRules_forTag runs node.kind.tag)
  generalize ran : (offer n (d.patterns.forTag node.kind.tag)).run
    { s with agenda := agenda, tally := counted s.tally } = result at answer
  cases answer with
  | refused mismatches =>
    rw [visit, run_bind_ok ran]
    refine .unmatched taken fun rule enabled isMatch => ?_
    have root := Region.tagOf_of_matches isMatch
    rw [Region.tagOf_of_get? found, Option.some.injEq] at root
    exact mismatches rule.pattern ((mem_forTag runs).mpr ⟨rule, enabled, rfl, root.symm⟩) isMatch
  | overflow failed =>
    rw [visit, run_bind_error ran]
    exact .overflow taken failed
  | @rewritten p created g' member isMatch rewrote applied =>
    rcases (mem_forTag runs).mp member with ⟨rule, enabled, rfl, -⟩
    have sound' := rewrote.sound sound
    rcases rewrote.reshaped sound with ⟨gone, f, heir, -, reshaped⟩
    rcases markAffected_run (s := ⟨g', s.state, agenda, (counted s.tally).record rule⟩)
      sound'.consistent reshaped.live with ⟨around, marked, near⟩
    rw [visit_of_rewritten sound' ran]
    change Stepped rules s ((do
      markAffected created
      return some true : Run σ (Option Bool)).run
        ⟨g', s.state, agenda, (counted s.tally).record rule⟩)
    rw [run_bind_ok marked]
    exact .rewritten taken enabled isMatch rewrote near applied

/-- Visits of a sound region are the same with and without checks. -/
theorem step_of_verify {patterns : PatternSet σ} {verify : Bool} (verify' : Bool)
    (runs : Runs (⟨patterns, verify⟩ : Driver σ) rules) (sound : s.region.Sound) :
    (step ⟨patterns, verify⟩).run s = (step ⟨patterns, verify'⟩).run s := by
  cases taken : s.agenda.next? with
  | none => rw [step_of_idle taken, step_of_idle taken]
  | some first =>
  rcases first with ⟨n, agenda⟩
  cases found : s.region.nodes.get? n with
  | none => rw [step_of_none taken found, step_of_none taken found]
  | some node =>
  rw [step_of_get? taken found, step_of_get? taken found]
  have answer := offered (s := { s with agenda := agenda, tally := counted s.tally }) sound found
    (areRules_forTag runs node.kind.tag)
  dsimp only at answer
  generalize ran : (offer n (patterns.forTag node.kind.tag)).run
    { s with agenda := agenda, tally := counted s.tally } = result at answer
  cases answer with
  | refused => rw [visit, visit, run_bind_ok ran, run_bind_ok ran]
  | overflow => rw [visit, visit, run_bind_error ran, run_bind_error ran]
  | rewritten _ _ rewrote _ =>
    have sound' := rewrote.sound sound
    rw [visit_of_rewritten sound' ran, visit_of_rewritten sound' ran]

end Driver

end KernelFusion
