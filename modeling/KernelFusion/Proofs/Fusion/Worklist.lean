import KernelFusion.Proofs.Fusion.Rewriting
import KernelFusion.Proofs.Region.Built

/-!
# The agenda misses nothing

Once all nodes have been put on the agenda, a node at which a rule matches is on it (`Driver.Watchful`). A visit
keeps this: a rewrite makes new matches only at the nodes that it brings in and at their readers, and these are in
the neighbourhoods that go on the agenda. So no rule matches anywhere when the first sweep is over, and a second
sweep, which there is only if the first has rewritten something, rewrites nothing.

The sweeps and visits that the statements speak of are those of `fuse` (`fuse_visits`): the sessions of a sweep are the
ones in which its drain stops when it is allowed fewer visits.
-/

namespace KernelFusion

namespace Driver

variable {σ : Type} {d : Driver σ} {s s' : Session σ} {rules : List Rule}

/-- Every node at which a rule matches waits for a visit. -/
structure Watchful (rules : List Rule) (s : Session σ) : Prop where
  proper : s.agenda.Proper
  waits : ∀ n, ∀ rule ∈ rules, rule.Matches s.region n → n ∈ s.agenda.queue

theorem watchful_seeded (sound : s.region.Sound) (proper : s.agenda.Proper) :
    Watchful rules (seeded s) where
  proper := proper.markAll _ _
  waits n rule _ isMatch := by
    have live : n ∈ s.region.order := Region.live_of_matches sound.consistent isMatch
    exact (Agenda.mem_queue_markAll proper).mpr (.inr ⟨live, live⟩)

/-- A visit keeps a session watchful. -/
theorem Stepped.watchful {moved : Bool} (stepped : Stepped rules s (.ok (some moved) s'))
    (sound : s.region.Sound) (watchful : Watchful rules s) : Watchful rules s' := by
  -- What waited and is not the visited node still waits.
  have remains {n m : NodeId} {agenda : Agenda} (taken : s.agenda.next? = some (n, agenda))
      (ne : m ≠ n) (waits : m ∈ s.agenda.queue) : m ∈ agenda.queue := by
    rw [(Agenda.next?_eq_some_iff.mp taken).1] at waits
    exact (List.mem_cons.mp waits).resolve_left ne
  cases stepped with
  | passed taken absent =>
    refine ⟨watchful.proper.next taken, fun m rule enabled isMatch => ?_⟩
    refine remains taken ?_ (watchful.waits m rule enabled isMatch)
    intro same
    rcases (sound.consistent.mem_order m).mp (Region.live_of_matches sound.consistent isMatch) with
      ⟨node, found⟩
    rw [same, absent] at found
    cases found
  | unmatched taken mismatch =>
    refine ⟨watchful.proper.next taken, fun m rule enabled isMatch => ?_⟩
    refine remains taken ?_ (watchful.waits m rule enabled isMatch)
    intro same
    exact mismatch rule enabled (same ▸ isMatch)
  | @rewritten n agenda rule created around g' taken _ _ rewrote near _ =>
    have proper := watchful.proper.next taken
    refine ⟨proper.markAll _ _, fun m rule' enabled isMatch => ?_⟩
    have sound' := rewrote.sound sound
    have live : m ∈ g'.order := Region.live_of_matches sound'.consistent isMatch
    rw [Agenda.mem_queue_markAll proper]
    by_cases reached : m ∈ around
    · exact .inr ⟨live, reached⟩
    · have old : m ∉ created := fun member =>
        reached ((near m).mpr ⟨m, member, .inl rfl⟩)
      have apart : ∀ p ∈ created, ¬ g'.Reads m p := fun p member reads =>
        reached ((near m).mpr ⟨p, member, .inr (.inl reads)⟩)
      rcases rewrote.matches_of_matches sound old apart isMatch with ⟨before, ne⟩
      exact .inl (remains taken ne (watchful.waits m rule' enabled before))

theorem Steps.watchful (steps : d.Steps s s') (runs : d.Runs rules) (sound : s.region.Sound)
    (watchful : Watchful rules s) : Watchful rules s' :=
  (steps.keeps runs (Watchful rules) (fun _ _ _ sound₁ start step => step.watchful sound₁ start)
    sound watchful).2

theorem Course.proper (course : d.Course s s') (runs : d.Runs rules) (sound : s.region.Sound)
    (proper : s.agenda.Proper) : s'.agenda.Proper := by
  induction course with
  | refl => exact proper
  | @sweep s₁ s₂ before steps ih =>
    have sound₁ := (before.becomes runs sound).1
    exact (steps.watchful runs sound₁ (watchful_seeded sound₁ ih)).proper

/-! ## Sweeps that find nothing -/

/-- No rule matches anywhere. -/
def Quiet (rules : List Rule) (s : Session σ) : Prop :=
  ∀ n, ∀ rule ∈ rules, ¬ rule.Matches s.region n

/-- If nothing waits, no rule matches. -/
theorem Watchful.quiet (watchful : Watchful rules s) (empty : s.agenda.queue = []) :
    Quiet rules s := by
  intro n rule enabled isMatch
  have waits := watchful.waits n rule enabled isMatch
  rw [empty] at waits
  cases waits

theorem Steps.of_quiet (steps : d.Steps s s') (runs : d.Runs rules) (sound : s.region.Sound)
    (quiet : Quiet rules s) : s'.tally.rewrites = s.tally.rewrites := by
  refine (steps.keeps runs (fun s' => s'.region = s.region ∧ s'.tally.rewrites = s.tally.rewrites)
    (fun s₁ s₂ moved _ same step => ?_) sound ⟨rfl, rfl⟩).2.2
  cases step with
  | passed => exact same
  | unmatched => exact same
  | @rewritten n _ rule _ _ _ _ enabled isMatch _ _ _ =>
    rw [same.1] at isMatch
    exact absurd isMatch (quiet n rule enabled)

/-- The first drain of sweeps that succeed, and whether it is the last. -/
theorem sweep_ok (runs : d.Runs rules) (sound : s.region.Sound) {visits budget : Nat} {tally : Tally}
    (ran : (d.sweep visits budget).run s = .ok tally s') :
    ∃ s₁, d.Steps (seeded s) s₁ ∧ s₁.agenda.queue = [] ∧
      (s₁.tally.rewrites = s.tally.rewrites ∧ tally = s₁.tally ∧ s' = s₁ ∨
        s₁.tally.rewrites ≠ s.tally.rewrites ∧
          ∃ budget', (d.sweep visits budget').run s₁ = .ok tally s') := by
  cases budget with
  | zero => cases ran
  | succ budget =>
  rw [sweep_run sound.consistent] at ran
  have first := drained runs (s := seeded s) sound (Nat.le_refl _) visits
  cases drainRan : (d.drain visits).run (seeded s) with
  | error e s₁ =>
    rw [run_bind_error drainRan] at ran
    cases ran
  | ok _ s₁ =>
    rw [drainRan] at first
    rw [run_bind_ok drainRan, run_get_bind] at ran
    cases first with
    | done steps empty =>
      refine ⟨s₁, steps, empty, ?_⟩
      by_cases still : s₁.tally.rewrites = s.tally.rewrites
      · rw [if_pos still] at ran
        cases ran
        exact .inl ⟨still, rfl, rfl⟩
      · rw [if_neg still] at ran
        exact .inr ⟨still, budget, ran⟩

/-- After the first sweep no rule matches. -/
theorem quiet_of_steps (runs : d.Runs rules) (sound : s.region.Sound) (proper : s.agenda.Proper)
    (steps : d.Steps (seeded s) s') (empty : s'.agenda.queue = []) : Quiet rules s' :=
  (steps.watchful runs sound (watchful_seeded sound proper)).quiet empty

/-- A second sweep finds nothing, so there is no third. -/
theorem sweeps_of_run (runs : d.Runs rules) (sound : s.region.Sound) (proper : s.agenda.Proper)
    {visits budget : Nat} {tally : Tally} (ran : (d.sweep visits budget).run s = .ok tally s') :
    tally.sweeps = s.tally.sweeps + if tally.rewrites = s.tally.rewrites then 1 else 2 := by
  rcases sweep_ok runs sound ran with ⟨s₁, steps₁, empty₁, last⟩
  have counted₁ : s₁.tally.sweeps = s.tally.sweeps + 1 := (steps₁.follows runs sound 0).sweeps
  rcases last with ⟨still, rfl, -⟩ | ⟨moved, budget', ran'⟩
  · rw [if_pos still, counted₁]
  · have sound₁ : s₁.region.Sound := (steps₁.follows runs sound 0).sound
    have quiet : Quiet rules s₁ := quiet_of_steps runs sound proper steps₁ empty₁
    rcases sweep_ok runs sound₁ ran' with ⟨s₂, steps₂, -, last⟩
    have counted₂ : s₂.tally.sweeps = s₁.tally.sweeps + 1 := (steps₂.follows runs sound₁ 0).sweeps
    have still : s₂.tally.rewrites = s₁.tally.rewrites := steps₂.of_quiet runs sound₁ quiet
    rcases last with ⟨-, rfl, -⟩ | ⟨moved', -⟩
    · rw [still, if_neg moved, counted₂, counted₁]
    · exact absurd still moved'

end Driver

/-! ## Fusion -/

namespace Region

variable {g : Region}

/-- A rule answers that it does not match exactly where it does not. -/
theorem Sound.run_eq_noMatch_iff (sound : g.Sound) {n : NodeId} (live : n ∈ g.order) (rule : Rule) :
    (rule.apply n).run g = .ok .noMatch g ↔ ¬ rule.Matches g n := by
  rcases (sound.consistent.mem_order n).mp live with ⟨node, found⟩
  have applied := sound.applied rule n
  generalize (rule.apply n).run g = result at applied
  cases applied with
  | stale absent =>
    rw [absent] at found
    cases found
  | noMatch mismatch => exact ⟨fun _ => mismatch, fun _ => rfl⟩
  | rewritten isMatch _ => exact ⟨fun same => (by cases same), fun mismatch => absurd isMatch mismatch⟩
  | overflow isMatch _ _ _ => exact ⟨fun same => (by cases same), fun mismatch => absurd isMatch mismatch⟩

end Region

/-- A run of `fuse` by its sweeps and visits, from which all of its sessions are reached. A sweep drains the session in
which all nodes have been put on the agenda, and what the drain leaves is where the next sweep starts; the sessions
before the visits of a drain are those in which it stops when it may make fewer visits; and what fusion gives is what the
last session holds. -/
theorem fuse_visits {g : Region} (sound : g.Sound) {settings : Settings} (on : settings.isNoop = false) :
    (∀ s : Session Unit, settings.driver.Course (startOf g) s →
      (∀ visits budget, (settings.driver.sweep visits (budget + 1)).run s = (do
        settings.driver.drain visits
        let s' ← get
        if s'.tally.rewrites = s.tally.rewrites then return s'.tally
        else settings.driver.sweep visits budget : Run Unit Tally).run (Driver.seeded s)) ∧
      (∀ visits s', (settings.driver.drain visits).run (Driver.seeded s) = .ok () s' →
        settings.driver.Course (startOf g) s') ∧
      ∀ s', settings.driver.Steps (Driver.seeded s) s' ↔
        ∃ visits, (settings.driver.drain visits).run (Driver.seeded s) = .error .exhausted s') ∧
    ∀ tally g', (fuse settings).run g = .ok tally g' →
      ∃ s, settings.driver.Course (startOf g) s ∧ s.tally = tally ∧ s.region = g' := by
  have runs := settings.runs_driver
  refine ⟨fun s course => ?sweeps, fun tally g' ran => ?ends⟩
  case sweeps =>
    have consistent : s.region.Consistent := (course.becomes runs sound).1.consistent
    have sound' : (Driver.seeded s).region.Sound := (course.becomes runs sound).1
    refine ⟨fun _ _ => Driver.sweep_run consistent, fun visits s' ran => ?_,
      fun _ => Driver.steps_iff_exhausted runs sound'⟩
    have drained := Driver.drained runs sound' (Nat.le_refl _) visits
    rw [ran] at drained
    cases drained with
    | done steps _ => exact course.sweep steps
  case ends =>
    have ending := fused sound settings
    rw [ran] at ending
    cases ending with
    | noop off => cases on.symm.trans off
    | done _ course => exact ⟨_, course, rfl, rfl⟩

/-- Whenever a node is about to be visited, every node at which a rule would rewrite waits; so the first sweep ends
where no rule rewrites, and a run has one sweep if nothing is rewritten and two otherwise. That every session in which a
run is about to visit a node is one of those that the first part speaks of is what `fuse_visits` says. -/
theorem fuse_misses_nothing {g : Region} (built : g.Built) (verified : g.verify = .ok ())
    (settings : Settings) (on : settings.isNoop = false) :
    (∀ s s' : Session Unit, settings.driver.Course (startOf g) s →
      settings.driver.Steps (Driver.seeded s) s' → ∀ n ∈ s'.region.order, ∀ rule ∈ settings.rules,
        (rule.apply n).run s'.region ≠ .ok .noMatch s'.region → n ∈ s'.agenda.queue) ∧
    (∀ visits s', (settings.driver.drain visits).run (Driver.seeded (startOf g)) = .ok () s' →
      ∀ n ∈ s'.region.order, ∀ rule ∈ settings.rules,
        (rule.apply n).run s'.region = .ok .noMatch s'.region) ∧
    ∀ tally g', (fuse settings).run g = .ok tally g' →
      tally.sweeps = if tally.rewrites = 0 then 1 else 2 := by
  have sound : (startOf g).region.Sound := built.consistent.sound_iff.mpr verified
  have runs := settings.runs_driver
  have proper : (startOf g).agenda.Proper := Agenda.proper_empty
  refine ⟨?waits, ?drained, ?sweeps⟩
  case waits =>
    intro s s' course steps n live rule enabled answers
    have sound₁ := (course.becomes runs sound).1
    have watchful := steps.watchful runs sound₁
      (Driver.watchful_seeded sound₁ (course.proper runs sound proper))
    have sound' := (steps.follows runs sound₁ 0).sound
    refine watchful.waits n rule enabled (not_not.mp fun mismatch => answers ?_)
    exact (sound'.run_eq_noMatch_iff live rule).mpr mismatch
  case drained =>
    intro visits s' ran n live rule enabled
    have drained := Driver.drained runs (s := Driver.seeded (startOf g)) sound (Nat.le_refl _) visits
    rw [ran] at drained
    cases drained with
    | done steps empty =>
      have sound' := (steps.follows runs (s := Driver.seeded (startOf g)) sound 0).sound
      refine (sound'.run_eq_noMatch_iff live rule).mpr ?_
      exact Driver.quiet_of_steps runs sound proper steps empty n rule enabled
  case sweeps =>
    intro tally g' ran
    rw [fuse_of_not_noop on] at ran
    cases swept : settings.driver.run.run (startOf g) with
    | error e s =>
      rw [swept] at ran
      cases ran
    | ok tally' s =>
      rw [swept] at ran
      cases ran
      unfold Driver.run at swept
      rw [run_get_bind] at swept
      have counted := Driver.sweeps_of_run runs sound proper swept
      rw [counted]
      exact Nat.zero_add _

/-- After two visits of the first sweep a rule would rewrite the apply that the second visit brought in, and it waits.
When the sweep is over, no rule rewrites any node, and the second sweep is the last. -/
theorem fuse_misses_nothing_sharedField :
    let d : Driver Unit := ({} : Settings).driver
    let start : Session Unit := Driver.seeded (startOf Region.sharedField)
    Region.sharedField.Built ∧ Region.sharedField.verify = .ok () ∧ ({} : Settings).isNoop = false ∧
      (∃ s, (d.drain 2).run start = .error .exhausted s ∧
        (Rule.producerInlining.apply ⟨5, 0⟩).run s.region ≠ .ok .noMatch s.region ∧
        ⟨5, 0⟩ ∈ s.agenda.queue) ∧
      (∃ s, (d.drain 13).run start = .ok () s ∧ ∀ n ∈ s.region.order, ∀ rule ∈ ({} : Settings).rules,
        (rule.apply n).run s.region = .ok .noMatch s.region) ∧
      ∃ tally g', (fuse {}).run Region.sharedField = .ok tally g' ∧ tally.rewrites = 5 ∧
        tally.sweeps = 2 := by
  intro d start
  have sound : start.region.Sound :=
    Region.built_sharedField.consistent.sound_iff.mpr Region.verify_sharedField
  have nothing := fuse_misses_nothing Region.built_sharedField Region.verify_sharedField {} rfl
  refine ⟨Region.built_sharedField, Region.verify_sharedField, rfl, ?waits, ?drained, ?sweeps⟩
  case waits =>
    have stops : (d.drain 2).run start = .error .exhausted (stateAfter (d.drain 2) start) :=
      run_of_answer_error (by decide +kernel)
    have live : ⟨5, 0⟩ ∈ (stateAfter (d.drain 2) start).region.order := by decide +kernel
    have answers : answer (Rule.producerInlining.apply ⟨5, 0⟩)
        (stateAfter (d.drain 2) start).region ≠ .ok .noMatch := by decide +kernel
    have rewrites : (Rule.producerInlining.apply ⟨5, 0⟩).run (stateAfter (d.drain 2) start).region ≠
        .ok .noMatch (stateAfter (d.drain 2) start).region := fun refuses =>
      answers (by rw [answer, refuses])
    have steps := Driver.steps_of_exhausted (Settings.runs_driver {}) sound stops
    exact ⟨_, stops, rewrites, nothing.1 _ _ .refl steps _ live _ (by decide) rewrites⟩
  case drained =>
    have ran : (d.drain 13).run start = .ok () (stateAfter (d.drain 13) start) :=
      run_of_answer (by decide +kernel)
    exact ⟨_, ran, nothing.2.1 13 _ ran⟩
  case sweeps =>
    obtain ⟨g', ran⟩ := exists_fuse_sharedField
    exact ⟨_, g', ran, rfl, nothing.2.2 _ g' ran⟩

end KernelFusion
