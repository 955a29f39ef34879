import Mathlib.Tactic.Ring
import KernelFusion.Proofs.Rewrite.Potential
import KernelFusion.Proofs.Rewrite.Visiting

/-!
# What a run does

A drain is a sequence of visits (`Driver.Steps`) up to a session in which nothing waits, and a run is a sequence of
sweeps, each of which puts all nodes on the agenda and drains it. On a sound region both end, with a result or with
a sum of offsets out of range, when the budget allows as many visits as the queue and the potential of the region
ask for (`Driver.drained`, `Driver.swept`); the budget of `Driver.run` does (`Driver.ran`). A drain whose budget is too
small stops after as many visits as it was allowed, so these drains reach the sessions of a run one after the other
(`Driver.steps_iff_exhausted`).
-/

namespace KernelFusion

namespace Driver

variable {σ : Type} {d : Driver σ} {s s' : Session σ} {rules : List Rule} {bound : Nat}

/-! ## What every visit keeps -/

theorem rewrites_record (t : Tally) (rule : Rule) : (t.record rule).rewrites = t.rewrites + 1 := by
  cases rule <;> simp only [Tally.record, Tally.rewrites] <;> omega

theorem sweeps_record (t : Tally) (rule : Rule) : (t.record rule).sweeps = t.sweeps := by
  cases rule <;> rfl

theorem rewrites_counted (t : Tally) : (counted t).rewrites = t.rewrites := rfl

/-- What a part of a run leaves, compared with what it started from. The potential pays for the rewrites. -/
structure Follows (bound : Nat) (s s' : Session σ) : Prop where
  sound : s'.region.Sound
  reach : s'.region.reach ≤ s.region.reach
  rewrites : s.tally.rewrites ≤ s'.tally.rewrites
  paid : s.region.reach ≤ bound → s'.region.potential bound + s'.tally.rewrites ≤
    s.region.potential bound + s.tally.rewrites
  sweeps : s'.tally.sweeps = s.tally.sweeps

theorem Follows.refl (sound : s.region.Sound) : Follows bound s s :=
  ⟨sound, Nat.le_refl _, Nat.le_refl _, fun _ => Nat.le_refl _, rfl⟩

theorem Follows.trans {s'' : Session σ} (first : Follows bound s s') (second : Follows bound s' s'') :
    Follows bound s s'' where
  sound := second.sound
  reach := second.reach.trans first.reach
  rewrites := first.rewrites.trans second.rewrites
  paid within := (second.paid (first.reach.trans within)).trans (first.paid within)
  sweeps := second.sweeps.trans first.sweeps

/-- A visit pays for its rewrite with the potential. -/
theorem Stepped.follows {result : Option Bool} (stepped : Stepped rules s (.ok result s'))
    (sound : s.region.Sound) (bound : Nat) : Follows bound s s' := by
  cases stepped with
  | idle => exact .refl sound
  | passed => exact ⟨sound, Nat.le_refl _, Nat.le_refl _, fun _ => Nat.le_refl _, rfl⟩
  | unmatched => exact ⟨sound, Nat.le_refl _, Nat.le_refl _, fun _ => Nat.le_refl _, rfl⟩
  | rewritten _ _ _ rewrote _ _ =>
    refine ⟨rewrote.sound sound, rewrote.reach_le sound, ?_, fun within => ?_, ?_⟩
    · rw [rewrites_record, rewrites_counted]
      exact Nat.le_succ _
    · have lower := rewrote.potential_lt sound within
      rw [rewrites_record, rewrites_counted]
      dsimp only
      omega
    · rw [sweeps_record]
      rfl

/-- How many visits can still come before nothing waits. -/
noncomputable def load (bound : Nat) (s : Session σ) : Nat :=
  s.agenda.queue.length + s.region.potential bound * bound

/-- Every visit leaves fewer to come. -/
theorem Stepped.load_lt {moved : Bool} (stepped : Stepped rules s (.ok (some moved) s'))
    (sound : s.region.Sound) (within : s.region.reach ≤ bound) :
    load bound s' < load bound s := by
  unfold load
  cases stepped with
  | passed taken _ =>
    rw [(Agenda.next?_eq_some_iff.mp taken).1, List.length_cons]
    dsimp only
    omega
  | unmatched taken _ =>
    rw [(Agenda.next?_eq_some_iff.mp taken).1, List.length_cons]
    dsimp only
    omega
  | @rewritten n agenda rule created around g' taken _ _ rewrote _ _ =>
    have lower : g'.potential bound + 1 ≤ s.region.potential bound := rewrote.potential_lt sound within
    have paid := Nat.mul_le_mul_right bound lower
    have marked : (agenda.markAll g' around).queue.length ≤ agenda.queue.length + g'.order.length :=
      Agenda.length_queue_markAll
    have small : g'.order.length ≤ bound :=
      ((Nat.le_add_right _ _).trans (rewrote.reach_le sound)).trans within
    rw [(Agenda.next?_eq_some_iff.mp taken).1, List.length_cons]
    rw [Nat.succ_mul] at paid
    dsimp only
    omega

/-! ## Drains -/

/-- From a session to another by visits. -/
inductive Steps (d : Driver σ) (s : Session σ) : Session σ → Prop
  | refl : Steps d s s
  | visit {s' s'' : Session σ} {moved : Bool} : Steps d s s' →
    d.step.run s' = .ok (some moved) s'' → Steps d s s''

theorem Steps.trans {s'' : Session σ} (first : d.Steps s s') (second : d.Steps s' s'') :
    d.Steps s s'' := by
  induction second with
  | refl => exact first
  | visit _ ran ih => exact .visit ih ran

/-- A property of sessions that each visit keeps is kept by all. -/
theorem Steps.keeps (steps : d.Steps s s') (runs : d.Runs rules) (good : Session σ → Prop)
    (keeps : ∀ s s' moved, s.region.Sound → good s → Stepped rules s (.ok (some moved) s') → good s')
    (sound : s.region.Sound) (start : good s) : s'.region.Sound ∧ good s' := by
  induction steps with
  | refl => exact ⟨sound, start⟩
  | @visit s₁ s₂ moved _ ran ih =>
    rcases ih with ⟨sound₁, good₁⟩
    have step := stepped runs sound₁
    rw [ran] at step
    exact ⟨(step.follows sound₁ 0).sound, keeps s₁ s₂ moved sound₁ good₁ step⟩

theorem Steps.follows (steps : d.Steps s s') (runs : d.Runs rules) (sound : s.region.Sound)
    (bound : Nat) : Follows bound s s' :=
  (steps.keeps runs (Follows bound s)
    (fun _ _ _ sound₁ first step => first.trans (step.follows sound₁ bound)) sound (.refl sound)).2

/-- The ways in which a drain can end. The budget is used up only if it allows too few visits. -/
inductive Drained (d : Driver σ) (bound budget : Nat) (s : Session σ) :
    EStateM.Result Failure (Session σ) Unit → Prop
  | done {s' : Session σ} : d.Steps s s' → s'.agenda.queue = [] →
    Drained d bound budget s (.ok () s')
  | overflow {s₁ s' : Session σ} {rule : Rule} {n : NodeId} : d.Steps s s₁ →
    (rule.apply n).run s₁.region = .error (.arithmetic .addition) s₁.region →
    s'.region = s₁.region → Drained d bound budget s (.error (.refused (.arithmetic .addition)) s')
  | exhausted {s' : Session σ} : budget ≤ load bound s →
    Drained d bound budget s (.error .exhausted s')

/-- A drain ends in one of these ways, by induction on the budget: each visit lowers the load. -/
theorem drained (runs : d.Runs rules) (sound : s.region.Sound) (within : s.region.reach ≤ bound)
    (budget : Nat) : Drained d bound budget s ((d.drain budget).run s) := by
  induction budget generalizing s with
  | zero => exact .exhausted (Nat.zero_le _)
  | succ budget ih =>
    have step := stepped runs sound
    rw [drain]
    cases ran : d.step.run s with
    | error e s₁ =>
      rw [ran] at step
      rw [run_bind_error ran]
      cases step with
      | overflow _ failed => exact .overflow .refl failed rfl
    | ok moved s₁ =>
      rw [ran] at step
      rw [run_bind_ok ran]
      cases moved with
      | none =>
        cases step with
        | idle empty => exact .done .refl empty
      | some moved =>
        -- The visit has lowered the load, so the rest of the budget is short of the new one as well.
        have less := step.load_lt sound within
        have follows := step.follows sound bound
        have later := ih follows.sound (follows.reach.trans within)
        dsimp only
        generalize (d.drain budget).run s₁ = result at later
        cases later with
        | done steps empty => exact .done ((Steps.refl.visit ran).trans steps) empty
        | overflow steps failed same =>
          exact .overflow ((Steps.refl.visit ran).trans steps) failed same
        | exhausted short => exact .exhausted (by omega)

theorem drain_of_visit {s₁ : Session σ} {moved : Bool} (visit : d.step.run s = .ok (some moved) s₁)
    (budget : Nat) : (d.drain (budget + 1)).run s = (d.drain budget).run s₁ := by
  rw [drain, run_bind_ok visit]

/-- A drain that uses up its budget makes a visit and uses up the rest: a visit itself has no budget. -/
theorem exists_visit_of_exhausted (runs : d.Runs rules) (sound : s.region.Sound) {budget : Nat}
    (ran : (d.drain (budget + 1)).run s = .error .exhausted s') :
    ∃ moved s₁, d.step.run s = .ok (some moved) s₁ ∧ s₁.region.Sound ∧
      (d.drain budget).run s₁ = .error .exhausted s' := by
  have step := stepped runs sound
  rw [drain] at ran
  cases first : d.step.run s with
  | error e s₁ =>
    rw [run_bind_error first] at ran
    rw [first] at step
    cases ran
    cases step
  | ok moved s₁ =>
    rw [run_bind_ok first] at ran
    rw [first] at step
    cases moved with
    | none => cases ran
    | some moved => exact ⟨moved, s₁, rfl, (step.follows sound 0).sound, ran⟩

/-- A drain with a smaller budget stops in a session that visits lead to. -/
theorem steps_of_exhausted (runs : d.Runs rules) (sound : s.region.Sound) {budget : Nat}
    (ran : (d.drain budget).run s = .error .exhausted s') : d.Steps s s' := by
  induction budget generalizing s with
  | zero =>
    cases ran
    exact .refl
  | succ budget ih =>
    obtain ⟨moved, s₁, visit, sound₁, rest⟩ := exists_visit_of_exhausted runs sound ran
    exact (Steps.refl.visit visit).trans (ih sound₁ rest)

/-- A drain that stops before a visit stops behind it if it may make one visit more. -/
theorem exhausted_succ {s'' : Session σ} {moved : Bool} {budget : Nat} (runs : d.Runs rules)
    (sound : s.region.Sound) (ran : (d.drain budget).run s = .error .exhausted s')
    (next : d.step.run s' = .ok (some moved) s'') :
    (d.drain (budget + 1)).run s = .error .exhausted s'' := by
  induction budget generalizing s with
  | zero =>
    cases ran
    rw [drain_of_visit next]
    rfl
  | succ budget ih =>
    obtain ⟨_, s₁, visit, sound₁, rest⟩ := exists_visit_of_exhausted runs sound ran
    rw [drain_of_visit visit]
    exact ih sound₁ rest

/-- The sessions that visits lead to are those in which drains with smaller budgets stop. -/
theorem steps_iff_exhausted (runs : d.Runs rules) (sound : s.region.Sound) :
    d.Steps s s' ↔ ∃ budget, (d.drain budget).run s = .error .exhausted s' := by
  constructor
  · intro steps
    induction steps with
    | refl => exact ⟨0, rfl⟩
    | visit _ next ih =>
      obtain ⟨budget, ran⟩ := ih
      exact ⟨budget + 1, exhausted_succ runs sound ran next⟩
  · intro stops
    obtain ⟨budget, ran⟩ := stops
    exact steps_of_exhausted runs sound ran

/-! ## Sweeps -/

/-- A session at the start of a sweep: all nodes are on the agenda. -/
def seeded (s : Session σ) : Session σ :=
  { s with
    tally := { s.tally with sweeps := s.tally.sweeps + 1 }
    agenda := s.agenda.markAll s.region s.region.order }

/-- From a session to another by sweeps, the last of which may be under way. -/
inductive Course (d : Driver σ) (s : Session σ) : Session σ → Prop
  | refl : Course d s s
  | sweep {s' s'' : Session σ} : Course d s s' → d.Steps (seeded s') s'' → Course d s s''

theorem Course.trans {s'' : Session σ} (first : d.Course s s') (second : d.Course s' s'') :
    d.Course s s'' := by
  induction second with
  | refl => exact first
  | sweep _ steps ih => exact .sweep ih steps

/-- A property of sessions that each visit keeps, and the seeding of a sweep, is kept by all sweeps. -/
theorem Course.keeps (course : d.Course s s') (runs : d.Runs rules) (good : Session σ → Prop)
    (keeps : ∀ s s' moved, s.region.Sound → good s → Stepped rules s (.ok (some moved) s') → good s')
    (seeds : ∀ s, good s → good (seeded s)) (sound : s.region.Sound) (start : good s) :
    s'.region.Sound ∧ good s' := by
  induction course with
  | refl => exact ⟨sound, start⟩
  | @sweep s₁ s₂ _ steps ih =>
    rcases ih with ⟨sound₁, good₁⟩
    exact steps.keeps runs good keeps (s := seeded s₁) sound₁ (seeds s₁ good₁)

/-- Counts a sweep. -/
def begun (t : Tally) : Tally := { t with sweeps := t.sweeps + 1 }

/-- The first drain of a sequence of sweeps, and what comes behind it. -/
theorem sweep_of_marked {agenda : Agenda}
    (marked : s.agenda.markLive s.region s.region.order = .ok agenda) {visits budget : Nat} :
    (d.sweep visits (budget + 1)).run s = (do
      d.drain visits
      let s' ← get
      if s'.tally.rewrites = s.tally.rewrites then return s'.tally
      else d.sweep visits budget : Run σ Tally).run
        { s with agenda := agenda, tally := begun s.tally } := by
  rw [sweep, run_get_bind, run_bind_ok (EStateM.run_set _ _), run_bind_ok (require_ok marked)]
  rfl

/-- A sweep that cannot put the nodes on the agenda stops there. -/
theorem sweep_of_refused {e : Error}
    (refused : s.agenda.markLive s.region s.region.order = .error e) {visits budget : Nat} :
    (d.sweep visits (budget + 1)).run s = .error (.refused e) { s with tally := begun s.tally } := by
  rw [sweep, run_get_bind, run_bind_ok (EStateM.run_set _ _),
    run_bind_error (require_error refused)]
  rfl

/-- On a consistent region a sweep starts by putting all nodes on the agenda, which succeeds. -/
theorem sweep_run (c : s.region.Consistent) {visits budget : Nat} :
    (d.sweep visits (budget + 1)).run s = (do
      d.drain visits
      let s' ← get
      if s'.tally.rewrites = s.tally.rewrites then return s'.tally
      else d.sweep visits budget : Run σ Tally).run (seeded s) :=
  sweep_of_marked (Agenda.markLive_eq c s.agenda s.region.order)

/-- The ways in which a sequence of sweeps can end that is long enough. -/
inductive Swept (d : Driver σ) (s : Session σ) : EStateM.Result Failure (Session σ) Tally → Prop
  | done {s' : Session σ} : d.Course s s' → Swept d s (.ok s'.tally s')
  | overflow {s₁ s' : Session σ} {rule : Rule} {n : NodeId} : d.Course s s₁ →
    (rule.apply n).run s₁.region = .error (.arithmetic .addition) s₁.region →
    s'.region = s₁.region → Swept d s (.error (.refused (.arithmetic .addition)) s')

/-- Sweeps end in one of these ways, by induction on the budget: a sweep that rewrites lowers the potential. -/
theorem swept (runs : d.Runs rules) (sound : s.region.Sound) (within : s.region.reach ≤ bound)
    {visits budget : Nat}
    (visitsEnough : s.agenda.queue.length + bound + s.region.potential bound * bound < visits)
    (sweepsEnough : s.region.potential bound < budget) :
    Swept d s ((d.sweep visits budget).run s) := by
  induction budget generalizing s with
  | zero => exact absurd sweepsEnough (Nat.not_lt_zero _)
  | succ budget ih =>
    rw [sweep_run sound.consistent]
    have marked : (seeded s).agenda.queue.length ≤ s.agenda.queue.length + s.region.order.length :=
      Agenda.length_queue_markAll
    have small : s.region.order.length ≤ bound := (Nat.le_add_right _ _).trans within
    have first := drained runs (s := seeded s) sound within visits
    cases ran : (d.drain visits).run (seeded s) with
    | error e s₁ =>
      rw [ran] at first
      rw [run_bind_error ran]
      cases first with
      | overflow steps failed same => exact .overflow (Course.refl.sweep steps) failed same
      | exhausted short =>
        unfold load at short
        change _ ≤ _ + s.region.potential bound * bound at short
        omega
    | ok _ s₁ =>
      rw [ran] at first
      rw [run_bind_ok ran, run_get_bind]
      cases first with
      | done steps empty =>
        have course : d.Course s s₁ := Course.refl.sweep steps
        have follows : Follows bound (seeded s) s₁ := steps.follows runs sound bound
        by_cases still : s₁.tally.rewrites = s.tally.rewrites
        · rw [if_pos still]
          exact .done course
        · rw [if_neg still]
          -- Something was rewritten, so the potential has gone down.
          have more : s.tally.rewrites ≤ s₁.tally.rewrites := follows.rewrites
          have paid : s₁.region.potential bound + s₁.tally.rewrites ≤
              s.region.potential bound + s.tally.rewrites := follows.paid within
          have less := Nat.mul_le_mul_right bound
            (show s₁.region.potential bound ≤ s.region.potential bound by omega)
          have later := ih follows.sound (follows.reach.trans within)
            (by rw [empty, List.length_nil]; omega) (by omega)
          generalize (d.sweep visits budget).run s₁ = result at later
          cases later with
          | done course' => exact .done (course.trans course')
          | overflow course' failed same => exact .overflow (course.trans course') failed same

/-! ## Whole runs -/

/-- The budget of a run allows more visits than can come, and more sweeps. -/
theorem enough_budget (s : Session σ) :
    s.agenda.queue.length + s.region.reach + s.region.potential s.region.reach * s.region.reach <
        budget s.region s.agenda ∧
      s.region.potential s.region.reach < budget s.region s.agenda := by
  have potential : s.region.potential s.region.reach < 24 * (s.region.order.length + 1) ^ 4 :=
    Region.potential_lt_pow
  have reach : s.region.reach ≤ 2 * s.region.order.length := by
    have loads : s.region.sharedLoads ≤ s.region.order.length := Region.sharedLoads_le
    unfold Region.reach
    omega
  unfold budget
  simp only [Nat.pow_eq]
  generalize sizeEq : s.region.order.length + s.region.outputs.length + s.agenda.queue.length + 2 =
    size
  have small : s.region.order.length + 1 ≤ size := by omega
  have potential' : s.region.potential s.region.reach ≤ 24 * size ^ 4 :=
    potential.le.trans (Nat.mul_le_mul_left 24 (Nat.pow_le_pow_left small 4))
  have product : s.region.potential s.region.reach * s.region.reach ≤ 24 * size ^ 4 * (2 * size) :=
    Nat.mul_le_mul potential' (by omega)
  have regroup : 24 * size ^ 4 * (2 * size) = 48 * size ^ 5 := by ring
  have one : 0 < size := by omega
  have pow₁ : size ^ 1 ≤ size ^ 8 := Nat.pow_le_pow_right one (by omega)
  have pow₄ : size ^ 4 ≤ size ^ 8 := Nat.pow_le_pow_right one (by omega)
  have pow₅ : size ^ 5 ≤ size ^ 8 := Nat.pow_le_pow_right one (by omega)
  rw [Nat.pow_one] at pow₁
  omega

/-- A run of rules on a sound region ends, with a result or with a sum of offsets out of range. -/
theorem ran (runs : d.Runs rules) (sound : s.region.Sound) : Swept d s (d.run.run s) := by
  have enough := enough_budget s
  unfold run
  rw [run_get_bind]
  exact swept runs sound (Nat.le_refl _) enough.1 enough.2

end Driver

end KernelFusion
