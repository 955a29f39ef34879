import KernelFusion.Proofs.Fusion.Rewriting
import KernelFusion.Proofs.Region.Built

/-!
# Rewriting comes to an end

There is no endless sequence of rewrites from a sound region, whichever rules are applied, wherever and in whatever
order: the potential goes down (`Region.exists_stop`). So a drain comes to an end when it may make enough visits,
and a run within the budget that it has, and more visits and sweeps than that would change nothing.
-/

namespace KernelFusion

namespace Region

variable {g : Region}

/-- Every sequence of regions that starts with a sound one has a place where no rule rewrites a region into the
next. -/
theorem exists_stop (sound : g.Sound) (regions : Nat → Region) (start : regions 0 = g) :
    ∃ i, ¬ (regions i).Rewrites (regions (i + 1)) := by
  by_contra endless
  have rewrites : ∀ i, (regions i).Rewrites (regions (i + 1)) := fun i =>
    not_not.mp fun stop => endless ⟨i, stop⟩
  -- Each rewrite takes one off the potential.
  have paid (i : Nat) : (regions i).Sound ∧ (regions i).reach ≤ g.reach ∧
      (regions i).potential g.reach + i ≤ g.potential g.reach := by
    induction i with
    | zero =>
      rw [start]
      exact ⟨sound, Nat.le_refl _, Nat.le_refl _⟩
    | succ i ih =>
      rcases ih with ⟨sound', within, paid⟩
      rcases (rewrites i).becomes sound' with ⟨rule, n, created, rewrote⟩
      have lower := rewrote.potential_lt sound' within
      exact ⟨rewrote.sound sound', (rewrote.reach_le sound').trans within, by omega⟩
  have last := (paid (g.potential g.reach + 1)).2.2
  omega

end Region

namespace Driver

variable {σ : Type} {d : Driver σ} {s : Session σ} {rules : List Rule}

/-- A part of a run ends, with a result or with a sum of offsets out of range. -/
def Ends {α : Type} : EStateM.Result Failure (Session σ) α → Prop
  | .ok _ _ => True
  | .error e _ => e = .refused (.arithmetic .addition)

theorem Ends.ne_exhausted {α : Type} {s' : Session σ}
    (ends : Ends (.error .exhausted s' : EStateM.Result Failure (Session σ) α)) : False := by
  cases ends

/-- A drain that ends does so with every larger budget, in the same way. -/
theorem drain_of_le {budget budget' : Nat} (ends : Ends ((d.drain budget).run s))
    (le : budget ≤ budget') : (d.drain budget').run s = (d.drain budget).run s := by
  induction budget generalizing s budget' with
  | zero => exact ends.ne_exhausted.elim
  | succ budget ih =>
    cases budget' with
    | zero => exact absurd le (Nat.not_succ_le_zero _)
    | succ budget' =>
    rw [drain] at ends ⊢
    rw [drain]
    cases ran : d.step.run s with
    | error e s₁ => rw [run_bind_error ran, run_bind_error ran]
    | ok moved s₁ =>
      rw [run_bind_ok ran] at ends
      rw [run_bind_ok ran, run_bind_ok ran]
      cases moved with
      | none => rfl
      | some moved => exact ih ends (Nat.le_of_succ_le_succ le)

/-- Sweeps that end do so with larger budgets, in the same way. -/
theorem sweep_of_le {visits visits' budget budget' : Nat}
    (ends : Ends ((d.sweep visits budget).run s)) (leVisits : visits ≤ visits')
    (le : budget ≤ budget') :
    (d.sweep visits' budget').run s = (d.sweep visits budget).run s := by
  induction budget generalizing s budget' with
  | zero => exact ends.ne_exhausted.elim
  | succ budget ih =>
    cases budget' with
    | zero => exact absurd le (Nat.not_succ_le_zero _)
    | succ budget' =>
    cases marking : s.agenda.markLive s.region s.region.order with
    | error e => rw [sweep_of_refused marking, sweep_of_refused marking]
    | ok agenda =>
    rw [sweep_of_marked marking] at ends ⊢
    rw [sweep_of_marked marking]
    generalize Session.mk s.region s.state agenda (begun s.tally) = start at ends ⊢
    -- A sweep that ends has not run out of visits, so what it drains has come to an end as well.
    have endsDrain : Ends ((d.drain visits).run start) := by
      cases ran : (d.drain visits).run start with
      | ok => trivial
      | error e s₁ =>
        rw [run_bind_error ran] at ends
        exact ends
    have same := drain_of_le endsDrain leVisits
    cases ran : (d.drain visits).run start with
    | error e s₁ =>
      rw [ran] at same
      rw [run_bind_error ran, run_bind_error same]
    | ok _ s₁ =>
      rw [ran] at same
      rw [run_bind_ok ran, run_get_bind] at ends
      rw [run_bind_ok ran, run_bind_ok same, run_get_bind, run_get_bind]
      by_cases still : s₁.tally.rewrites = s.tally.rewrites
      · rw [if_pos still, if_pos still]
      · rw [if_neg still] at ends
        rw [if_neg still, if_neg still]
        exact ih ends (Nat.le_of_succ_le_succ le)

/-- A drain ends if it may make more visits than the load. -/
theorem ends_drain (runs : d.Runs rules) (sound : s.region.Sound) {budget : Nat}
    (enough : load s.region.reach s < budget) : Ends ((d.drain budget).run s) := by
  have drained := drained runs sound (Nat.le_refl _) budget
  generalize (d.drain budget).run s = result at drained
  cases drained with
  | done => trivial
  | overflow => rfl
  | exhausted short => exact absurd enough (Nat.not_lt.mpr short)

theorem ends_run (runs : d.Runs rules) (sound : s.region.Sound) : Ends (d.run.run s) := by
  have swept := ran runs sound
  generalize d.run.run s = result at swept
  cases swept with
  | done => trivial
  | overflow => rfl

end Driver

open Driver

/-- Rewriting comes to an end: there is no endless sequence of rewrites, and from every region that rewrites lead to
every drain and every run ends, whatever the agenda, where a bound on visits and sweeps makes no difference. -/
theorem rewriting_ends {g : Region} (built : g.Built) (verified : g.verify = .ok ()) :
    (∀ regions : Nat → Region, regions 0 = g →
      ∃ i, ¬ (regions i).Rewrites (regions (i + 1))) ∧
    ∀ g', Relation.ReflTransGen Region.Rewrites g g' → ∀ (settings : Settings) (s : Session Unit),
      s.region = g' →
      (∃ enough, Ends ((settings.driver.drain enough).run s) ∧ ∀ budget, enough ≤ budget →
        (settings.driver.drain budget).run s = (settings.driver.drain enough).run s) ∧
      Ends (settings.driver.run.run s) ∧ ∀ visits sweeps,
        budget s.region s.agenda ≤ visits → budget s.region s.agenda ≤ sweeps →
          (settings.driver.sweep visits sweeps).run s = settings.driver.run.run s := by
  have sound : g.Sound := built.consistent.sound_iff.mpr verified
  refine ⟨fun regions start => Region.exists_stop sound regions start, ?_⟩
  intro g' chain settings s same
  have runs := settings.runs_driver
  have sound' : s.region.Sound := same ▸ (Region.becomes_of_rewrites chain sound).1
  have ends : Ends (settings.driver.run.run s) := ends_run runs sound'
  have drains : Ends ((settings.driver.drain (load s.region.reach s + 1)).run s) :=
    ends_drain runs sound' (Nat.lt_succ_self _)
  refine ⟨⟨_, drains, fun budget le => drain_of_le drains le⟩, ends, fun visits sweeps le le' => ?_⟩
  unfold Driver.run at ends ⊢
  rw [run_get_bind] at ends ⊢
  exact sweep_of_le ends le le'

/-- Behind the introduction of a root, with one of its readers on the agenda, drains come to the same end for all budgets
from some on, and runs for all budgets from their own on. -/
theorem rewriting_ends_sharedField :
    Region.sharedField.Built ∧ Region.sharedField.verify = .ok () ∧
      (∀ regions : Nat → Region, regions 0 = Region.sharedField →
        ∃ i, ¬ (regions i).Rewrites (regions (i + 1))) ∧
      ∃ g', Region.sharedField.Rewrites g' ∧
        let s : Session Unit := { region := g', state := (), agenda := Agenda.empty.mark ⟨1, 0⟩ }
        (∃ s' enough, ∀ budget, enough ≤ budget →
          (({} : Settings).driver.drain budget).run s = .ok () s') ∧
        ∃ s', ∀ visits sweeps, budget g' s.agenda ≤ visits → budget g' s.agenda ≤ sweeps →
          (({} : Settings).driver.sweep visits sweeps).run s = .ok ⟨0, 2, 2, 10, 2⟩ s' := by
  have ending := rewriting_ends Region.built_sharedField Region.verify_sharedField
  have rewritten : (Rule.rootIntroduction.apply ⟨0, 0⟩).run Region.sharedField = .ok
      (.rewritten [⟨3, 0⟩, ⟨4, 0⟩]) (stateAfter (Rule.rootIntroduction.apply ⟨0, 0⟩) Region.sharedField) :=
    run_of_answer (by decide +kernel)
  refine ⟨Region.built_sharedField, Region.verify_sharedField, ending.1, _, ⟨_, _, _, rewritten⟩, ?_⟩
  intro s
  obtain ⟨⟨enough, -, stable⟩, -, bounded⟩ := ending.2 _ (.single ⟨_, _, _, rewritten⟩) {} s rfl
  have drained : (({} : Settings).driver.drain 20).run s =
      .ok () (stateAfter (({} : Settings).driver.drain 20) s) := run_of_answer (by decide +kernel)
  have ran : ({} : Settings).driver.run.run s =
      .ok ⟨0, 2, 2, 10, 2⟩ (stateAfter ({} : Settings).driver.run s) :=
    run_of_answer (by decide +kernel)
  refine ⟨⟨stateAfter (({} : Settings).driver.drain 20) s, enough, fun budget le => ?drains⟩,
    _, fun visits sweeps le le' => (bounded visits sweeps le le').trans ran⟩
  case drains =>
    -- A budget that is larger than both is one for which the drain is known from both sides.
    have ends : Ends ((({} : Settings).driver.drain 20).run s) := by rw [drained]; trivial
    rw [stable budget le, ← stable _ (Nat.le_max_right 20 enough),
      drain_of_le ends (Nat.le_max_left 20 enough), drained]

end KernelFusion
