import KernelFusion.Proofs.Fusion.Rewriting
import KernelFusion.Proofs.Region.Built

/-!
# Fusion fails in one way only

Rewrites of a sound region leave sound regions, so no edit of a rule is refused and no check after a rewrite fails.
What remains is a sum of offsets out of range. And since the checks pass, it makes no difference whether they are
made (`fuse_of_verify`).
-/

namespace KernelFusion

namespace Driver

variable {σ : Type} {s : Session σ} {rules : List Rule} {patterns : PatternSet σ} {verify : Bool}

/-- Drains are the same with and without checks, since every visit is. -/
theorem drain_of_verify (verify' : Bool) (runs : Runs (⟨patterns, verify⟩ : Driver σ) rules)
    (sound : s.region.Sound) (budget : Nat) :
    (drain ⟨patterns, verify⟩ budget).run s = (drain ⟨patterns, verify'⟩ budget).run s := by
  induction budget generalizing s with
  | zero => rfl
  | succ budget ih =>
    have same := step_of_verify verify' runs sound
    have visited := stepped runs sound
    rw [drain, drain]
    cases ran : (step ⟨patterns, verify⟩).run s with
    | error e s₁ =>
      rw [ran] at same
      rw [run_bind_error ran, run_bind_error same.symm]
    | ok moved s₁ =>
      rw [ran] at same visited
      rw [run_bind_ok ran, run_bind_ok same.symm]
      cases moved with
      | none => rfl
      | some moved => exact ih (visited.follows sound 0).sound

theorem sweep_of_verify (verify' : Bool) (runs : Runs (⟨patterns, verify⟩ : Driver σ) rules)
    (sound : s.region.Sound) (visits budget : Nat) :
    (sweep ⟨patterns, verify⟩ visits budget).run s =
      (sweep ⟨patterns, verify'⟩ visits budget).run s := by
  induction budget generalizing s with
  | zero => rfl
  | succ budget ih =>
    have same := drain_of_verify verify' runs (s := seeded s) sound visits
    have first := drained runs (s := seeded s) sound (Nat.le_refl _) visits
    rw [sweep_run sound.consistent, sweep_run sound.consistent]
    cases ran : (drain ⟨patterns, verify⟩ visits).run (seeded s) with
    | error e s₁ =>
      rw [ran] at same
      rw [run_bind_error ran, run_bind_error same.symm]
    | ok _ s₁ =>
      rw [ran] at same first
      rw [run_bind_ok ran, run_bind_ok same.symm, run_get_bind, run_get_bind]
      cases first with
      | done steps _ =>
        have sound₁ : s₁.region.Sound := (steps.follows runs (s := seeded s) sound 0).sound
        by_cases still : s₁.tally.rewrites = s.tally.rewrites
        · rw [if_pos still, if_pos still]
        · rw [if_neg still, if_neg still]
          exact ih sound₁

/-- Runs are the same with and without checks. -/
theorem run_of_verify (verify' : Bool) (runs : Runs (⟨patterns, verify⟩ : Driver σ) rules)
    (sound : s.region.Sound) :
    (run ⟨patterns, verify⟩).run s = (run ⟨patterns, verify'⟩).run s := by
  unfold run
  rw [run_get_bind, run_get_bind]
  exact sweep_of_verify verify' runs sound _ _

end Driver

/-- Fusion is the same with and without checks. -/
theorem fuse_of_verify {g : Region} (sound : g.Sound) (settings : Settings) :
    (fuse { settings with verify := true }).run g =
      (fuse { settings with verify := false }).run g := by
  cases off : settings.isNoop with
  | true =>
    have onNoop : ({ settings with verify := true } : Settings).isNoop = true := off
    have offNoop : ({ settings with verify := false } : Settings).isNoop = true := off
    rw [fuse_of_noop onNoop, fuse_of_noop offNoop]
  | false =>
    have onRuns : ({ settings with verify := true } : Settings).isNoop = false := off
    have offRuns : ({ settings with verify := false } : Settings).isNoop = false := off
    have same := Driver.run_of_verify false (Driver.runs_settings settings true)
      (s := startOf g) sound
    have left : ({ settings with verify := true } : Settings).driver = ⟨settings.patterns, true⟩ := rfl
    have right : ({ settings with verify := false } : Settings).driver = ⟨settings.patterns, false⟩ :=
      rfl
    rw [fuse_of_not_noop onRuns, fuse_of_not_noop offRuns, left, right, same]

/-- Fusion of a region that passes the check ends with a region that does, unless a sum of offsets is out of range;
the check passes after every single rewrite, and it makes no difference whether it is made. -/
theorem fuse_fails_by_overflow_only {g : Region} (built : g.Built) (verified : g.verify = .ok ()) :
    (∀ settings : Settings,
      (∃ tally g', (fuse settings).run g = .ok tally g' ∧ g'.verify = .ok ()) ∨
        ∃ g', (fuse settings).run g = .error (.refused (.arithmetic .addition)) g') ∧
    (∀ g', Relation.ReflTransGen Region.Rewrites g g' → g'.verify = .ok ()) ∧
    (∀ (settings : Settings) (s s' : Session Unit), settings.driver.Course (startOf g) s →
      settings.driver.Steps (Driver.seeded s) s' → s'.region.verify = .ok ()) ∧
    ∀ settings : Settings, (fuse { settings with verify := true }).run g =
      (fuse { settings with verify := false }).run g := by
  have sound : g.Sound := built.consistent.sound_iff.mpr verified
  refine ⟨fun settings => ?ends, fun g' chain => ?chain, fun settings s s' course steps => ?visits,
    fun settings => fuse_of_verify sound settings⟩
  case ends =>
    have ending := fused sound settings
    cases result : (fuse settings).run g with
    | ok tally g' =>
      rw [result] at ending
      have sound' := (ending.becomes sound).1
      exact .inl ⟨tally, g', rfl, sound'.consistent.sound_iff.mp sound'⟩
    | error e g' =>
      rw [result] at ending
      cases ending
      exact .inr ⟨g', rfl⟩
  case chain =>
    have sound' := (Region.becomes_of_rewrites chain sound).1
    exact sound'.consistent.sound_iff.mp sound'
  case visits =>
    have sound₁ := (course.becomes settings.runs_driver (s := startOf g) sound).1
    have sound' := (steps.follows settings.runs_driver (s := Driver.seeded s) sound₁ 0).sound
    exact sound'.consistent.sound_iff.mp sound'

/-- The region with a shared load passes the check after fusion, unless a sum is out of range. -/
theorem fuse_fails_by_overflow_only_sharedField :
    Region.sharedField.Built ∧ Region.sharedField.verify = .ok () ∧
      ((∃ tally g', (fuse {}).run Region.sharedField = .ok tally g' ∧ g'.verify = .ok ()) ∨
        ∃ g', (fuse {}).run Region.sharedField = .error (.refused (.arithmetic .addition)) g') :=
  ⟨Region.built_sharedField, Region.verify_sharedField,
    (fuse_fails_by_overflow_only Region.built_sharedField Region.verify_sharedField).1 {}⟩

end KernelFusion
