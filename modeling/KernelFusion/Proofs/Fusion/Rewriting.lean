import Mathlib.Logic.Relation
import KernelFusion.Proofs.Region.Built
import KernelFusion.Proofs.Rewrite.Running

/-!
# Sequences of rewrites

A region turns into another by rewrites, of any rules at any nodes in any order (`Region.Rewrites`). Sound regions
turn into sound ones only, and what every rewrite keeps a sequence keeps (`Region.keeps_of_becomes`). Fusion is one
way to rewrite: the region it ends with, and every region on the way, is reached from the given one by rewrites
(`Driver.Course.becomes`, `fuse_ends`).
-/

namespace KernelFusion

namespace Region

variable {g g' : Region}

/-- A rule rewrites a region into another. -/
def Rewrites (g g' : Region) : Prop :=
  ∃ (rule : Rule) (n : NodeId) (created : List NodeId),
    (rule.apply n).run g = .ok (.rewritten created) g'

/-- A region is what a rule leaves of another. -/
def Becomes (g g' : Region) : Prop :=
  ∃ rule n created, g.Rewrote g' rule n created

/-- On a sound region, what a rule answers and what it leaves agree. -/
theorem Rewrites.becomes (rewrites : g.Rewrites g') (sound : g.Sound) : g.Becomes g' := by
  rcases rewrites with ⟨rule, n, created, ran⟩
  rcases sound.rewrote ran with ⟨noMatch, -⟩ | ⟨_, -, rewrote⟩
  · cases noMatch
  · exact ⟨rule, n, _, rewrote⟩

theorem Becomes.sound (becomes : g.Becomes g') (sound : g.Sound) : g'.Sound := by
  rcases becomes with ⟨rule, n, created, rewrote⟩
  exact rewrote.sound sound

/-- A sequence of rewrites from a sound region passes through sound regions. -/
theorem becomes_of_rewrites (chain : Relation.ReflTransGen Rewrites g g') (sound : g.Sound) :
    g'.Sound ∧ Relation.ReflTransGen Becomes g g' := by
  induction chain with
  | refl => exact ⟨sound, .refl⟩
  | tail _ rewrites ih =>
    rcases ih with ⟨sound', chain⟩
    have becomes := rewrites.becomes sound'
    exact ⟨becomes.sound sound', chain.tail becomes⟩

/-- What every rewrite of a sound region keeps, a sequence of rewrites keeps. -/
theorem keeps_of_becomes (keeps : Region → Prop)
    (step : ∀ g₁ g₂ rule n created, g₁.Sound → keeps g₁ → g₁.Rewrote g₂ rule n created → keeps g₂)
    (chain : Relation.ReflTransGen Becomes g g') (sound : g.Sound) (start : keeps g) :
    g'.Sound ∧ keeps g' := by
  induction chain with
  | refl => exact ⟨sound, start⟩
  | tail _ becomes ih =>
    rcases ih with ⟨sound₁, kept⟩
    have sound₂ := becomes.sound sound₁
    rcases becomes with ⟨rule, n, created, rewrote⟩
    exact ⟨sound₂, step _ _ rule n created sound₁ kept rewrote⟩

end Region

/-! ## Rewrites by a driver -/

namespace Driver

variable {σ : Type} {d : Driver σ} {s s' : Session σ} {rules : List Rule} {g : Region}

theorem Stepped.becomes {moved : Bool} (stepped : Stepped rules s (.ok (some moved) s'))
    (chain : Relation.ReflTransGen Region.Becomes g s.region) :
    Relation.ReflTransGen Region.Becomes g s'.region := by
  cases stepped with
  | passed => exact chain
  | unmatched => exact chain
  | rewritten _ _ _ rewrote _ _ => exact chain.tail ⟨_, _, _, rewrote⟩

/-- What sweeps leave is reached by rewrites. -/
theorem Course.becomes (course : d.Course s s') (runs : d.Runs rules) (sound : s.region.Sound) :
    s'.region.Sound ∧ Relation.ReflTransGen Region.Becomes s.region s'.region :=
  course.keeps runs (fun s' => Relation.ReflTransGen Region.Becomes s.region s'.region)
    (fun _ _ _ _ chain step => step.becomes chain) (fun _ chain => chain) sound .refl

end Driver

/-! ## Fusion -/

namespace Settings

/-- The driver that fusion uses. -/
def driver (settings : Settings) : Driver Unit := ⟨settings.patterns, settings.verify⟩

theorem runs_driver (settings : Settings) : settings.driver.Runs settings.rules :=
  Driver.runs_settings settings settings.verify

/-- Settings do nothing exactly if no rule is on. -/
theorem isNoop_iff (settings : Settings) : settings.isNoop = true ↔ settings.rules = [] := by
  rcases settings with ⟨inline, reroute, root, verify⟩
  cases inline <;> cases reroute <;> cases root <;> simp [isNoop, rules]

theorem isEmpty_patterns (settings : Settings) {σ : Type} :
    (settings.patterns : PatternSet σ).isEmpty = settings.isNoop := by
  rw [Bool.eq_iff_iff, isNoop_iff, PatternSet.isEmpty, List.isEmpty_iff,
    List.eq_nil_iff_forall_not_mem, List.eq_nil_iff_forall_not_mem]
  simp only [settings.mem_patterns]
  constructor
  · intro none rule enabled
    exact none rule.pattern ⟨rule, enabled, rfl⟩
  · intro none p isRule
    rcases isRule with ⟨rule, enabled, -⟩
    exact none rule enabled

end Settings

/-- The session in which fusion starts. -/
def startOf (g : Region) : Session Unit := { region := g, state := () }

/-- The ways in which fusion can end. -/
inductive Fused (settings : Settings) (g : Region) : EStateM.Result Failure Region Tally → Prop
  | noop : settings.isNoop = true → Fused settings g (.ok {} g)
  | done {s : Session Unit} : settings.isNoop = false → settings.driver.Course (startOf g) s →
    Fused settings g (.ok s.tally s.region)
  | overflow {s : Session Unit} {g' : Region} {rule : Rule} {n : NodeId} : settings.isNoop = false →
    settings.driver.Course (startOf g) s →
    (rule.apply n).run s.region = .error (.arithmetic .addition) s.region → g' = s.region →
    Fused settings g (.error (.refused (.arithmetic .addition)) g')

theorem fuse_of_noop {settings : Settings} (off : settings.isNoop = true) (g : Region) :
    (fuse settings).run g = .ok {} g := by
  change fuse settings g = _
  rw [fuse, settings.isEmpty_patterns, off, if_pos rfl]

/-- Fusion with a rule on is a run of the driver. -/
theorem fuse_of_not_noop {settings : Settings} (on : settings.isNoop = false) (g : Region) :
    (fuse settings).run g =
      match settings.driver.run.run (startOf g) with
      | .ok tally s => .ok tally s.region
      | .error e s => .error e s.region := by
  change fuse settings g = _
  have same : (Driver.run ⟨settings.patterns, settings.verify⟩).run { region := g, state := () } =
      settings.driver.run.run (startOf g) := rfl
  cases ran : settings.driver.run.run (startOf g) with
  | ok tally s => rw [fuse, settings.isEmpty_patterns, on, if_neg Bool.false_ne_true, same, ran]
  | error e s => rw [fuse, settings.isEmpty_patterns, on, if_neg Bool.false_ne_true, same, ran]

/-- Fusion ends in one of these ways. -/
theorem fused {g : Region} (sound : g.Sound) (settings : Settings) :
    Fused settings g ((fuse settings).run g) := by
  cases off : settings.isNoop with
  | true =>
    rw [fuse_of_noop off]
    exact .noop off
  | false =>
    rw [fuse_of_not_noop off]
    have swept := Driver.ran settings.runs_driver (s := startOf g) sound
    generalize settings.driver.run.run (startOf g) = result at swept
    cases swept with
    | done course => exact .done off course
    | overflow course failed same => exact .overflow off course failed same

theorem Fused.becomes {settings : Settings} {g g' : Region} {tally : Tally}
    (fused : Fused settings g (.ok tally g')) (sound : g.Sound) :
    g'.Sound ∧ Relation.ReflTransGen Region.Becomes g g' := by
  cases fused with
  | noop => exact ⟨sound, .refl⟩
  | done _ course => exact course.becomes settings.runs_driver sound

/-- Fusion ends at a sound region that is reached by rewrites. If it stops there, it is because two kernels cannot be
merged. -/
theorem fuse_ends {g : Region} (sound : g.Sound) (settings : Settings) :
    (∃ tally g', (fuse settings).run g = .ok tally g' ∧ g'.Sound ∧
      Relation.ReflTransGen Region.Becomes g g') ∨
    ∃ g' r, (fuse settings).run g = .error (.refused (.arithmetic .addition)) g' ∧ g'.Sound ∧
      Relation.ReflTransGen Region.Becomes g g' ∧
      (Rule.producerInlining.apply r.consumer).run g' = .error (.arithmetic .addition) g' ∧
      g'.Unmergeable r := by
  have ending := fused sound settings
  cases result : (fuse settings).run g with
  | ok tally g' =>
    rw [result] at ending
    exact .inl ⟨tally, g', rfl, ending.becomes sound⟩
  | error e g' =>
    rw [result] at ending
    cases ending with
    | @overflow s _ _ _ _ course failed same =>
      subst same
      rcases course.becomes settings.runs_driver sound with ⟨sound', chain⟩
      rcases sound'.unmergeable failed with ⟨rfl, r, rfl, unmergeable⟩
      exact .inr ⟨_, r, rfl, sound', chain, failed, unmergeable⟩

/-! ## Fusion of the region with a shared load -/

/-- One root, two reroutings and two inlinings, with eleven visits in two sweeps. -/
theorem exists_fuse_sharedField :
    ∃ g', (fuse {}).run Region.sharedField = .ok ⟨1, 2, 2, 11, 2⟩ g' :=
  ⟨_, run_of_answer (by decide +kernel)⟩

end KernelFusion
