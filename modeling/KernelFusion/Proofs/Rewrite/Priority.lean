import KernelFusion.Proofs.Region.ProgramOrder
import KernelFusion.Settings

/-!
# Patterns by priority

A pattern set finds the place of a pattern that is pushed by bisection, which finds the place at which a list is
split by a property, if there is one (`partitionPoint_append`). The patterns of a set stand by falling benefit, so
every benefit splits them, and a pushed pattern comes behind those of at least its benefit. What a push keeps is
one statement, `PatternSet.Prioritises`: the set holds what was pushed, by falling benefit, and what has the same
benefit in the order in which it was pushed. This leaves no choice (`PatternSet.Prioritises.eq`), so the order of
pushing matters only within a benefit.
-/

namespace KernelFusion

/-! ## Bisection -/

section Bisection

variable {α : Type} {holds : α → Bool} {xs front back behind : List α} {middle : α} {k : Nat}

theorem partitionPoint_nil : partitionPoint holds [] = 0 := by
  unfold partitionPoint
  split
  next => rfl
  next some => exact absurd some (by simp)

/-- The two halves of a search. -/
theorem partitionPoint_of_drop (half : xs.drop (xs.length / 2) = middle :: behind) :
    partitionPoint holds xs =
      if holds middle then xs.length / 2 + 1 + partitionPoint holds behind
      else partitionPoint holds (xs.take (xs.length / 2)) := by
  rw [partitionPoint]
  split
  next none => rw [half] at none; cases none
  next middle' behind' half' =>
    rw [half, List.cons.injEq] at half'
    rw [half'.1, half'.2]

theorem eq_nil_of_drop_half (none : xs.drop (xs.length / 2) = []) : xs = [] := by
  rw [List.drop_eq_nil_iff] at none
  exact List.eq_nil_of_length_eq_zero (by omega)

theorem length_of_drop (half : xs.drop k = middle :: behind) : xs.length = k + 1 + behind.length := by
  have lengths := congrArg List.length half
  rw [List.length_drop, List.length_cons] at lengths
  omega

/-- The place that is found splits the list, if there is a place that does. -/
theorem partitionPoint_eq (within : k ≤ xs.length)
    (splits : ∀ i a, xs[i]? = some a → (holds a = true ↔ i < k)) : partitionPoint holds xs = k := by
  induction xs using partitionPoint.induct holds generalizing k with
  | case1 xs none =>
    rw [eq_nil_of_drop_half none] at within ⊢
    rw [partitionPoint_nil]
    exact (Nat.le_zero.mp within).symm
  | case2 xs middle behind half yes ih =>
    have lengths := length_of_drop half
    have atMiddle : xs[xs.length / 2]? = some middle := by
      rw [← List.head?_drop, half, List.head?_cons]
    -- The place is behind the middle: the search goes on there, and finds it that much earlier.
    have before := (splits _ _ atMiddle).mp yes
    have rest : ∀ i a, behind[i]? = some a → (holds a = true ↔ i < k - (xs.length / 2 + 1)) := by
      intro i a found
      have place : xs[xs.length / 2 + 1 + i]? = some a := by
        rw [← found, Nat.add_assoc, ← List.getElem?_drop, half, Nat.add_comm 1 i,
          List.getElem?_cons_succ]
      rw [splits _ _ place]
      omega
    rw [partitionPoint_of_drop half, if_pos yes, ih (by omega) rest]
    omega
  | case3 xs middle behind half no ih =>
    have lengths := length_of_drop half
    have atMiddle : xs[xs.length / 2]? = some middle := by
      rw [← List.head?_drop, half, List.head?_cons]
    have after : ¬ xs.length / 2 < k := fun before => no ((splits _ _ atMiddle).mpr before)
    rw [partitionPoint_of_drop half, if_neg no]
    refine ih (by rw [List.length_take]; omega) fun i a found => ?_
    refine splits i a ?_
    rw [List.getElem?_take] at found
    split at found
    case isTrue => exact found
    case isFalse => cases found

/-- The search finds the place where a list is split. -/
theorem partitionPoint_append (holdsFront : ∀ a ∈ front, holds a = true)
    (failsBack : ∀ a ∈ back, ¬ holds a = true) :
    partitionPoint holds (front ++ back) = front.length := by
  refine partitionPoint_eq (by simp) fun i a found => ?_
  rw [List.getElem?_append] at found
  split at found
  case isTrue before => exact iff_of_true (holdsFront a (List.mem_of_getElem? found)) before
  case isFalse after => exact iff_of_false (failsBack a (List.mem_of_getElem? found)) after

end Bisection

/-! ## Pushing patterns -/

namespace PatternSet

variable {σ : Type} {p q : Pattern σ} {set set' : PatternSet σ} {pushed pushed' : List (Pattern σ)}

/-- Adds several patterns, one after another. -/
def pushAll (set : PatternSet σ) (ps : List (Pattern σ)) : PatternSet σ := ps.foldl push set

/-- The patterns of a benefit, in order. -/
def ofBenefit (benefit : Nat) (ps : List (Pattern σ)) : List (Pattern σ) :=
  ps.filter fun p => p.benefit = benefit

theorem mem_ofBenefit {benefit : Nat} {ps : List (Pattern σ)} :
    p ∈ ofBenefit benefit ps ↔ p ∈ ps ∧ p.benefit = benefit := by
  rw [ofBenefit, List.mem_filter, decide_eq_true_iff]

theorem ofBenefit_nil (benefit : Nat) : ofBenefit benefit ([] : List (Pattern σ)) = [] := rfl

theorem ofBenefit_cons_self {ps : List (Pattern σ)} :
    ofBenefit p.benefit (p :: ps) = p :: ofBenefit p.benefit ps :=
  List.filter_cons_of_pos (decide_eq_true rfl)

theorem ofBenefit_cons_of_ne {benefit : Nat} {ps : List (Pattern σ)} (ne : p.benefit ≠ benefit) :
    ofBenefit benefit (p :: ps) = ofBenefit benefit ps :=
  List.filter_cons_of_neg (by simpa using ne)

theorem ofBenefit_append (benefit : Nat) (ps qs : List (Pattern σ)) :
    ofBenefit benefit (ps ++ qs) = ofBenefit benefit ps ++ ofBenefit benefit qs :=
  List.filter_append ps qs

/-- Within each benefit it makes no difference which of two patterns of different benefit comes first. -/
theorem ofBenefit_swap {ps : List (Pattern σ)} (ne : p.benefit ≠ q.benefit) (benefit : Nat) :
    ofBenefit benefit (p :: q :: ps) = ofBenefit benefit (q :: p :: ps) := by
  by_cases same : p.benefit = benefit
  · subst same
    rw [ofBenefit_cons_self, ofBenefit_cons_of_ne ne.symm, ofBenefit_cons_of_ne ne.symm, ofBenefit_cons_self]
  · rw [ofBenefit_cons_of_ne same]
    by_cases same' : q.benefit = benefit
    · subst same'
      rw [ofBenefit_cons_self, ofBenefit_cons_self, ofBenefit_cons_of_ne same]
    · rw [ofBenefit_cons_of_ne same', ofBenefit_cons_of_ne same', ofBenefit_cons_of_ne same]

/-- What agrees within a benefit still does with one more pattern in front. -/
theorem ofBenefit_cons_congr {benefit : Nat} {ps qs : List (Pattern σ)}
    (same : ofBenefit benefit ps = ofBenefit benefit qs) :
    ofBenefit benefit (p :: ps) = ofBenefit benefit (p :: qs) := by
  by_cases has : p.benefit = benefit
  · subst has
    rw [ofBenefit_cons_self, ofBenefit_cons_self, same]
  · rw [ofBenefit_cons_of_ne has, ofBenefit_cons_of_ne has, same]

/-- The set holds what was pushed, by falling benefit, and of equal benefit in the order of pushing. -/
structure Prioritises (set : PatternSet σ) (pushed : List (Pattern σ)) : Prop where
  perm : set.patterns.Perm pushed
  falling : set.patterns.Pairwise fun p q => q.benefit ≤ p.benefit
  stable : ∀ benefit, ofBenefit benefit set.patterns = ofBenefit benefit pushed

theorem prioritises_empty : (empty : PatternSet σ).Prioritises [] :=
  ⟨.refl _, .nil, fun _ => rfl⟩

/-- Every benefit splits patterns that stand by falling benefit. -/
theorem exists_split {ps : List (Pattern σ)} (falling : ps.Pairwise fun p q => q.benefit ≤ p.benefit)
    (benefit : Nat) : ∃ front back, ps = front ++ back ∧ (∀ p ∈ front, benefit ≤ p.benefit) ∧
      ∀ p ∈ back, p.benefit < benefit := by
  induction ps with
  | nil => exact ⟨[], [], rfl, nofun, nofun⟩
  | cons p rest ih =>
    have below := List.pairwise_cons.mp falling
    rcases Nat.lt_or_ge p.benefit benefit with less | le
    · refine ⟨[], p :: rest, rfl, nofun, fun q member => ?_⟩
      rcases List.mem_cons.mp member with rfl | later
      · exact less
      · exact Nat.lt_of_le_of_lt (below.1 q later) less
    · rcases ih below.2 with ⟨front, back, rfl, atLeast, lower⟩
      exact ⟨p :: front, back, rfl, List.forall_mem_cons.mpr ⟨le, atLeast⟩, lower⟩

/-- A push puts the pattern where its benefit splits the others. -/
theorem patterns_push {front back : List (Pattern σ)} (split : set.patterns = front ++ back)
    (atLeast : ∀ q ∈ front, p.benefit ≤ q.benefit) (lower : ∀ q ∈ back, q.benefit < p.benefit) :
    (set.push p).patterns = front ++ p :: back := by
  have place : partitionPoint (fun q => p.benefit ≤ q.benefit) (front ++ back) = front.length :=
    partitionPoint_append (fun q member => decide_eq_true (atLeast q member)) fun q member => by
      rw [decide_eq_true_iff]
      exact Nat.not_le.mpr (lower q member)
  change set.patterns.insertIdx (partitionPoint _ set.patterns) p = _
  rw [split, place, insertIdx_append_length]

/-- A push puts the new pattern last among those of its benefit. -/
theorem Prioritises.push (before : set.Prioritises pushed) (p : Pattern σ) :
    (set.push p).Prioritises (pushed ++ [p]) := by
  rcases exists_split before.falling p.benefit with ⟨front, back, split, atLeast, lower⟩
  have patterns := patterns_push split atLeast lower
  have falling := before.falling
  have perm := before.perm
  rw [split] at falling perm
  rw [List.pairwise_append] at falling
  refine ⟨?perm, ?falling, fun benefit => ?stable⟩
  case perm =>
    rw [patterns]
    exact List.perm_middle.trans ((perm.cons p).trans (List.perm_append_singleton p pushed).symm)
  case falling =>
    rw [patterns, List.pairwise_append, List.pairwise_cons]
    refine ⟨falling.1, ⟨fun q behind => Nat.le_of_lt (lower q behind), falling.2.1⟩, fun q ahead r member => ?_⟩
    rcases List.mem_cons.mp member with rfl | behind
    · exact atLeast q ahead
    · exact falling.2.2 q ahead r behind
  case stable =>
    rw [patterns, ofBenefit_append, ofBenefit_append benefit pushed, ← before.stable, split,
      ofBenefit_append, List.append_assoc]
    by_cases same : p.benefit = benefit
    · subst same
      -- What stands behind the new pattern has less benefit.
      have none : ofBenefit p.benefit back = [] :=
        List.filter_eq_nil_iff.mpr fun q behind equal =>
          Nat.ne_of_lt (lower q behind) (of_decide_eq_true equal)
      rw [ofBenefit_cons_self, ofBenefit_cons_self, none]
      rfl
    · rw [ofBenefit_cons_of_ne same, ofBenefit_cons_of_ne same, ofBenefit_nil, List.append_nil]

/-- By induction on what is pushed. -/
theorem Prioritises.pushAll (before : set.Prioritises pushed) (ps : List (Pattern σ)) :
    (set.pushAll ps).Prioritises (pushed ++ ps) := by
  induction ps generalizing set pushed with
  | nil => rwa [List.append_nil]
  | cons p rest ih =>
    rw [List.append_cons]
    exact ih (before.push p)

/-- What stands first by falling benefit has at least the benefit of every pattern. -/
theorem benefit_le_head {ps : List (Pattern σ)}
    (falling : (p :: ps).Pairwise fun p q => q.benefit ≤ p.benefit) (member : q ∈ p :: ps) :
    q.benefit ≤ p.benefit := by
  rcases List.mem_cons.mp member with rfl | behind
  · exact Nat.le_refl _
  · exact List.rel_of_pairwise_cons falling behind

/-- Patterns that agree within each benefit are the same ones. -/
theorem mem_of_ofBenefit_eq {ps qs : List (Pattern σ)}
    (same : ∀ benefit, ofBenefit benefit ps = ofBenefit benefit qs) (member : p ∈ ps) : p ∈ qs :=
  (mem_ofBenefit.mp (same p.benefit ▸ mem_ofBenefit.mpr ⟨member, rfl⟩)).1

/-- Patterns by falling benefit are known from those of each benefit. -/
theorem eq_of_ofBenefit_eq {ps qs : List (Pattern σ)}
    (falling : ps.Pairwise fun p q => q.benefit ≤ p.benefit)
    (falling' : qs.Pairwise fun p q => q.benefit ≤ p.benefit)
    (same : ∀ benefit, ofBenefit benefit ps = ofBenefit benefit qs) : ps = qs := by
  have same' := fun benefit => (same benefit).symm
  induction ps generalizing qs with
  | nil =>
    cases qs with
    | nil => rfl
    | cons q rest' => cases mem_of_ofBenefit_eq same' List.mem_cons_self
  | cons p rest ih =>
    cases qs with
    | nil => cases mem_of_ofBenefit_eq same List.mem_cons_self
    | cons q rest' =>
      -- The two that stand first have the same benefit, so they are the first of that benefit.
      have equal : q.benefit = p.benefit := Nat.le_antisymm
        (benefit_le_head falling (mem_of_ofBenefit_eq same' List.mem_cons_self))
        (benefit_le_head falling' (mem_of_ofBenefit_eq same List.mem_cons_self))
      have heads := same p.benefit
      rw [ofBenefit_cons_self, ← equal, ofBenefit_cons_self, List.cons.injEq] at heads
      rcases heads with ⟨rfl, -⟩
      have rests : ∀ benefit, ofBenefit benefit rest = ofBenefit benefit rest' := by
        intro benefit
        have both := same benefit
        by_cases has : p.benefit = benefit
        · subst has
          rw [ofBenefit_cons_self, ofBenefit_cons_self, List.cons.injEq] at both
          exact both.2
        · rwa [ofBenefit_cons_of_ne has, ofBenefit_cons_of_ne has] at both
      rw [ih falling.of_cons falling'.of_cons rests fun benefit => (rests benefit).symm]

/-- What was pushed, up to the order between benefits, determines the set. -/
theorem Prioritises.eq (left : set.Prioritises pushed) (right : set'.Prioritises pushed')
    (agree : ∀ benefit, ofBenefit benefit pushed = ofBenefit benefit pushed') : set = set' := by
  cases set with
  | mk ps =>
  cases set' with
  | mk qs =>
  rw [mk.injEq]
  exact eq_of_ofBenefit_eq left.falling right.falling fun benefit =>
    (left.stable benefit).trans ((agree benefit).trans (right.stable benefit).symm)

end PatternSet

/-! ## The rules as patterns -/

namespace Settings

variable {σ : Type} (settings : Settings)

theorem patterns_eq_pushAll : (settings.patterns : PatternSet σ) =
    PatternSet.empty.pushAll (settings.rules.map Rule.pattern) := by
  rw [patterns, PatternSet.pushAll, List.foldl_map]

/-- The patterns of settings are its rules in the order of priority. -/
theorem prioritises_patterns :
    (settings.patterns : PatternSet σ).Prioritises (settings.rules.map Rule.pattern) := by
  rw [patterns_eq_pushAll]
  exact PatternSet.prioritises_empty.pushAll _

/-- The patterns of settings are its rules. -/
theorem mem_patterns {p : Pattern σ} :
    p ∈ settings.patterns.patterns ↔ ∃ rule ∈ settings.rules, p = rule.pattern := by
  rw [settings.prioritises_patterns.perm.mem_iff, List.mem_map]
  simp only [eq_comm]

end Settings

end KernelFusion
