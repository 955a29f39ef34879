import KernelFusion.Proofs.Region.Verification
import KernelFusion.Proofs.Rewrite.Inlining
import KernelFusion.Proofs.Rewrite.Rerouting
import KernelFusion.Proofs.Rewrite.Rooting

/-!
# Applying a rule

On a sound region, one that is consistent and ordered, there are four ways in which an attempt to apply a rule
can end, and `Applied` has one constructor for each: there is no such node, the rule does not match, it rewrites,
or a sum of offsets is out of range. Only the third changes the region, and what it leaves is sound
(`Rewrote.sound`). `apply_rewrites_or_refrains` says for regions that pass their check when each of the four happens.
-/

namespace KernelFusion

namespace Region

variable {g g' : Region} {n : NodeId} {rule : Rule} {created : List NodeId}

/-- A region that is in step with itself and whose operands are produced before they are read. -/
structure Sound (g : Region) : Prop where
  consistent : g.Consistent
  ordered : g.Ordered

/-- A consistent region passes the check if nothing is read before it is produced. -/
theorem Consistent.sound_iff (c : g.Consistent) : g.Sound ↔ g.verify = .ok () := by
  rw [c.verify_eq_ok_iff]
  exact ⟨Sound.ordered, Sound.mk c⟩

/-- What a rule leaves where it rewrites. -/
inductive Rewrote (g g' : Region) : Rule → NodeId → List NodeId → Prop
  | rooted {r : Rooting} : g.Rooted g' r →
    Rewrote g g' .rootIntroduction r.load [r.copy, r.root]
  | rerouted {r : Rerouting} : g.Rerouted g' r →
    Rewrote g g' .outputRerouting r.consumer [r.copy, r.rebuilt]
  | merged {r : Inlining} : g.Merged g' r →
    Rewrote g g' .producerInlining r.consumer [r.merged]

/-- What a rule leaves of a sound region is sound. -/
theorem Rewrote.sound (rewrote : g.Rewrote g' rule n created) (sound : g.Sound) : g'.Sound := by
  cases rewrote with
  | rooted rooted =>
    exact ⟨rooted.consistent, rooted.ordered sound.consistent sound.ordered⟩
  | rerouted rerouted =>
    exact ⟨rerouted.consistent, rerouted.ordered sound.consistent sound.ordered⟩
  | merged merged =>
    exact ⟨merged.consistent, merged.ordered sound.consistent sound.ordered⟩

/-- The ways in which an attempt to apply a rule can end. -/
inductive Applied (g : Region) (rule : Rule) (n : NodeId) :
    EStateM.Result Error Region Outcome → Prop
  | stale : g.nodes.get? n = none → Applied g rule n (.error (.staleNode n) g)
  | noMatch : ¬ rule.Matches g n → Applied g rule n (.ok .noMatch g)
  | rewritten {g' : Region} {created : List NodeId} : rule.Matches g n →
    g.Rewrote g' rule n created → Applied g rule n (.ok (.rewritten created) g')
  | overflow {r : Inlining} : rule.Matches g n → rule = .producerInlining → r.consumer = n →
    g.Unmergeable r → Applied g rule n (.error (.arithmetic .addition) g)

theorem kind_of_none (absent : g.nodes.get? n = none) : g.kind n = .error (.staleNode n) := by
  rw [kind, node, absent, orRefuse_none, error_bind]

theorem apply_of_none (absent : g.nodes.get? n = none) :
    (rule.apply n).run g = .error (.staleNode n) g := by
  cases rule with
  | rootIntroduction =>
    rw [Rule.apply, introduceRoot, run_get_bind, kind_of_none absent]
    exact run_lift_error_bind
  | outputRerouting =>
    rw [Rule.apply, rerouteOutputs, run_get_bind, kind_of_none absent]
    exact run_lift_error_bind
  | producerInlining =>
    rw [Rule.apply, inlineProducer, run_get_bind, kind_of_none absent]
    exact run_lift_error_bind

/-- Every attempt to apply a rule ends in one of these ways. -/
theorem Sound.applied (sound : g.Sound) (rule : Rule) (n : NodeId) :
    g.Applied rule n ((rule.apply n).run g) := by
  have c := sound.consistent
  have o := sound.ordered
  cases found : g.nodes.get? n with
  | none =>
    rw [apply_of_none found]
    exact .stale found
  | some node =>
  by_cases isMatch : rule.Matches g n
  · cases rule with
    | rootIntroduction =>
      rcases introduceRoot_rewrites c o isMatch with ⟨g', r, rfl, ran, rooted⟩
      rw [Rule.apply, ran]
      exact .rewritten isMatch (.rooted rooted)
    | outputRerouting =>
      rcases rerouteOutputs_rewrites c o isMatch with ⟨g', r, rfl, ran, rerouted⟩
      rw [Rule.apply, ran]
      exact .rewritten isMatch (.rerouted rerouted)
    | producerInlining =>
      rcases inlineProducer_rewrites c o isMatch with
        ⟨g', r, rfl, ran, merged⟩ | ⟨ran, r, isConsumer, unmergeable⟩
      · rw [Rule.apply, ran]
        exact .rewritten isMatch (.merged merged)
      · rw [Rule.apply, ran]
        exact .overflow isMatch rfl isConsumer unmergeable
  · cases rule with
    | rootIntroduction =>
      rw [Rule.apply, introduceRoot_refuses c found isMatch]
      exact .noMatch isMatch
    | outputRerouting =>
      rw [Rule.apply, rerouteOutputs_refuses c found isMatch]
      exact .noMatch isMatch
    | producerInlining =>
      rw [Rule.apply, inlineProducer_refuses c found isMatch]
      exact .noMatch isMatch

/-- A rule fails for a sum of offsets only where it merges kernels. -/
theorem Sound.unmergeable (sound : g.Sound) {g' : Region}
    (ran : (rule.apply n).run g = .error (.arithmetic .addition) g') :
    rule = .producerInlining ∧ ∃ r, r.consumer = n ∧ g.Unmergeable r := by
  have applied := sound.applied rule n
  rw [ran] at applied
  cases applied with
  | overflow _ merges isConsumer unmergeable => exact ⟨merges, _, isConsumer, unmergeable⟩

/-- Where an attempt rewrites, the rule has done its work. -/
theorem Sound.rewrote (sound : g.Sound) {outcome : Outcome}
    (ran : (rule.apply n).run g = .ok outcome g') :
    outcome = .noMatch ∧ g' = g ∨ ∃ created, outcome = .rewritten created ∧
      g.Rewrote g' rule n created := by
  have applied := sound.applied rule n
  rw [ran] at applied
  cases applied with
  | noMatch => exact .inl ⟨rfl, rfl⟩
  | rewritten _ rewrote => exact .inr ⟨_, rfl, rewrote⟩

/-- A rule rewrites, or it leaves the region as it was: where it does not match, where the handle names no node, and
where the kernels that it would merge read too far. -/
theorem apply_rewrites_or_refrains (built : g.Built) (verified : g.verify = .ok ()) (rule : Rule)
    (n : NodeId) :
    (rule.Matches g n ∧ ∃ created g', (rule.apply n).run g = .ok (.rewritten created) g') ∨
      (g.contains n = true ∧ ¬ rule.Matches g n ∧ (rule.apply n).run g = .ok .noMatch g) ∨
      (g.contains n = false ∧ (rule.apply n).run g = .error (.staleNode n) g) ∨
      (rule = .producerInlining ∧ rule.Matches g n ∧ (∃ r, r.consumer = n ∧ g.Unmergeable r) ∧
        (rule.apply n).run g = .error (.arithmetic .addition) g) := by
  have sound : g.Sound := built.consistent.sound_iff.mpr verified
  cases found : g.nodes.get? n with
  | none =>
    exact .inr (.inr (.inl ⟨contains_eq_false_iff.mpr found, apply_of_none found⟩))
  | some node =>
    have live : g.contains n = true := contains_eq_true_iff.mpr ⟨node, found⟩
    have applied := sound.applied rule n
    generalize (rule.apply n).run g = ended at applied ⊢
    cases applied with
    | stale absent => cases found.symm.trans absent
    | noMatch mismatch => exact .inr (.inl ⟨live, mismatch, rfl⟩)
    | rewritten isMatch rewrote => exact .inl ⟨isMatch, _, _, rfl⟩
    | overflow isMatch merges isConsumer unmergeable =>
      exact .inr (.inr (.inr ⟨merges, isMatch, ⟨_, isConsumer, unmergeable⟩, rfl⟩))

/-- The second apply reads the first at an offset that cannot be added to the one at which the first reads. -/
theorem apply_rewrites_or_refrains_tandem :
    ∃ g, g = tandem [⟨Int64.maxValue, 0, 0⟩] [⟨1, 0, 0⟩] ∧ g.Built ∧ g.verify = .ok () ∧
      (Rule.producerInlining.apply ⟨2, 0⟩).run g = .error (.arithmetic .addition) g ∧
      ∃ r, r.consumer = ⟨2, 0⟩ ∧ g.Unmergeable r := by
  have built := built_tandem [⟨Int64.maxValue, 0, 0⟩] [⟨1, 0, 0⟩]
  have failed : ∃ g', (Rule.producerInlining.apply ⟨2, 0⟩).run
      (tandem [⟨Int64.maxValue, 0, 0⟩] [⟨1, 0, 0⟩]) = .error (.arithmetic .addition) g' := ⟨_, rfl⟩
  rcases failed with ⟨g', failed⟩
  rcases apply_rewrites_or_refrains built rfl .producerInlining ⟨2, 0⟩ with
    ⟨-, created, g'', ran⟩ | ⟨-, -, ran⟩ | ⟨-, ran⟩ | ⟨-, -, overflow, ran⟩
  · cases failed.symm.trans ran
  · cases failed.symm.trans ran
  · cases failed.symm.trans ran
  · exact ⟨_, rfl, built, rfl, ran, overflow⟩

end Region

end KernelFusion
