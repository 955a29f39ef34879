import KernelFusion.Proofs.Fusion.Fixpoint
import KernelFusion.Proofs.Region.Spread
import KernelFusion.Proofs.Rewrite.RuleAccesses

/-!
# Fusion within range

Merging moves the accesses of the producer by the accesses of the consumer, so the span of the merged kernel is the
sum of the two spans at most. The other rules bring in no access but in place. So no rewrite makes a spread larger
(`Region.Rewrote.spread_le`), and while the spreads are in range no rule takes a sum that is not. Fusion of such a
region ends with a result (`fuse_in_range`).
-/

namespace KernelFusion

namespace Region

variable {g g' : Region} {n m : NodeId} {rule : Rule} {gone made created : List NodeId}
  {f : ValueId → ValueId} {heir : NodeId → NodeId} {d : Dimension}

/-! ## What the rules do to the spread -/

/-- A node that stays has the span that it had. -/
theorem Reshaped.spanAt_eq (reshaped : g.Reshaped g' gone made f heir) {node : Node}
    (found : g.nodes.get? n = some node) (remains : n ∉ gone) : g'.spanAt d n = g.spanAt d n := by
  rw [spanAt, spanAt, found, reshaped.revision.kept n node found remains, Option.bind_some,
    Option.bind_some, Node.rename, NodeKind.kernel?_mapOperands]

/-- The spread does not grow when the new nodes have no larger spans than those that went. -/
theorem Reshaped.spread_le (reshaped : g.Reshaped g' gone made f heir) (sound : g.Sound)
    (sound' : g'.Sound)
    (le : (made.map (g'.spanAt d)).sum ≤ (gone.map (g.spanAt d)).sum) :
    g'.spread d ≤ g.spread d := by
  have others : (g.others gone).map (g'.spanAt d) = (g.others gone).map (g.spanAt d) := by
    refine List.map_congr_left fun n other => ?_
    rcases mem_others.mp other with ⟨live, remains⟩
    rcases (sound.consistent.mem_order n).mp live with ⟨node, found⟩
    exact reshaped.spanAt_eq found remains
  calc g'.spread d = (made.map (g'.spanAt d)).sum + ((g.others gone).map (g'.spanAt d)).sum :=
        reshaped.total_eq' sound sound' _
    _ = (made.map (g'.spanAt d)).sum + ((g.others gone).map (g.spanAt d)).sum := by rw [others]
    _ ≤ (gone.map (g.spanAt d)).sum + ((g.others gone).map (g.spanAt d)).sum :=
        Nat.add_le_add_right le _
    _ = g.spread d := (reshaped.total_eq sound _).symm

theorem span_identity (type : ElementType) : (Kernel.identity type).span d = 0 := by
  refine Nat.le_zero.mp (Kernel.span_le fun read member => ?_)
  rw [List.mem_singleton.mp member, Offset.along_zero]
  rfl

/-- Forwarding adds accesses in place only. -/
theorem Rerouted.span_le {r : Rerouting} (rerouted : g.Rerouted g' r) :
    r.kernel'.span d ≤ r.kernel.span d := by
  refine Kernel.span_le fun read member => ?_
  rcases forwardingKernel_accesses rerouted.computed read member with old | inPlace
  · exact Kernel.le_span old d
  · rw [inPlace, Offset.along_zero]
    exact Nat.zero_le _

/-- Merging adds accesses of the producer to accesses of the consumer. -/
theorem Merged.span_le {r : Inlining} (merged : g.Merged g' r) :
    r.kernel'.span d ≤ r.kernel.span d + r.innerKernel.span d := by
  refine Kernel.span_le fun read member => ?_
  rcases mergedKernel_accesses merged.computed read member with
    ⟨a, isAccess, same⟩ | ⟨j, a, b, composes, sum⟩
  · rw [same]
    exact (Kernel.le_span isAccess d).trans (Nat.le_add_right _ _)
  · have outer := Kernel.le_span composes.outer d
    have inner := Kernel.le_span composes.inner d
    have component := Offset.along_of_add_eq_ok sum d
    omega

/-- No rewrite makes a spread larger. -/
theorem Rewrote.spread_le (rewrote : g.Rewrote g' rule n created) (sound : g.Sound)
    (d : Dimension) : g'.spread d ≤ g.spread d := by
  have sound' := rewrote.sound sound
  cases rewrote with
  | @rooted r rooted =>
    refine (rooted.reshaped sound).spread_le sound sound' ?_
    simp [spanAt_load rooted.copyAt, spanAt_apply rooted.rootAt, span_identity]
  | @rerouted r rerouted =>
    refine (rerouted.reshaped sound).spread_le sound sound' ?_
    have able := rerouted.reroutable
    have atMost := rerouted.span_le (d := d)
    simp only [List.map_cons, List.map_nil, List.sum_cons, List.sum_nil,
      spanAt_apply rerouted.copyAt, spanAt_apply rerouted.rebuiltAt, spanAt_apply able.consumerAt,
      spanAt_apply able.producerAt]
    omega
  | @merged r merged =>
    refine (merged.reshaped sound).spread_le sound sound' ?_
    have able := merged.inlinable
    have atMost := merged.span_le (d := d)
    simp only [List.map_cons, List.map_nil, List.sum_cons, List.sum_nil,
      spanAt_apply merged.mergedAt, spanAt_apply able.consumerAt, spanAt_apply able.producerAt]
    omega

/-- No sequence of rewrites makes a region reach further. -/
theorem spread_le_of_becomes (chain : Relation.ReflTransGen Becomes g g') (sound : g.Sound)
    (d : Dimension) : g'.spread d ≤ g.spread d :=
  (keeps_of_becomes (fun g' => g'.spread d ≤ g.spread d)
    (fun _ _ _ _ _ sound₁ le rewrote => (rewrote.spread_le sound₁ d).trans le) chain sound
    (Nat.le_refl _)).2

/-! ## Sums in range -/

/-- Two nodes reach no further than the whole region. -/
theorem spanAt_add_le (liveN : n ∈ g.order) (liveM : m ∈ g.order) (ne : n ≠ m) :
    g.spanAt d n + g.spanAt d m ≤ g.spread d := by
  have rest : m ∈ g.order.erase n := (List.mem_erase_of_ne ne.symm).mpr liveM
  have whole := List.sum_map_erase (g.spanAt d) liveN
  have part := List.sum_map_erase (g.spanAt d) rest
  rw [spread]
  omega

/-- Kernels can be merged while the spreads are within the limit. -/
theorem Sound.not_unmergeable (sound : g.Sound) (within : ∀ d, g.spread d ≤ Offset.limit)
    (r : Inlining) : ¬ g.Unmergeable r := by
  intro unmergeable
  have able := unmergeable.inlinable
  have c := sound.consistent
  rcases unmergeable.overflow with ⟨types, failed⟩
  rcases mergedKernel_overflow failed with ⟨j, a, b, composes, overflow⟩
  have room (d : Dimension) : (b.offset.along d).natAbs + (a.offset.along d).natAbs ≤
      Offset.limit := by
    have outer := Kernel.le_span composes.outer d
    have inner := Kernel.le_span composes.inner d
    have both := spanAt_add_le (d := d) (c.mem_order_of_get? able.consumerAt)
      (c.mem_order_of_get? able.producerAt) (able.producer_first sound.ordered).ne.symm
    rw [spanAt_apply able.consumerAt, spanAt_apply able.producerAt] at both
    have all := within d
    omega
  rcases Offset.exists_add_eq_ok room with ⟨sum, exact'⟩
  rw [overflow] at exact'
  cases exact'

end Region

/-! ## Fusion -/

/-- A region whose spreads are in range expands, and fusion with any settings ends with a region that does, whose
spreads are no larger. -/
theorem fuse_in_range {g : Region} (built : g.Built) (verified : g.verify = .ok ())
    (within : ∀ d, g.spread d ≤ 2 ^ 63 - 1) (settings : Settings) :
    g.Expandable ∧ ∃ tally g', (fuse settings).run g = .ok tally g' ∧
      (∀ d, g'.spread d ≤ g.spread d) ∧ g'.Expandable := by
  have sound : g.Sound := built.consistent.sound_iff.mpr verified
  refine ⟨sound.consistent.expandable_of_within sound.ordered within, ?_⟩
  rcases fuse_ends sound settings with
    ⟨tally, g', ran, sound', chain⟩ | ⟨g', r, -, sound', chain, -, unmergeable⟩
  · have atMost := Region.spread_le_of_becomes chain sound
    exact ⟨tally, g', ran, atMost, sound'.consistent.expandable_of_within sound'.ordered
      fun d => (atMost d).trans (within d)⟩
  · have within' (d : Dimension) := (Region.spread_le_of_becomes chain sound d).trans (within d)
    exact absurd unmergeable (sound'.not_unmergeable within' r)

/-- Two applies in a row that read on one side and on the other. -/
def Region.backAndForth : Region := tandem [⟨3, 0, 0⟩] [⟨-5, 0, 1⟩]

theorem fuse_in_range_backAndForth :
    Region.backAndForth.Built ∧ Region.backAndForth.verify = .ok () ∧
      (∀ d, Region.backAndForth.spread d ≤ 2 ^ 63 - 1) ∧
      ∃ tally g', (fuse {}).run Region.backAndForth = .ok tally g' ∧
        (∀ d, g'.spread d ≤ Region.backAndForth.spread d) ∧ g'.Expandable := by
  have built : Region.backAndForth.Built := Region.built_tandem _ _
  have verified : Region.backAndForth.verify = .ok () := rfl
  have within (d : Dimension) : Region.backAndForth.spread d ≤ 2 ^ 63 - 1 := by
    cases d <;> decide
  exact ⟨built, verified, within, (fuse_in_range built verified within {}).2⟩

end KernelFusion
