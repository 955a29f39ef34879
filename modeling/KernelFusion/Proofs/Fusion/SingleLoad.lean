import Mathlib.Order.WellFounded
import KernelFusion.Proofs.Fusion.Accounting
import KernelFusion.Proofs.Fusion.Fixpoint

/-!
# Regions with a single load

A region whose applies all go back to one load becomes one load and one apply (`fuse_single_load`). No single rule sees
to that. In a region in which no rule matches, the first apply reads the load, as there is nothing else before it; a
second apply does not read the load, which would be shared, so it reads the first apply and nothing else, and either the
first can be inlined into it or the other uses of the first can be routed through it.

What the argument needs is that every apply reads some node (`Region.Fed`), and all rules keep that.
-/

namespace KernelFusion

namespace Region

variable {g g' : Region} {n m : NodeId} {rule : Rule} {created : List NodeId}

/-! ## Every apply reads a node -/

/-- Every apply reads some node. -/
def Fed (g : Region) : Prop := ∀ n, g.tagOf n = some .apply → ∃ m, g.Reads n m

/-- Without inputs every value comes from a node. -/
theorem Consistent.fed (c : g.Consistent) (noInputs : g.inputs = [])
    (reading : ∀ n node, g.nodes.get? n = some node → node.kind.tag = .apply →
      node.kind.operands ≠ []) : g.Fed := by
  intro n isApply
  rcases Option.map_eq_some_iff.mp isApply with ⟨node, found, tag⟩
  rcases List.exists_mem_of_ne_nil _ (reading n node found tag) with ⟨v, operand⟩
  rcases c.operand_live found operand with ⟨⟨type, definition⟩, infoAt⟩
  cases definition with
  | input i =>
    have defined : g.inputs[i]? = some v := c.defines v _ infoAt
    rw [noInputs] at defined
    cases defined
  | result m i =>
    have produced : g.producerOf v = some m := producerOf_eq_some_iff.mpr ⟨type, i, infoAt⟩
    exact ⟨m, (reads_iff_operand found).mpr ⟨v, operand, produced⟩⟩

/-- A node that remains reads a node if it has read one. -/
theorem Reshaped.fed {gone made : List NodeId} {f : ValueId → ValueId} {heir : NodeId → NodeId}
    (reshaped : g.Reshaped g' gone made f heir) (sound' : g'.Sound) (fed : g.Fed)
    (new : ∀ n ∈ made, g'.tagOf n = some .apply → ∃ m, g'.Reads n m) : g'.Fed := by
  intro n isApply
  by_cases member : n ∈ made
  · exact new n member isApply
  · rcases Option.map_eq_some_iff.mp isApply with ⟨node', found', -⟩
    have live := sound'.consistent.mem_order_of_get? found'
    rcases reshaped.exists_old live sound'.consistent member with ⟨remains, node, found⟩
    rw [reshaped.tagOf_eq found remains] at isApply
    rcases fed n isApply with ⟨m, reads⟩
    exact ⟨heir m, (reshaped.revision.reads_iff reshaped.follows found remains).mpr ⟨m, reads, rfl⟩⟩

/-- The new applies read the copy of the load, the copy of the producer, or what the producer read. -/
theorem Rewrote.fed (rewrote : g.Rewrote g' rule n created) (sound : g.Sound) (fed : g.Fed) :
    g'.Fed := by
  have c := sound.consistent
  have o := sound.ordered
  have sound' := rewrote.sound sound
  cases rewrote with
  | @rooted r rooted =>
    refine (rooted.reshaped sound).fed sound' fed fun a member isApply => ?_
    rcases List.mem_pair.mp member with rfl | rfl
    · rw [tagOf_of_get? rooted.copyAt] at isApply
      cases isApply
    · exact ⟨r.copy, rooted.reads_root_iff.mpr rfl⟩
  | @rerouted r rerouted =>
    refine (rerouted.reshaped sound).fed sound' fed fun a member _ => ?_
    rcases List.mem_pair.mp member with rfl | rfl
    · rcases fed r.producer (tagOf_of_get? rerouted.reroutable.producerAt) with ⟨m, reads⟩
      exact ⟨m, (rerouted.reads_copy_iff c o).mpr reads⟩
    · have reads : g'.Reads r.rebuilt r.copy := (rerouted.reads_rebuilt_iff c o).mpr (.inl rfl)
      exact ⟨r.copy, reads⟩
  | @merged r merged =>
    refine (merged.reshaped sound).fed sound' fed fun a member _ => ?_
    rcases fed r.producer (tagOf_of_get? merged.inlinable.producerAt) with ⟨m, reads⟩
    have reads' : g'.Reads r.merged m := (merged.reads_merged_iff c o).mpr (.inr reads)
    exact ⟨m, List.mem_singleton.mp member ▸ reads'⟩

/-- Every rewrite leaves an apply. -/
theorem Rewrote.exists_apply (rewrote : g.Rewrote g' rule n created) :
    ∃ a, g'.tagOf a = some .apply := by
  cases rewrote with
  | rooted rooted => exact ⟨_, tagOf_of_get? rooted.rootAt⟩
  | rerouted rerouted => exact ⟨_, tagOf_of_get? rerouted.rebuiltAt⟩
  | merged merged => exact ⟨_, tagOf_of_get? merged.mergedAt⟩

theorem fed_of_becomes (chain : Relation.ReflTransGen Becomes g g') (sound : g.Sound) (fed : g.Fed)
    (applies : 0 < g.count .apply) : g'.Sound ∧ g'.Fed ∧ 0 < g'.count .apply := by
  refine keeps_of_becomes (fun g => g.Fed ∧ 0 < g.count .apply)
    (fun g₁ g₂ rule n created sound₁ kept rewrote => ?_) chain sound ⟨fed, applies⟩
  exact ⟨rewrote.fed sound₁ kept.1, count_pos_iff.mpr rewrote.exists_apply⟩

/-! ## Where no rule matches -/

/-- Among the nodes with a property there is a first one in program order. -/
theorem exists_first (g : Region) (holds : NodeId → Prop) (found : ∃ n, holds n) :
    ∃ n, holds n ∧ ∀ m, holds m → ¬ Precedes g.order m n := by
  rcases (measure g.order.idxOf).wf.has_min {n | holds n} found with ⟨n, here, first⟩
  exact ⟨n, here, fun m there before => first m there before.2⟩

/-- If no rule matches in a region with a single load, there are not two applies. -/
theorem Sound.count_apply_le_one (sound : g.Sound) (fed : g.Fed) (single : g.count .load ≤ 1)
    (quiet : ∀ n, ∀ rule : Rule, ¬ rule.Matches g n) : g.count .apply ≤ 1 := by
  have c := sound.consistent
  have kinds {n m : NodeId} (reads : g.Reads n m) :
      g.tagOf m = some .load ∨ g.tagOf m = some .apply :=
    tagOf_cases ((c.mem_order m).mp (c.reads_live reads).2)
  rw [count_le_one_iff] at single ⊢
  refine fun n m tagN tagM => not_not.mp fun ne => ?_
  -- The first apply, which reads the load.
  rcases g.exists_first (fun n => g.tagOf n = some .apply) ⟨n, tagN⟩ with ⟨a, tagA, firstA⟩
  rcases fed a tagA with ⟨load, readsLoad⟩
  have tagLoad : g.tagOf load = some .load := by
    refine (kinds readsLoad).resolve_right fun isApply => ?_
    exact firstA load isApply (sound.ordered a load readsLoad)
  -- The second apply, which reads the first one and nothing else.
  have another : ∃ b, g.tagOf b = some .apply ∧ b ≠ a := by
    by_cases same : n = a
    · exact ⟨m, tagM, fun same' => ne (same.trans same'.symm)⟩
    · exact ⟨n, tagN, same⟩
  rcases g.exists_first (fun b => g.tagOf b = some .apply ∧ b ≠ a) another with ⟨b, ⟨tagB, apart⟩, firstB⟩
  have only : ∀ q, g.Reads b q → q = a := by
    intro q reads
    rcases kinds reads with isLoad | isApply
    · rw [single q load isLoad tagLoad] at reads
      exact absurd ⟨tagLoad, a, b, apart.symm, readsLoad, reads⟩ (quiet load .rootIntroduction)
    · exact not_not.mp fun other => firstB q ⟨isApply, other⟩ (sound.ordered b q reads)
  have reads : g.Reads b a := by
    rcases fed b tagB with ⟨q, reads⟩
    exact only q reads ▸ reads
  by_cases escapes : g.Escapes a b
  · refine quiet b .outputRerouting ⟨a, fun q => ⟨fun feeds => only q feeds.2, ?_⟩, ?_, escapes⟩
    · intro same
      exact same ▸ ⟨tagA, reads⟩
    · intro q readsQ before
      exact before.ne (only q readsQ).symm
  · exact quiet b .producerInlining ⟨a, ⟨tagA, reads⟩, escapes⟩

end Region

/-! ## Fusion -/

/-- A region with a single load and no inputs, in which every apply reads something, becomes one load and one apply. Each
of the applies but one has been inlined, and so have the roots. -/
theorem fuse_single_load {g : Region} (built : g.Built) (verified : g.verify = .ok ())
    (single : g.count .load = 1) (noInputs : g.inputs = []) (applies : 1 ≤ g.count .apply)
    (reading : ∀ n node, g.nodes.get? n = some node → node.kind.tag = .apply →
      node.kind.operands ≠ [])
    {settings : Settings} (inline : settings.inline) (reroute : settings.reroute)
    (root : settings.root) {tally : Tally} {g' : Region}
    (ran : (fuse settings).run g = .ok tally g') :
    g'.count .load = 1 ∧ g'.count .apply = 1 ∧
      tally.inlined = g.count .apply + tally.roots - 1 := by
  have sound : g.Sound := built.consistent.sound_iff.mpr verified
  have ended := fused sound settings
  rw [ran] at ended
  rcases ended.accounts sound with ⟨loads, balance⟩
  rcases Region.fed_of_becomes (ended.becomes sound).2 sound (built.consistent.fed noInputs reading)
    applies with ⟨sound', fed', applies'⟩
  have quiet (n : NodeId) (rule : Rule) : ¬ rule.Matches g' n := by
    refine (fuse_quiet sound ran).2 n rule ?_
    cases rule <;> simp [Settings.rules, inline, reroute, root]
  have single' : g'.count .load = 1 := loads.trans single
  have few := sound'.count_apply_le_one fed' (Nat.le_of_eq single') quiet
  have one : g'.count .apply = 1 := by omega
  exact ⟨single', one, by omega⟩

theorem fuse_single_load_sharedField :
    ∃ g', (fuse {}).run Region.sharedField = .ok ⟨1, 2, 2, 11, 2⟩ g' ∧
      g'.count .load = 1 ∧ g'.count .apply = 1 := by
  rcases exists_fuse_sharedField with ⟨g', ran⟩
  have reading : ∀ n node, Region.sharedField.nodes.get? n = some node → node.kind.tag = .apply →
      node.kind.operands ≠ [] := by
    have each : ∀ e ∈ Region.sharedField.nodes.toList, e.2.kind.tag = .apply →
        e.2.kind.operands ≠ [] := by decide
    exact fun n node found => each (n, node) (Arena.mem_toList_iff.mpr found)
  have fusedAll := fuse_single_load Region.built_sharedField Region.verify_sharedField rfl rfl
    (by decide) reading rfl rfl rfl ran
  exact ⟨g', ran, fusedAll.1, fusedAll.2.1⟩

end KernelFusion
