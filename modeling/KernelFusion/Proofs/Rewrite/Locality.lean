import KernelFusion.Proofs.Rewrite.ForwardedResults
import KernelFusion.Proofs.Rewrite.Reshaping

/-!
# What a rewrite leaves alone

A rule takes away the node at which it is applied, and the producer that it picks, if it picks one (`Spends`).
Every other node keeps its handle, its results and what it does, up to the values that it reads, and these
change by one substitution that puts results of the new nodes in the place of results of those that went
(`Localized`).

All of it is read off the `Revision` that a rewrite is, but for the substitution itself. A revision renames all
values; a renaming that moves nothing outside a list is the substitution of its values for that list
(`redirectAll_map`).
-/

namespace KernelFusion

namespace Region

variable {g g' : Region} {n : NodeId} {rule : Rule} {gone made created : List NodeId}
  {f : ValueId → ValueId} {heir : NodeId → NodeId} {sources : List ValueId}

/-! ## The frame of a rewrite -/

/-- A value is a result of one of the given nodes. -/
def Yields (g : Region) (ns : List NodeId) (v : ValueId) : Prop :=
  ∃ n ∈ ns, ∃ node, g.nodes.get? n = some node ∧ v ∈ node.results

/-- The nodes that a rule takes away where it rewrites: the node at which it is applied, and the producer that it
finds by the operands of that node. -/
inductive Spends (g : Region) : Rule → NodeId → List NodeId → Prop
  | load {n : NodeId} : Spends g .rootIntroduction n [n]
  | only {n p : NodeId} {operands : List ValueId} : g.operands n = .ok operands →
    g.applyProducers operands = .ok [p] → Spends g .outputRerouting n [n, p]
  | exclusive {n p : NodeId} {operands : List ValueId} : g.operands n = .ok operands →
    g.exclusiveProducer n operands = .ok (some p) → Spends g .producerInlining n [n, p]

/-- Nodes went and others came in. Nothing else has changed but for one substitution of values, which puts results of
the new nodes in the place of results of those that went. -/
structure Localized (g g' : Region) (gone made : List NodeId) (sources targets : List ValueId) :
    Prop where
  gone_iff : ∀ m, m ∈ gone ↔ g.contains m = true ∧ g'.contains m = false
  made_iff : ∀ m, m ∈ made ↔ g'.contains m = true ∧ g.contains m = false
  nodup_gone : gone.Nodup
  nodup_made : made.Nodup
  nodup_sources : sources.Nodup
  substituted : List.Forall₂ (fun source target => g.Yields gone source ∧ g'.Yields made target)
    sources targets
  /-- The other nodes do what they did and have the results that they had. -/
  kept : ∀ m node, g.nodes.get? m = some node → g'.contains m = true →
    g'.nodes.get? m = some ⟨node.kind.mapOperands (redirectAll sources targets), node.results⟩ ∧
      ∀ v ∈ node.results, g'.values.get? v = g.values.get? v
  order : g'.order.filter g.contains = g.order.filter g'.contains
  inputs : g'.inputs = g.inputs
  outputs : g'.outputs = substituteAll sources targets g.outputs

section Frame

variable (reshaped : g.Reshaped g' gone made f heir) {m : NodeId}

include reshaped

/-- The nodes that are gone are those that the region had and has no longer. -/
theorem Reshaped.mem_gone_iff : m ∈ gone ↔ g.contains m = true ∧ g'.contains m = false := by
  have rev := reshaped.revision
  constructor
  · intro went
    rcases reshaped.lived m went with ⟨node, found⟩
    exact ⟨contains_eq_true_iff.mpr ⟨node, found⟩,
      contains_eq_false_iff.mpr (rev.none_of_gone found went)⟩
  · rintro ⟨old, absent⟩
    rcases contains_eq_true_iff.mp old with ⟨node, found⟩
    by_contra stayed
    have found' := rev.kept m node found stayed
    rw [contains_eq_false_iff.mp absent] at found'
    cases found'

/-- The nodes that came in are those that the region has and had not. -/
theorem Reshaped.mem_made_iff : m ∈ made ↔ g'.contains m = true ∧ g.contains m = false := by
  have rev := reshaped.revision
  constructor
  · intro new
    exact ⟨contains_eq_true_iff.mpr (reshaped.live m new),
      contains_eq_false_iff.mpr (rev.fresh m new)⟩
  · rintro ⟨new, absent⟩
    rcases contains_eq_true_iff.mp new with ⟨node', found'⟩
    refine (rev.back m node' found').resolve_right fun old => ?_
    rcases old with ⟨-, node, found⟩
    rw [contains_eq_false_iff.mp absent] at found
    cases found

/-- A node that remains keeps its results and what is recorded about them. -/
theorem Reshaped.kept (c : g.Consistent) {node : Node} (found : g.nodes.get? m = some node)
    (alive : g'.contains m = true) :
    g'.nodes.get? m = some (node.rename f) ∧
      ∀ v ∈ node.results, g'.values.get? v = g.values.get? v := by
  have rev := reshaped.revision
  have stayed := rev.not_gone found alive
  refine ⟨rev.kept m node found stayed, fun v result => ?_⟩
  have produced := c.producerOf_result found result
  rcases List.getElem?_of_mem result with ⟨i, resultAt⟩
  rcases c.get?_result found resultAt with ⟨type, infoAt⟩
  refine (rev.get?_of_remains ⟨⟨_, infoAt⟩, fun q producedBy => ?_⟩).1
  rw [produced, Option.some.injEq] at producedBy
  exact producedBy ▸ stayed

/-- A reshaping is local, once its substitution is known to take results of what is gone to results of what came in.
-/
theorem Reshaped.localized (c : g.Consistent) (c' : g'.Consistent) (nodup : sources.Nodup)
    (fixed : ∀ v, v ∉ sources → f v = v)
    (substituted : ∀ v ∈ sources, g.Yields gone v ∧ g'.Yields made (f v)) :
    g.Localized g' gone made sources (sources.map f) where
  gone_iff _ := reshaped.mem_gone_iff
  made_iff _ := reshaped.mem_made_iff
  nodup_gone := reshaped.nodup_gone
  nodup_made := reshaped.nodup_made
  nodup_sources := nodup
  substituted := by
    rw [List.forall₂_map_right_iff, List.forall₂_same]
    exact substituted
  kept m node found alive := by
    rw [redirectAll_map fixed]
    exact reshaped.kept c found alive
  order := reshaped.revision.filter_order c c'
  inputs := reshaped.revision.inputs
  outputs := by rw [substituteAll_eq_map, redirectAll_map fixed, reshaped.revision.outputs]

end Frame

/-! ## The rules -/

theorem Rooted.localized {r : Rooting} (rooted : g.Rooted g' r) (sound : g.Sound) :
    ∃ targets, g.Localized g' [r.load] [r.copy, r.root] [r.loaded] targets := by
  refine ⟨_, (rooted.reshaped sound).localized sound.consistent rooted.consistent
    (List.nodup_singleton _) (fun v => redirectAll_of_not_mem) fun v member => ?_⟩
  rw [List.mem_singleton.mp member, r.substitution_loaded]
  exact ⟨⟨r.load, by simp, _, rooted.loadAt, List.mem_cons_self⟩,
    ⟨r.root, by simp, _, rooted.rootAt, List.mem_cons_self⟩⟩

/-- Rerouting spends the consumer and the only apply that it reads. -/
theorem Rerouted.spends {r : Rerouting} (rerouted : g.Rerouted g' r) (c : g.Consistent) :
    g.Spends .outputRerouting r.consumer [r.consumer, r.producer] := by
  have able := rerouted.reroutable
  exact .only (operands_of_get? able.consumerAt) (able.applyProducers_eq c)

theorem Rerouted.localized {r : Rerouting} (rerouted : g.Rerouted g' r) (sound : g.Sound) :
    ∃ targets, g.Localized g' [r.consumer, r.producer] [r.copy, r.rebuilt] (r.own ++ r.produced)
      targets := by
  have c := sound.consistent
  have able := rerouted.reroutable
  have apart : ∀ v ∈ r.own, ∀ w ∈ r.produced, v ≠ w := fun v own w produced same =>
    c.not_mem_results able.consumerAt able.producerAt (sound.ordered _ _ able.reads).ne.symm own
      (same ▸ produced)
  refine ⟨_, (rerouted.reshaped sound).localized c rerouted.consistent
    (List.nodup_append.mpr ⟨c.results_nodup able.consumerAt, c.results_nodup able.producerAt, apart⟩)
    (fun v absent => ?fixed) fun v member => ?substituted⟩
  case fixed =>
    rw [List.mem_append, not_or] at absent
    rw [Rerouting.substitution, Function.comp_apply, redirectAll_of_not_mem absent.1,
      redirectAll_of_not_mem absent.2]
  case substituted =>
    rcases List.mem_append.mp member with own | produced
    · rcases List.getElem?_of_mem own with ⟨i, ownAt⟩
      exact ⟨⟨r.consumer, by simp, _, able.consumerAt, own⟩,
        ⟨r.rebuilt, by simp, _, rerouted.rebuiltAt, List.mem_of_getElem? (rerouted.own i v ownAt)⟩⟩
    · refine ⟨⟨r.producer, by simp, _, able.producerAt, produced⟩, ?_⟩
      by_cases escapes : g.usedOutside v r.consumer = true
      · exact ⟨r.rebuilt, by simp, _, rerouted.rebuiltAt, rerouted.mem_results produced escapes⟩
      · exact ⟨r.copy, by simp, _, rerouted.copyAt, rerouted.mem_copies produced escapes⟩

/-- Inlining spends the consumer and the first producer that nothing else uses. -/
theorem Merged.spends {r : Inlining} (merged : g.Merged g' r) (c : g.Consistent) :
    g.Spends .producerInlining r.consumer [r.consumer, r.producer] := by
  have able := merged.inlinable
  refine .exclusive (operands_of_get? able.consumerAt) ?_
  rcases c.exclusiveProducer_of_get? able.consumerAt with
    ⟨-, others⟩ | ⟨p, answered, -, confined, chosen⟩
  · have isApply : g.tagOf r.producer = some .apply := tagOf_of_get? able.producerAt
    exact absurd (others r.producer ⟨isApply, able.reads⟩) able.confined
  · rw [← chosen.unique merged.chosen confined able.confined]
    exact answered

theorem Merged.localized {r : Inlining} (merged : g.Merged g' r) (sound : g.Sound) :
    ∃ targets, g.Localized g' [r.consumer, r.producer] [r.merged] r.own targets := by
  have c := sound.consistent
  have able := merged.inlinable
  refine ⟨_, (merged.reshaped sound).localized c merged.consistent (c.results_nodup able.consumerAt)
    (fun v => redirectAll_of_not_mem) fun v own => ?_⟩
  rcases List.getElem?_of_mem own with ⟨i, ownAt⟩
  exact ⟨⟨r.consumer, by simp, _, able.consumerAt, own⟩,
    ⟨r.merged, by simp, _, merged.mergedAt, List.mem_of_getElem? (merged.own i v ownAt)⟩⟩

/-- A rewrite takes away the node at which the rule was applied and the producer that the rule picked, and leaves
everything else alone but for one substitution of values. -/
theorem rewrite_local (built : g.Built) (verified : g.verify = .ok ())
    (ran : (rule.apply n).run g = .ok (.rewritten created) g') :
    ∃ gone sources targets, g.Spends rule n gone ∧
      g.Localized g' gone created sources targets := by
  have sound : g.Sound := built.consistent.sound_iff.mpr verified
  rcases sound.rewrote ran with ⟨noMatch, -⟩ | ⟨created', same, rewrote⟩
  · cases noMatch
  · cases same
    cases rewrote with
    | rooted rooted =>
      rcases rooted.localized sound with ⟨targets, localized⟩
      exact ⟨_, _, targets, .load, localized⟩
    | rerouted rerouted =>
      rcases rerouted.localized sound with ⟨targets, localized⟩
      exact ⟨_, _, targets, rerouted.spends sound.consistent, localized⟩
    | merged merged =>
      rcases merged.localized sound with ⟨targets, localized⟩
      exact ⟨_, _, targets, merged.spends sound.consistent, localized⟩

/-- A rerouting erases the consumer and the producer, and nothing else. -/
theorem rewrite_local_forked :
    forked.Built ∧ forked.verify = .ok () ∧
      ∃ created g', (Rule.outputRerouting.apply ⟨2, 0⟩).run forked = .ok (.rewritten created) g' ∧
        ∃ gone sources targets, forked.Spends .outputRerouting ⟨2, 0⟩ gone ∧
          forked.Localized g' gone created sources targets := by
  have ran : ∃ created g',
      (Rule.outputRerouting.apply ⟨2, 0⟩).run forked = .ok (.rewritten created) g' := ⟨_, _, rfl⟩
  rcases ran with ⟨created, g', ran⟩
  exact ⟨built_forked, rfl, created, g', ran, rewrite_local built_forked rfl ran⟩

end Region

end KernelFusion
