import KernelFusion.Proofs.Fusion.Rewriting
import KernelFusion.Proofs.Region.Built
import KernelFusion.Proofs.Rewrite.Expansion

/-!
# Fusion keeps the meaning

What a region means is what its outputs expand to, over its fields and inputs. A rewrite keeps that: the outputs are
values that remain visible, each expands to what it did before with twice as many levels, and in an ordered region the
number of levels does not matter. So it is kept by any sequence of rewrites, of any rules at any nodes in any order.
-/

namespace KernelFusion

namespace Region

variable {g g' g'' : Region} {n : NodeId} {rule : Rule} {created gone made : List NodeId}
  {f : ValueId → ValueId}

/-- A region has the inputs of another, and outputs of the same types in the same places, which expand to the same
expressions. -/
structure KeepsMeaning (g g' : Region) : Prop where
  inputs : g'.inputs = g.inputs
  inputValues : ∀ v ∈ g.inputs, g'.values.get? v = g.values.get? v
  outputTypes : g'.outputs.map g'.typeOf = g.outputs.map g.typeOf
  expandOutputs : ∀ exprs, g.expandOutputs = .ok exprs → g'.expandOutputs = .ok exprs

namespace KeepsMeaning

theorem refl (g : Region) : g.KeepsMeaning g :=
  ⟨rfl, fun _ _ => rfl, rfl, fun _ expanded => expanded⟩

/-- Meaning that is kept twice is kept. -/
theorem trans (first : g.KeepsMeaning g') (second : g'.KeepsMeaning g'') : g.KeepsMeaning g'' where
  inputs := second.inputs.trans first.inputs
  inputValues v member := by
    have member' : v ∈ g'.inputs := first.inputs ▸ member
    rw [second.inputValues v member', first.inputValues v member]
  outputTypes := second.outputTypes.trans first.outputTypes
  expandOutputs exprs expanded := second.expandOutputs exprs (first.expandOutputs exprs expanded)

end KeepsMeaning

/-! ## One rewrite -/

/-- A revision keeps the meaning of a region if it keeps the expansions of what the outputs read. -/
theorem Revision.keepsMeaning (rev : Revision g g' gone made f) (c : g.Consistent) (sound' : g'.Sound)
    (expands : ∀ v ∈ g.outputs, ∀ levels, Expands g g' levels v (f v)) : g.KeepsMeaning g' where
  inputs := rev.inputs
  inputValues v member := by
    rcases List.getElem?_of_mem member with ⟨i, inputAt⟩
    rcases c.inputs i v inputAt with ⟨type, infoAt⟩
    rw [(rev.value v _ infoAt fun n _ same => by cases same).1, infoAt]
  outputTypes := by
    rw [rev.outputs, List.map_map]
    exact List.map_congr_left rev.outputTypes
  expandOutputs exprs expanded := by
    have each := mapM_eq_ok_iff.mp expanded
    refine mapM_eq_ok_iff.mpr (forall₂_of_getElem? ?length fun i w e outputAt' exprAt => ?_)
    case length => rw [rev.outputs, List.length_map, each.length_eq]
    rcases exists_left_of_getElem? each exprAt with ⟨v, outputAt, expandedV⟩
    have renamed : f v = w := by
      rw [rev.outputs, List.getElem?_map, outputAt, Option.map_some, Option.some.injEq] at outputAt'
      exact outputAt'
    rcases sound'.consistent.outputs w (List.mem_of_getElem? outputAt') with ⟨info, infoAt⟩
    have expandedW : g'.expandWithin (2 * g.depth) w .zero = .ok e :=
      renamed ▸ expands v (List.mem_of_getElem? outputAt) g.depth .zero e expandedV
    exact sound'.consistent.expandAt_eq_ok sound'.ordered infoAt expandedW

/-- Every rewrite keeps the meaning. -/
theorem Rewrote.keepsMeaning (rewrote : g.Rewrote g' rule n created) (sound : g.Sound) :
    g.KeepsMeaning g' := by
  have c := sound.consistent
  have o := sound.ordered
  have sound' := rewrote.sound sound
  cases rewrote with
  | rooted rooted =>
    refine rooted.revision.keepsMeaning c sound' fun v member levels => ?_
    rcases c.outputs v member with ⟨info, infoAt⟩
    exact rooted.expands c infoAt
  | rerouted rerouted =>
    refine rerouted.revision.keepsMeaning c sound' fun v member levels => ?_
    rcases c.outputs v member with ⟨info, infoAt⟩
    exact rerouted.expands c o infoAt
  | merged merged =>
    refine merged.revision.keepsMeaning c sound' fun v member levels => ?_
    rcases c.outputs v member with ⟨info, infoAt⟩
    -- An output of the producer would let it escape.
    exact merged.expands c o infoAt fun produced =>
      merged.inlinable.confined (.inr ⟨v, member, produced⟩)

/-! ## Sequences of rewrites -/

/-- A sequence of rewrites keeps the meaning. -/
theorem keepsMeaning_of_becomes (chain : Relation.ReflTransGen Becomes g g') (sound : g.Sound) :
    g'.Sound ∧ g.KeepsMeaning g' := by
  refine keeps_of_becomes g.KeepsMeaning (fun g₁ g₂ rule n created sound₁ keeps rewrote => ?_) chain
    sound (.refl g)
  exact keeps.trans (rewrote.keepsMeaning sound₁)

end Region

/-- Every sequence of rewrites of a region that passes the check keeps its meaning, and so does fusion. -/
theorem rewriting_keeps_meaning {g : Region} (built : g.Built) (verified : g.verify = .ok ()) :
    (∀ g', Relation.ReflTransGen Region.Rewrites g g' → g.KeepsMeaning g') ∧
      ∀ (settings : Settings) (tally : Tally) (g' : Region),
        (fuse settings).run g = .ok tally g' → g.KeepsMeaning g' := by
  have sound : g.Sound := built.consistent.sound_iff.mpr verified
  constructor
  · intro g' chain
    have becomes := (Region.becomes_of_rewrites chain sound).2
    exact (Region.keepsMeaning_of_becomes becomes sound).2
  · intro settings tally g' ran
    have ending := fused sound settings
    rw [ran] at ending
    exact (Region.keepsMeaning_of_becomes (ending.becomes sound).2 sound).2

/-- Both outputs read the field in place. -/
theorem expandOutputs_sharedField :
    Region.sharedField.expandOutputs =
      .ok [.read ⟨.field ⟨"u"⟩, .zero⟩, .read ⟨.field ⟨"u"⟩, .zero⟩] := by
  have c := Region.built_sharedField.consistent
  have o := (c.sound_iff.mpr Region.verify_sharedField).ordered
  have first : Region.sharedField.expandWithin 2 ⟨1, 0⟩ .zero =
      .ok (.read ⟨.field ⟨"u"⟩, .zero⟩) := rfl
  have second : Region.sharedField.expandWithin 2 ⟨2, 0⟩ .zero =
      .ok (.read ⟨.field ⟨"u"⟩, .zero⟩) := rfl
  have infoAt₁ : Region.sharedField.values.get? ⟨1, 0⟩ = some ⟨.float64, .result ⟨1, 0⟩ 0⟩ := rfl
  have infoAt₂ : Region.sharedField.values.get? ⟨2, 0⟩ = some ⟨.float64, .result ⟨2, 0⟩ 0⟩ := rfl
  exact mapM_eq_ok_iff.mpr (.cons (c.expandAt_eq_ok o infoAt₁ first)
    (.cons (c.expandAt_eq_ok o infoAt₂ second) .nil))

theorem rewriting_keeps_meaning_sharedField :
    Region.sharedField.Built ∧ Region.sharedField.verify = .ok () ∧
      ∃ g', Region.sharedField.Rewrites g' ∧ g'.expandOutputs =
        .ok [.read ⟨.field ⟨"u"⟩, .zero⟩, .read ⟨.field ⟨"u"⟩, .zero⟩] := by
  have rewrites : ∃ g', Region.sharedField.Rewrites g' :=
    ⟨_, .rootIntroduction, ⟨0, 0⟩, _, rfl⟩
  rcases rewrites with ⟨g', rewrites⟩
  have keeps := (rewriting_keeps_meaning Region.built_sharedField Region.verify_sharedField).1 g'
    (.single rewrites)
  exact ⟨Region.built_sharedField, Region.verify_sharedField, g', rewrites,
    keeps.expandOutputs _ expandOutputs_sharedField⟩

end KernelFusion
