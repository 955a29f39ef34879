import KernelFusion.Proofs.Rewrite.Expansion
import KernelFusion.Proofs.Rewrite.RuleAccesses

/-!
# What a consumer has absorbed

Producer inlining numbers parameters twice: those of the consumer lose the results of the producer, and those of the
producer become what they are behind the kept ones, or one of these. `Inlining.AccessedAs` says what an access of
the consumer has become in terms of the values that are read, and `Merged.exists_parts` that the accesses of the
merged kernel are these and no others, in order; the number of its instructions follows.

`producerInlining_absorbs` says which producer was taken, and where everything is afterwards (`Absorbed`).
-/

namespace KernelFusion

variable {r : Inlining}

namespace Inlining

/-- An access of the consumer to a result of the producer. -/
def inlines (r : Inlining) (a : Access) : Bool := (r.operands[a.param]?).any fun v => v ∈ r.produced

/-- What an access of the consumer has become: the same access to the parameter as numbered among the kept ones, or
the accesses of the producer, moved, to the operands as numbered in the merged apply. -/
def AccessedAs (r : Inlining) (a : Access) (part : List Access) : Prop :=
  ∃ v, r.operands[a.param]? = some v ∧
    (v ∉ r.produced ∧ part = [⟨(r.operands.take a.param).countP (· ∉ r.produced), a.offset⟩] ∨
      v ∈ r.produced ∧ List.Forall₂ (fun b new =>
        (∃ u, r.inner[b.param]? = some u ∧ new.param = r.operands'.idxOf u) ∧
          b.offset.add a.offset = .ok new.offset) r.innerKernel.accesses part)

theorem bindings_at {i : Nat} {v : ValueId} (operandAt : r.operands[i]? = some v) :
    (∃ j, r.bindings[i]? = some (.inlined j) ∧ v ∈ r.produced) ∨
      r.bindings[i]? = some (.param ((r.operands.take i).countP (· ∉ r.produced))) ∧ v ∉ r.produced := by
  rw [← Nat.zero_add ((r.operands.take i).countP _)]
  exact getElem?_bindingsOf operandAt

end Inlining

/-! ## The merged kernel -/

/-- What was added for an access is the instructions of the producer, if it reads the producer, and otherwise one
access. -/
theorem accessedAs_of_becomes {a : Access} {part : List Step} {v : ValueId}
    (place : placeOperands r.kept r.inner = (r.operands', r.places))
    (operandAt : r.operands[a.param]? = some v)
    (becomes : Becomes r.innerKernel r.bindings r.places a part) :
    r.AccessedAs a (accessesOf part) ∧
      part.length = if r.inlines a then r.innerKernel.body.length else 1 := by
  have reads : r.inlines a = decide (v ∈ r.produced) := by
    rw [Inlining.inlines, operandAt, Option.any_some]
  have places : r.places = r.inner.map r.operands'.idxOf := by
    have placed := placeOperands_snd r.kept r.inner
    rwa [place] at placed
  cases becomes with
  | kept bindingAt' accesses length =>
    rcases Inlining.bindings_at operandAt with ⟨j, bindingAt, -⟩ | ⟨bindingAt, absent⟩
    · rw [bindingAt] at bindingAt'
      cases bindingAt'
    · rw [bindingAt] at bindingAt'
      cases bindingAt'
      refine ⟨⟨v, operandAt, .inl ⟨absent, accesses⟩⟩, ?_⟩
      rw [reads, decide_eq_false absent, if_neg Bool.false_ne_true, length]
  | inlined bindingAt' moved length =>
    rcases Inlining.bindings_at operandAt with ⟨j, bindingAt, member⟩ | ⟨bindingAt, -⟩
    · refine ⟨⟨v, operandAt, .inr ⟨member, moved.imp fun b new moves => ?_⟩⟩, ?_⟩
      · rcases moves with ⟨placeAt, sum⟩
        rw [places, List.getElem?_map, Option.map_eq_some_iff] at placeAt
        rcases placeAt with ⟨u, innerAt, same⟩
        exact ⟨⟨u, innerAt, same.symm⟩, sum⟩
      · rw [reads, decide_eq_true member, if_pos rfl, length]
    · rw [bindingAt] at bindingAt'
      cases bindingAt'

/-- The length of parts that are of one size where a test succeeds, and single elsewhere. -/
theorem sum_length_parts {α β : Type} {p : α → Bool} {size : Nat} {l : List α} {parts : List (List β)}
    (aligned : List.Forall₂ (fun a part => part.length = if p a then size else 1) l parts) :
    (parts.map List.length).sum + l.countP p = l.length + l.countP p * size := by
  induction aligned with
  | nil => simp
  | @cons a part l parts head _ ih =>
    rw [List.map_cons, List.sum_cons, List.length_cons, head]
    cases test : p a with
    | false =>
      rw [List.countP_cons_of_neg (by simp [test]), if_neg Bool.false_ne_true]
      omega
    | true =>
      rw [List.countP_cons_of_pos test, if_pos rfl, Nat.succ_mul]
      omega

namespace Region

variable {g g' : Region}

namespace Merged

variable (merged : g.Merged g' r) (c : g.Consistent)

include merged c

/-- What every access has become, and how many instructions that makes. -/
theorem exists_parts : ∃ parts : List (List Access), List.Forall₂ r.AccessedAs r.kernel.accesses parts ∧
    r.kernel'.accesses = parts.flatten ∧
    r.kernel'.steps.length + r.kernel.accesses.countP r.inlines =
      r.kernel.steps.length + r.kernel.accesses.countP r.inlines * r.innerKernel.body.length := by
  have able := merged.inlinable
  have wf := (c.fits _ _ able.consumerAt).kernel r.kernel rfl
  have wf' := (c.fits _ _ able.producerAt).kernel r.innerKernel rfl
  rcases mergedKernel_steps wf wf' merged.computed with ⟨parts, aligned, accesses, length⟩
  have each := forall₂_imp_of_mem aligned fun a member part becomes => by
    rcases c.exists_operand able.consumerAt member with ⟨v, operandAt⟩
    exact accessedAs_of_becomes merged.place operandAt becomes
  refine ⟨parts.map accessesOf, ?_, accesses.trans (List.flatMap_def ..), ?_⟩
  · rw [List.forall₂_map_right_iff]
    exact each.imp fun _ _ both => both.1
  · have counted := sum_length_parts (each.imp fun _ _ both => both.2)
    omega

/-- The producer returns something, so its kernel holds an instruction besides the return. -/
theorem two_le_steps : 2 ≤ r.innerKernel.steps.length := by
  have able := merged.inlinable
  have fits := c.fits _ _ able.producerAt
  have wf := fits.kernel r.innerKernel rfl
  rcases (reads_iff_operand able.consumerAt).mp able.reads with ⟨v, -, produced⟩
  rcases List.getElem?_of_mem ((c.mem_results_iff able.producerAt).mpr produced) with ⟨i, resultAt⟩
  have lt := (List.getElem?_eq_some_iff.mp resultAt).1
  rw [c.length_returns able.producerAt] at lt
  have positive := Nat.zero_lt_of_lt (wf.defined _ (List.getElem_mem lt))
  rw [wf.length_steps]
  exact Nat.succ_le_succ positive

theorem length_steps : r.kernel'.steps.length = r.kernel.steps.length +
    r.kernel.accesses.countP r.inlines * (r.innerKernel.steps.length - 2) := by
  have wf := (c.fits _ _ merged.inlinable.producerAt).kernel r.innerKernel rfl
  have enough := merged.two_le_steps c
  rcases merged.exists_parts c with ⟨-, -, -, length⟩
  rw [wf.length_steps] at enough ⊢
  rcases Nat.exists_eq_add_of_le' (Nat.le_of_succ_le_succ enough) with ⟨size, body⟩
  rw [body, Nat.mul_succ] at length
  have rest : r.innerKernel.body.length + 1 - 2 = size := by omega
  rw [rest]
  omega

end Merged

/-! ## The whole rule -/

/-- What producer inlining leaves in the place of a consumer and of the first apply, in operand order, that nothing
else reads: the merged apply, which gives what the consumer gave. -/
structure Absorbed (g g' : Region) (r : Inlining) : Prop where
  consumer : g.nodes.get? r.consumer = some ⟨.apply r.operands r.kernel, r.own⟩
  producer : g.nodes.get? r.producer = some ⟨.apply r.inner r.innerKernel, r.produced⟩
  confined : ∀ v ∈ r.produced, g.usedOutside v r.consumer = false
  /-- The applies that lead the operands up to the first result of the producer are read elsewhere as well. -/
  first : ∃ front v back, r.operands = front ++ v :: back ∧ v ∈ r.produced ∧
    ∀ u ∈ front, ∀ q operands kernel results,
      g.nodes.get? q = some ⟨.apply operands kernel, results⟩ → u ∈ results →
      ∃ w ∈ results, g.usedOutside w r.consumer = true
  gone : g'.nodes.get? r.consumer = none ∧ g'.nodes.get? r.producer = none
  order : ∃ front mid back, g.order = front ++ r.producer :: (mid ++ r.consumer :: back) ∧
    g'.order = front ++ (mid ++ r.merged :: back)
  merged : g'.nodes.get? r.merged = some ⟨.apply r.operands' r.kernel', r.results⟩
  operands : r.operands' = r.kept ++ (r.inner.filter fun v => v ∉ r.kept).eraseDups
  accesses : ∃ parts, List.Forall₂ r.AccessedAs r.kernel.accesses parts ∧
    r.kernel'.accesses = parts.flatten
  two_le : 2 ≤ r.innerKernel.steps.length
  length_steps : r.kernel'.steps.length = r.kernel.steps.length +
    r.kernel.accesses.countP r.inlines * (r.innerKernel.steps.length - 2)
  length_results : r.results.length = r.own.length
  results : ∀ (j : Nat) (v : ValueId), r.own[j]? = some v → ∃ w, r.results[j]? = some w ∧
    g'.usesOf w = g.usesOf v ∧ g.Inherits g' v w

/-- The producer that is chosen is found at an operand before which every producer is used elsewhere. -/
theorem Chosen.first {operands produced : List ValueId} {n p : NodeId} {kind : NodeKind}
    (chosen : g.Chosen operands n p) (c : g.Consistent)
    (producerAt : g.nodes.get? p = some ⟨kind, produced⟩) :
    ∃ front v back, operands = front ++ v :: back ∧ v ∈ produced ∧
      ∀ u ∈ front, ∀ q operands kernel results,
        g.nodes.get? q = some ⟨.apply operands kernel, results⟩ → u ∈ results →
        ∃ w ∈ results, g.usedOutside w n = true := by
  rcases chosen with ⟨front, v, back, split, isProducer, earlier⟩
  have produced := (applyProducerOf_eq_some_iff.mp isProducer).1
  refine ⟨front, v, back, split, (c.mem_results_iff producerAt).mpr produced, ?_⟩
  intro u inFront q operands' kernel results found result
  have isApply : g.tagOf q = some .apply := by
    rw [tagOf, found]
    rfl
  have leads := applyProducerOf_eq_some_iff.mpr ⟨c.producerOf_result found result, isApply⟩
  exact (c.escapes_iff found).mp (earlier u inFront q leads)

/-- What inlining does, read off what it leaves. -/
theorem Merged.absorbed (merged : g.Merged g' r) (sound : g.Sound) : g.Absorbed g' r := by
  have c := sound.consistent
  have able := merged.inlinable
  have sound' : g'.Sound := (Rewrote.merged merged).sound sound
  have operands : r.operands' = r.kept ++ (r.inner.filter fun v => v ∉ r.kept).eraseDups := by
    have placed := placeOperands_fst r.kept r.inner
    rwa [merged.place] at placed
  have accesses : ∃ parts, List.Forall₂ r.AccessedAs r.kernel.accesses parts ∧
      r.kernel'.accesses = parts.flatten := by
    rcases merged.exists_parts c with ⟨parts, each, whole, -⟩
    exact ⟨parts, each, whole⟩
  have lengthReturns := merged.renders.length_eq
  rw [← c.length_returns able.consumerAt, ← merged.consistent.length_returns merged.mergedAt] at lengthReturns
  refine ⟨able.consumerAt, able.producerAt, ?confined, merged.chosen.first c able.producerAt,
    ⟨merged.revision.none_of_gone able.consumerAt (by simp),
      merged.revision.none_of_gone able.producerAt (by simp)⟩,
    merged.order, merged.mergedAt, operands, accesses, merged.two_le_steps c, merged.length_steps c,
    lengthReturns.symm, ?results⟩
  case confined =>
    intro v member
    refine eq_false_of_ne_true fun outside => able.confined ?_
    exact (c.escapes_iff able.producerAt).mpr ⟨v, member, outside⟩
  case results =>
    intro j v ownAt
    have own := List.mem_of_getElem? ownAt
    have resultAt := merged.own j v ownAt
    rcases c.get?_result able.consumerAt ownAt with ⟨type, infoAt⟩
    -- The consumer does not produce what the producer does, so its results are among those that are kept.
    have visible : g.producerOf v ≠ some r.producer := by
      rw [c.producerOf_result able.consumerAt own]
      exact fun same => (able.producer_first sound.ordered).ne (Option.some.inj same).symm
    have expands : Expands g g' g.depth v (r.substitution v) :=
      merged.expands c sound.ordered infoAt visible
    exact ⟨_, resultAt, merged.uses_own v own,
      sound'.consistent.inherits sound'.ordered merged.mergedAt (List.mem_of_getElem? resultAt) expands⟩

/-- Where producer inlining rewrites, the consumer has absorbed the first producer that only it reads. -/
theorem producerInlining_absorbs (built : g.Built) (verified : g.verify = .ok ()) {n : NodeId}
    {created : List NodeId}
    (ran : (Rule.producerInlining.apply n).run g = .ok (.rewritten created) g') :
    ∃ r : Inlining, r.consumer = n ∧ created = [r.merged] ∧ g.Absorbed g' r := by
  have sound : g.Sound := built.consistent.sound_iff.mpr verified
  rcases sound.rewrote ran with ⟨noMatch, -⟩ | ⟨created', same, rewrote⟩
  · cases noMatch
  · cases same
    cases rewrote with
    | merged merged => exact ⟨_, rfl, rfl, merged.absorbed sound⟩

/-- Of two applies in a row, the second absorbs the first, at both offsets. -/
theorem producerInlining_absorbs_tandem :
    (tandem [⟨1, 0, 0⟩, ⟨2, 0, 0⟩] [⟨0, 1, 0⟩]).Built ∧
      (tandem [⟨1, 0, 0⟩, ⟨2, 0, 0⟩] [⟨0, 1, 0⟩]).verify = .ok () ∧
      ∃ g' r, (Rule.producerInlining.apply ⟨2, 0⟩).run (tandem [⟨1, 0, 0⟩, ⟨2, 0, 0⟩] [⟨0, 1, 0⟩]) =
          .ok (.rewritten [r.merged]) g' ∧
        (tandem [⟨1, 0, 0⟩, ⟨2, 0, 0⟩] [⟨0, 1, 0⟩]).Absorbed g' r := by
  have ran : ∃ created g', (Rule.producerInlining.apply ⟨2, 0⟩).run
      (tandem [⟨1, 0, 0⟩, ⟨2, 0, 0⟩] [⟨0, 1, 0⟩]) = .ok (.rewritten created) g' := ⟨_, _, rfl⟩
  rcases ran with ⟨created, g', ran⟩
  rcases producerInlining_absorbs (built_tandem _ _) rfl ran with ⟨r, -, rfl, absorbed⟩
  exact ⟨built_tandem _ _, rfl, g', r, ran, absorbed⟩

end Region

end KernelFusion
