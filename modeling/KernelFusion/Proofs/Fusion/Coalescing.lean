import KernelFusion.Proofs.Fusion.Accounting
import KernelFusion.Proofs.Rewrite.ForwardedResults
import KernelFusion.Proofs.Rewrite.MergedApply

/-!
# Inlining after rerouting

Output rerouting leaves the copy of the producer to producer inlining. The rebuilt consumer reads one apply, the
copy, and nothing else reads the copy; so inlining matches at the rebuilt consumer and takes no other producer. Of
the two applies there was one is left (`Coalesced`), unless a sum of offsets is out of range; such a sum is of
accesses that the consumer and the producer had before the rerouting (`Rerouting.Overflows`).
-/

namespace KernelFusion

/-- A result of the producer is read where the producer reads too far. -/
def Rerouting.Overflows (r : Rerouting) : Prop :=
  ∃ a ∈ r.kernel.accesses, ∃ b ∈ r.innerKernel.accesses, ∃ v ∈ r.produced,
    r.operands[a.param]? = some v ∧ b.offset.add a.offset = .error .addition

/-- An inlining takes up what a rerouting left. -/
structure Rerouting.ContinuedBy (r : Rerouting) (q : Inlining) : Prop where
  consumer : q.consumer = r.rebuilt
  producer : q.producer = r.copy
  operands : q.operands = r.operands'
  kernel : q.kernel = r.kernel'
  own : q.own = r.results
  inner : q.inner = r.inner
  innerKernel : q.innerKernel = r.innerKernel
  produced : q.produced = r.copies

namespace Region

variable {g g₁ g₂ : Region} {r : Rerouting} {q : Inlining} {v w : ValueId}

/-! ## The match at the rebuilt consumer -/

namespace Rerouted

variable (rerouted : g.Rerouted g₁ r) (sound : g.Sound)

include rerouted sound

/-- Another apply that the rebuilt consumer reads would have fed the consumer. -/
theorem feeds_rebuilt_iff {p : NodeId} : g₁.Feeds p r.rebuilt ↔ p = r.copy := by
  have c := sound.consistent
  have able := rerouted.reroutable
  have readsIff {m : NodeId} := rerouted.reads_rebuilt_iff c sound.ordered (m := m)
  constructor
  · intro feeds
    rcases feeds with ⟨isApply, reads⟩
    rcases readsIff.mp reads with same | ⟨reads, ne⟩
    · exact same
    · have first := sound.ordered _ _ reads
      rcases (c.mem_order p).mp first.mem_left with ⟨node, found⟩
      have remains : p ∉ [r.consumer, r.producer] := by simp [first.ne, ne]
      rw [(rerouted.reshaped sound).tagOf_eq found remains] at isApply
      exact absurd ((able.feeds p).mp ⟨isApply, reads⟩) ne
  · intro same
    rw [same]
    exact ⟨tagOf_of_get? rerouted.copyAt, readsIff.mpr (.inl rfl)⟩

omit sound in
/-- Nothing but the rebuilt consumer uses the copy. -/
theorem not_escapes_copy : ¬ g₁.Escapes r.copy r.rebuilt := by
  rw [rerouted.consistent.escapes_iff rerouted.copyAt]
  intro escapes
  rcases escapes with ⟨w, ofCopy, outside⟩
  rw [usedOutside_eq_true_iff, rerouted.uses_copies w ofCopy] at outside
  rcases outside with ⟨m, i, ne, used⟩ | ⟨i, used⟩
  · rcases mem_ownSites.mp used with ⟨j, same, -⟩
    cases same
    exact ne rfl
  · rcases mem_ownSites.mp used with ⟨j, same, -⟩
    cases same

theorem matches_rebuilt : Rule.Matches g₁ .producerInlining r.rebuilt :=
  ⟨r.copy, (rerouted.feeds_rebuilt_iff sound).mpr rfl, rerouted.not_escapes_copy⟩

/-- The rebuilt consumer has the copy as the first producer that nothing else uses. -/
theorem exclusiveProducer_rebuilt :
    g₁.exclusiveProducer r.rebuilt r.operands' = .ok (some r.copy) := by
  have feedsIff {p : NodeId} := rerouted.feeds_rebuilt_iff sound (p := p)
  rcases rerouted.consistent.exclusiveProducer_of_get? rerouted.rebuiltAt with
    ⟨-, others⟩ | ⟨p, answered, feeds, -, -⟩
  · exact absurd (others r.copy (feedsIff.mpr rfl)) rerouted.not_escapes_copy
  · rwa [feedsIff.mp feeds] at answered

theorem continuedBy (able : g₁.Inlinable q) (consumer : q.consumer = r.rebuilt) :
    r.ContinuedBy q := by
  have feeds : g₁.Feeds q.producer q.consumer := ⟨tagOf_of_get? able.producerAt, able.reads⟩
  rw [consumer] at feeds
  have producer := (rerouted.feeds_rebuilt_iff sound).mp feeds
  have consumerAt := able.consumerAt
  have producerAt := able.producerAt
  rw [consumer, rerouted.rebuiltAt] at consumerAt
  rw [producer, rerouted.copyAt] at producerAt
  injection consumerAt with consumerAt
  injection producerAt with producerAt
  injection consumerAt with kind own
  injection producerAt with kind' produced
  injection kind with operands kernel
  injection kind' with inner innerKernel
  exact ⟨consumer, producer, operands.symm, kernel.symm, own.symm, inner.symm, innerKernel.symm,
    produced.symm⟩

end Rerouted

/-! ## What is left -/

/-- One apply is left of a consumer and its only apply producer. It reads what they read besides each other, and gives
what the consumer gave, and behind that the results of the producer that others read. -/
structure Coalesced (g g₂ : Region) (r : Rerouting) (q : Inlining) : Prop where
  verified : g₂.verify = .ok ()
  count : g₂.count .apply + 1 = g.count .apply
  merged : g₂.nodes.get? q.merged = some ⟨.apply q.operands' q.kernel', q.results⟩
  operands : ∀ v, v ∈ q.operands' ↔ v ∈ r.inner ∨ v ∈ r.operands ∧ v ∉ r.produced
  length_results : q.results.length =
    r.own.length + (r.produced.filter fun v => g.usedOutside v r.consumer).length
  own : ∀ (j : Nat) (v : ValueId), r.own[j]? = some v → ∃ w, q.results[j]? = some w ∧
    g₂.usesOf w = g.usesOf v ∧ g.Inherits g₂ v w
  forwarded : ∀ (k : Nat) (v : ValueId), (r.produced.filter fun v => g.usedOutside v r.consumer)[k]? = some v →
    ∃ w, q.results[r.own.length + k]? = some w ∧
      g₂.usesOf w = (g.usesOf v).filter (fun site => site.node? ≠ some r.consumer) ∧ g.Inherits g₂ v w

theorem Inherits.trans {u : ValueId} (first : Inherits g g₁ u v) (second : Inherits g₁ g₂ v w) :
    Inherits g g₂ u w :=
  fun shift out expanded => second shift out (first shift out expanded)

namespace Rerouted

variable (rerouted : g.Rerouted g₁ r) (sound : g.Sound)

include rerouted sound

/-- Without the copies the operands of the rebuilt consumer are those of the consumer without what they copy. -/
theorem kept_iff : v ∈ r.operands' ∧ v ∉ r.copies ↔ v ∈ r.operands ∧ v ∉ r.produced := by
  have able := rerouted.reroutable
  constructor
  · intro kept
    rcases kept with ⟨operand, notCopy⟩
    exact (Rerouting.mem_operands rerouted.length_copies rerouted.placed operand).resolve_left notCopy
  · intro kept
    rcases kept with ⟨operand, other⟩
    refine ⟨rerouted.placed.mem_iff.mpr (.inl ?_), fun ofCopy => ?_⟩
    · rw [substituteAll_eq_map]
      exact List.mem_map.mpr ⟨v, operand, redirectAll_of_not_mem other⟩
    · have absent := rerouted.fresh v (.inl ofCopy)
      exact sound.consistent.not_operand_of_none able.consumerAt absent operand

/-- The merged apply reads what the producer read, and what the consumer read elsewhere. -/
theorem mem_merged_iff (merged : g₁.Merged g₂ q) (continued : r.ContinuedBy q) :
    v ∈ q.operands' ↔ v ∈ r.inner ∨ v ∈ r.operands ∧ v ∉ r.produced := by
  rw [Inlining.mem_operands_iff merged.placed, continued.operands, continued.produced,
    continued.inner, rerouted.kept_iff sound, or_comm]

/-- What the two rules leave together. -/
theorem coalesced (merged : g₁.Merged g₂ q) (continued : r.ContinuedBy q) :
    g.Coalesced g₂ r q := by
  have sound₁ : g₁.Sound := (Rewrote.rerouted rerouted).sound sound
  have sound₂ : g₂.Sound := (Rewrote.merged merged).sound sound₁
  have threaded := rerouted.threaded sound
  have absorbed := merged.absorbed sound₁
  -- What a result of the rebuilt consumer took over, the one in its place takes over from it.
  have passed {k : Nat} {v u : ValueId} {sites : List Use} (resultAt : r.results[k]? = some u)
      (uses : g₁.usesOf u = sites) (inherits : g.Inherits g₁ v u) :
      ∃ w, q.results[k]? = some w ∧ g₂.usesOf w = sites ∧ g.Inherits g₂ v w := by
    rw [← continued.own] at resultAt
    rcases absorbed.results k u resultAt with ⟨w, resultAt', uses', inherits'⟩
    exact ⟨w, resultAt', uses'.trans uses, inherits.trans inherits'⟩
  refine ⟨sound₂.consistent.sound_iff.mp sound₂, ?count, absorbed.merged,
    fun v => rerouted.mem_merged_iff sound merged continued, ?length_results, ?own, ?forwarded⟩
  case count =>
    have same := ((Rewrote.rerouted rerouted).accounts sound {}).2
    have fewer := ((Rewrote.merged merged).accounts sound₁ {}).2
    dsimp only [Tally.record] at same fewer
    omega
  case length_results =>
    rw [absorbed.length_results, continued.own, threaded.length_results]
  case own =>
    intro j v ownAt
    rcases threaded.own j v ownAt with ⟨u, resultAt, uses, inherits⟩
    exact passed resultAt uses inherits
  case forwarded =>
    intro k v escapingAt
    rcases threaded.forwarded k v escapingAt with ⟨u, resultAt, uses, inherits⟩
    exact passed resultAt uses inherits

/-! ## Sums out of range -/

/-- The accesses that rerouting adds are at offset zero, where no sum is out of range. -/
theorem overflows (unmergeable : g₁.Unmergeable q) (continued : r.ContinuedBy q) : r.Overflows := by
  have c := sound.consistent
  have able := rerouted.reroutable
  rcases unmergeable.overflow with ⟨types, failed⟩
  rcases mergedKernel_overflow failed with ⟨j, a, b, ⟨outer, bound, inner⟩, overflow⟩
  rw [continued.kernel] at outer
  rw [continued.innerKernel] at inner
  rcases forwardingKernel_accesses rerouted.computed a outer with outer | zero
  · rcases c.exists_operand able.consumerAt outer with ⟨v, operandAt⟩
    refine ⟨a, outer, b, inner, v, ?_, operandAt, overflow⟩
    have operandAt' : r.operands'[a.param]? = some (redirectAll r.produced r.copies v) := by
      refine rerouted.placed.getElem?_of_getElem? ?_
      rw [substituteAll_eq_map, List.getElem?_map, operandAt, Option.map_some]
    rw [← continued.operands] at operandAt'
    have copyAt := produced_at bound operandAt'
    rw [continued.produced] at copyAt
    refine not_not.mp fun other => ?_
    rw [redirectAll_of_not_mem other] at copyAt
    have absent := rerouted.fresh v (.inl (List.mem_of_getElem? copyAt))
    exact c.not_operand_of_none able.consumerAt absent (List.mem_of_getElem? operandAt)
  · rw [zero, Offset.add_zero] at overflow
    cases overflow

end Rerouted

/-! ## The two rules in a row -/

/-- Where output rerouting has rewritten, producer inlining at the rebuilt consumer takes the copy, and no other
producer, and leaves one apply of the two, unless a sum of offsets is out of range. -/
theorem outputRerouting_then_inlining (built : g.Built) (verified : g.verify = .ok ()) {n : NodeId}
    {created : List NodeId}
    (ran : (Rule.outputRerouting.apply n).run g = .ok (.rewritten created) g₁) :
    ∃ r : Rerouting, r.consumer = n ∧ created = [r.copy, r.rebuilt] ∧ g.Threaded g₁ r ∧
      g₁.exclusiveProducer r.rebuilt r.operands' = .ok (some r.copy) ∧
      ((∃ q g₂, (Rule.producerInlining.apply r.rebuilt).run g₁ = .ok (.rewritten [q.merged]) g₂ ∧
          r.ContinuedBy q ∧ g₁.Absorbed g₂ q ∧ g.Coalesced g₂ r q) ∨
        (Rule.producerInlining.apply r.rebuilt).run g₁ = .error (.arithmetic .addition) g₁ ∧
          r.Overflows) := by
  have sound : g.Sound := built.consistent.sound_iff.mpr verified
  rcases sound.rewrote ran with ⟨noMatch, -⟩ | ⟨created', same, rewrote⟩
  · cases noMatch
  cases same
  have sound₁ := rewrote.sound sound
  cases rewrote with
  | @rerouted r rerouted =>
    refine ⟨r, rfl, rfl, rerouted.threaded sound, rerouted.exclusiveProducer_rebuilt sound, ?_⟩
    rcases inlineProducer_rewrites sound₁.consistent sound₁.ordered (rerouted.matches_rebuilt sound) with
      ⟨g₂, q, consumer, ran₂, merged⟩ | ⟨failed, q, consumer, unmergeable⟩
    · have continued := rerouted.continuedBy sound merged.inlinable consumer
      exact .inl ⟨q, g₂, ran₂, continued, merged.absorbed sound₁,
        rerouted.coalesced sound merged continued⟩
    · have continued := rerouted.continuedBy sound unmergeable.inlinable consumer
      exact .inr ⟨failed, rerouted.overflows sound unmergeable continued⟩

/-- The result of the first apply is an output as well; the one apply that is left gives both outputs. -/
theorem outputRerouting_then_inlining_forked :
    forked.Built ∧ forked.verify = .ok () ∧
      ∃ r g₁ q g₂, (Rule.outputRerouting.apply ⟨2, 0⟩).run forked =
          .ok (.rewritten [r.copy, r.rebuilt]) g₁ ∧
        (Rule.producerInlining.apply r.rebuilt).run g₁ = .ok (.rewritten [q.merged]) g₂ ∧
        r.ContinuedBy q ∧ forked.Coalesced g₂ r q := by
  have both : ∃ g₁ ended g₂,
      (Rule.outputRerouting.apply ⟨2, 0⟩).run forked = .ok (.rewritten [⟨3, 0⟩, ⟨4, 0⟩]) g₁ ∧
        (Rule.producerInlining.apply ⟨4, 0⟩).run g₁ = .ok ended g₂ := ⟨_, _, _, rfl, rfl⟩
  rcases both with ⟨g₁, ended, g₂, ran, ran'⟩
  rcases outputRerouting_then_inlining built_forked rfl ran with
    ⟨r, -, created, -, -, ⟨q, g₂', ran₂, continued, -, coalesced⟩ | ⟨failed, -⟩⟩
  · rw [created] at ran
    exact ⟨built_forked, rfl, r, g₁, q, g₂', ran, ran₂, continued, coalesced⟩
  · have names : r.copy = ⟨3, 0⟩ ∧ r.rebuilt = ⟨4, 0⟩ := by simpa using created.symm
    rw [names.2, ran'] at failed
    cases failed

end Region

end KernelFusion
