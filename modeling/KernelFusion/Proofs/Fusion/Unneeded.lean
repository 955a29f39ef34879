import KernelFusion.Proofs.Arena.Listing
import KernelFusion.Proofs.Fusion.Fixpoint
import KernelFusion.Proofs.Rewrite.Expansion
import KernelFusion.Proofs.Rewrite.RuleAccesses

/-!
# Sums that no result needs

Merging copies the whole kernel of the producer for each access of the consumer, and moves all of its accesses. An
expansion takes the same sums, but only for the accesses on which a result depends. So a region all of whose values
expand can be refused by fusion: the second result of `Region.farResult` is read nowhere, and yet its access is moved
out of range (`fuse_overflows_farResult`).

There is no other way. Rewrites keep such regions expandable (`Region.expandable_of_becomes`), and in an expandable
region a sum that a result needs is in range (`Region.Inlinable.exists_sum`). So where fusion stops, no result needs
the sums that are out of range (`fuse_overflow_unneeded`).
-/

namespace KernelFusion

/-- A result of the consumer needs an access, and the result of the producer that is read there needs another. -/
structure Needed (consumer kernel : Kernel) (j : Nat) (a b : Access) : Prop where
  outer : ∃ i, consumer.Needs i a
  inner : kernel.Needs j b

namespace Region

variable {g g' : Region} {r : Inlining} {j : Nat} {a b : Access}

/-- The expansion of a result takes the sum for each access that the result needs. -/
theorem Consistent.exists_read (c : g.Consistent) {n : NodeId} {operands results : List ValueId}
    {kernel : Kernel} (found : g.nodes.get? n = some ⟨.apply operands kernel, results⟩) {i : Nat}
    {v : ValueId} (resultAt : results[i]? = some v) {read : Access} (needs : kernel.Needs i read)
    {levels : Nat} {shift : Offset} {out : Expr Cell}
    (expanded : g.expandWithin levels v shift = .ok out) :
    ∃ operand shift' out', operands[read.param]? = some operand ∧
      read.offset.add shift = .ok shift' ∧ g.expandWithin levels operand shift' = .ok out' := by
  rcases needs with ⟨type, tree, returned, member⟩
  have expanded := expandWithin_succ expanded
  rw [c.expandWithin_apply found resultAt returned] at expanded
  rcases Expr.exists_of_bindM_eq_ok expanded member with ⟨out', inner⟩
  rcases readWithin_eq_ok_iff.mp inner with ⟨operand, shift', operandAt, sum, inner⟩
  exact ⟨operand, shift', out', operandAt, sum, inner⟩

/-- So the sums that the results of the consumer need are in range. -/
theorem Inlinable.exists_sum (able : g.Inlinable r) (c : g.Consistent) (all : g.Expandable)
    (bound : r.bindings[a.param]? = some (.inlined j))
    (needed : Needed r.kernel r.innerKernel j a b) : ∃ sum, b.offset.add a.offset = .ok sum := by
  rcases needed.outer with ⟨i, needs⟩
  have lt : i < r.own.length := by
    rcases needs with ⟨_, _, ⟨loc, locAt, -, -⟩, -⟩
    rw [c.length_returns able.consumerAt]
    exact (List.getElem?_eq_some_iff.mp locAt).1
  have ownAt := List.getElem?_eq_getElem lt
  rcases c.get?_result able.consumerAt ownAt with ⟨type, infoAt⟩
  rcases all.unfolds infoAt with ⟨levels, out, expanded⟩
  -- The result is expanded in place, so the operand is read at the offset of the access.
  rcases c.exists_read able.consumerAt ownAt needs expanded with
    ⟨operand, shift, _, operandAt, shifted, inner⟩
  rw [Offset.add_zero, Except.ok.injEq] at shifted
  rcases c.exists_read able.producerAt (produced_at bound operandAt) needed.inner inner with
    ⟨_, sum, _, -, summed, -⟩
  exact ⟨sum, shifted ▸ summed⟩

/-- Rewrites of an expandable region lead to expandable ones. -/
theorem expandable_of_becomes (chain : Relation.ReflTransGen Becomes g g') (sound : g.Sound)
    (all : g.Expandable) : g'.Expandable :=
  (keeps_of_becomes Expandable
    (fun _ _ _ _ _ sound₁ all₁ rewrote => rewrote.expandable sound₁ all₁) chain sound all).2

end Region

/-! ## Fusion -/

/-- Fusion of a region whose values expand ends with such a region, or stops at such a region, where it cannot merge
an apply into its consumer since a sum of offsets is out of range. No result needs any such sum. -/
theorem fuse_overflow_unneeded {g : Region} (built : g.Built) (verified : g.verify = .ok ())
    (all : g.Expandable) (settings : Settings) :
    (∃ tally g', (fuse settings).run g = .ok tally g' ∧ g'.verify = .ok () ∧ g'.Expandable) ∨
    ∃ g' r, (fuse settings).run g = .error (.refused (.arithmetic .addition)) g' ∧
      g'.verify = .ok () ∧ g'.Expandable ∧
      (Rule.producerInlining.apply r.consumer).run g' = .error (.arithmetic .addition) g' ∧
      g'.Inlinable r ∧ Overflows r.kernel r.innerKernel r.bindings ∧
      ∀ j a b, Composes r.kernel r.innerKernel r.bindings j a b →
        b.offset.add a.offset = .error .addition → ¬ Needed r.kernel r.innerKernel j a b := by
  have sound : g.Sound := built.consistent.sound_iff.mpr verified
  rcases fuse_ends sound settings with
    ⟨tally, g', ran, sound', chain⟩ | ⟨g', r, ran, sound', chain, failed, unmergeable⟩
  · have all' := Region.expandable_of_becomes chain sound all
    exact .inl ⟨tally, g', ran, sound'.consistent.sound_iff.mp sound', all'⟩
  · have c' := sound'.consistent
    have all' := Region.expandable_of_becomes chain sound all
    have able := unmergeable.inlinable
    rcases unmergeable.overflow with ⟨types, refused⟩
    refine .inr ⟨g', r, ran, c'.sound_iff.mp sound', all', failed, able,
      mergedKernel_overflow refused, fun j a b composes overflow needed => ?_⟩
    rcases able.exists_sum c' all' composes.bound needed with ⟨sum, summed⟩
    rw [overflow] at summed
    cases summed

/-! ## A result that is read nowhere -/

/-- An apply with two results, one of which reads next to nothing and the other as far away as can be. The first is
read one step away, the second is not read at all. -/
def Region.farResult : Region := tandem [.zero, ⟨Int64.maxValue, 0, 0⟩] [⟨1, 0, 0⟩]

theorem Region.expandable_farResult : Region.farResult.Expandable := by
  have built : Region.farResult.Built := built_tandem _ _
  have c := built.consistent
  have o := (c.sound_iff.mpr rfl).ordered
  have each : ∀ e ∈ farResult.values.toList, (farResult.expandWithin 3 e.1 .zero).isOk = true := by
    decide
  refine c.expandable_of_unfolds o fun v info infoAt => ⟨3, ?_⟩
  have expands := each (v, info) (Arena.mem_toList_iff.mpr infoAt)
  cases expanded : farResult.expandWithin 3 v .zero with
  | ok out => exact ⟨out, rfl⟩
  | error e =>
    rw [expanded] at expands
    cases expands

theorem exists_fuse_farResult :
    ∃ g', (fuse {}).run Region.farResult = .error (.refused (.arithmetic .addition)) g' :=
  ⟨_, run_of_answer_error (by decide +kernel)⟩

/-- Every value of the region expands, and fusion does not end with a result. -/
theorem fuse_overflows_farResult :
    Region.farResult.Built ∧ Region.farResult.verify = .ok () ∧ Region.farResult.Expandable ∧
      ∃ g', (fuse {}).run Region.farResult = .error (.refused (.arithmetic .addition)) g' :=
  ⟨Region.built_tandem _ _, rfl, Region.expandable_farResult, exists_fuse_farResult⟩

theorem fuse_overflow_unneeded_farResult :
    Region.farResult.Built ∧ Region.farResult.verify = .ok () ∧ Region.farResult.Expandable ∧
      ∃ g' r, (fuse {}).run Region.farResult = .error (.refused (.arithmetic .addition)) g' ∧
        g'.Inlinable r ∧ ∃ j a b, Composes r.kernel r.innerKernel r.bindings j a b ∧
          b.offset.add a.offset = .error .addition ∧ ¬ Needed r.kernel r.innerKernel j a b := by
  have built : Region.farResult.Built := Region.built_tandem _ _
  have all := Region.expandable_farResult
  refine ⟨built, rfl, all, ?_⟩
  rcases fuse_overflow_unneeded built rfl all {} with
    ⟨tally, g', ran, -⟩ | ⟨g', r, ran, -, -, -, able, ⟨j, a, b, composes, overflow⟩, unneeded⟩
  · rcases exists_fuse_farResult with ⟨g'', stopped⟩
    rw [ran] at stopped
    cases stopped
  · exact ⟨g', r, ran, able, j, a, b, composes, overflow, unneeded j a b composes overflow⟩

end KernelFusion
