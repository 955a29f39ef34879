import KernelFusion.Proofs.Region.Expansion
import KernelFusion.Proofs.Rewrite.Application

/-!
# Rewrites keep expansions

What a value expands to before a rewrite, the value that is read in its place expands to afterwards, with twice as
many levels (`Expands`). For a value that no node that went produces this follows from the same for the operands of
its producer (`Revision.expands_kept`); for the results of the nodes that went it is shown rule by rule. The root and
the rebuilt consumer put one more node in the way of a read, and merging takes one out: there the offsets of two reads
are added before the shift is, which gives the same sum.

It follows that a region all of whose values expand stays one (`Rewrote.expandable`): its values are those that
remained and the results of the new nodes.
-/

namespace KernelFusion.Region

variable {g g' : Region} {v w : ValueId} {levels : Nat} {gone made : List NodeId}
  {f : ValueId → ValueId} {info : ValueInfo}

/-- What one value expands to, the other expands to afterwards with twice as many levels. -/
def Expands (g g' : Region) (levels : Nat) (v v' : ValueId) : Prop :=
  ∀ shift out, g.expandWithin levels v shift = .ok out →
    g'.expandWithin (2 * levels) v' shift = .ok out

theorem expands_zero : Expands g g' 0 v w := by
  intro shift out expanded
  cases expanded

/-! ## Values that stay -/

/-- A value that remains expands as before, by induction on the levels: its node is the old one, and so are the
expansions of what it reads. -/
theorem Revision.expands_kept (rev : Revision g g' gone made f) (c : g.Consistent)
    (c' : g'.Consistent) (remains : g.Remains gone v)
    (operands : ∀ n node u, g.nodes.get? n = some node → n ∉ gone → u ∈ node.kind.operands →
      Expands g g' levels u (f u)) : Expands g g' (levels + 1) v (f v) := by
  intro shift out expanded
  rcases remains.live with ⟨info, infoAt⟩
  rw [rev.fixed remains, Nat.mul_succ]
  cases c.origin infoAt with
  | @input type i found =>
    have found' := (rev.get?_of_remains remains).1.trans found
    rw [expandWithin_input found] at expanded
    rw [expandWithin_input found', expanded]
  | @load n field type results found member =>
    have found' := rev.kept n _ found (remains.produced n (c.producerOf_result found member))
    rw [c.expandWithin_load found member] at expanded
    rw [c'.expandWithin_load found' member, expanded]
  | @apply n values results kernel i type tree found resultAt returned =>
    have stays := remains.produced n (c.producerOf_result found (List.mem_of_getElem? resultAt))
    have found' := rev.kept n _ found stays
    rw [c.expandWithin_apply found resultAt returned] at expanded
    rw [c'.expandWithin_apply found' resultAt returned]
    refine Expr.bindM_mono (fun read out' inner => ?_) expanded
    rcases readWithin_eq_ok_iff.mp inner with ⟨operand, shift', operandAt, sum, inner⟩
    refine readWithin_eq_ok_iff.mpr ⟨f operand, shift', ?_, sum, expandWithin_succ ?_⟩
    · rw [List.getElem?_map, operandAt, Option.map_some]
    · exact operands n _ operand found stays (List.mem_of_getElem? operandAt) shift' out' inner

/-! ## Root introduction -/

/-- Root introduction keeps the expansions of all values. -/
theorem Rooted.expands {r : Rooting} (rooted : g.Rooted g' r) (c : g.Consistent)
    (infoAt : g.values.get? v = some info) : Expands g g' levels v (r.substitution v) := by
  have c' := rooted.consistent
  induction levels generalizing v info with
  | zero => exact expands_zero
  | succ levels ih =>
  by_cases loaded : g.producerOf v = some r.load
  · intro shift out expanded
    have member := (c.mem_results_iff rooted.loadAt).mpr loaded
    rw [c.expandWithin_load rooted.loadAt member] at expanded
    have passed : r.substitution v = r.passed := by
      rw [List.mem_singleton.mp member, r.substitution_loaded]
    have returned : (Kernel.identity r.type).Returns 0 r.type (.read ⟨0, .zero⟩) := ⟨0, rfl, rfl, rfl⟩
    rw [passed, Nat.mul_succ, c'.expandWithin_apply rooted.rootAt rfl returned, Expr.bindM]
    refine readWithin_eq_ok_iff.mpr ⟨r.copied, shift, rfl, Offset.zero_add shift, ?_⟩
    rw [c'.expandWithin_load rooted.copyAt List.mem_cons_self, expanded]
  · have remains : g.Remains [r.load] v :=
      ⟨⟨info, infoAt⟩, fun m produced member => loaded (List.mem_singleton.mp member ▸ produced)⟩
    refine rooted.revision.expands_kept c c' remains fun n node u found _ operand => ?_
    rcases c.operand_live found operand with ⟨info', infoAt'⟩
    exact ih infoAt'

/-! ## Output rerouting -/

namespace Rerouted

variable {r : Rerouting} (rerouted : g.Rerouted g' r) (c : g.Consistent) (o : g.Ordered)

include rerouted c

/-- What a result of the producer expands to, its copy does. -/
theorem expands_copy (inner : ∀ u ∈ r.inner, Expands g g' levels u u) {j : Nat}
    (resultAt : r.produced[j]? = some v) (copyAt : r.copies[j]? = some w) {shift : Offset}
    {out : Expr Cell} (expanded : g.expandWithin (levels + 1) v shift = .ok out) :
    g'.expandWithin (2 * levels + 1) w shift = .ok out := by
  rcases c.exists_returns rerouted.reroutable.producerAt resultAt with ⟨type, tree, returned⟩
  rw [c.expandWithin_apply rerouted.reroutable.producerAt resultAt returned] at expanded
  rw [rerouted.consistent.expandWithin_apply rerouted.copyAt copyAt returned]
  refine Expr.bindM_mono (fun read out' found => ?_) expanded
  rcases readWithin_eq_ok_iff.mp found with ⟨operand, shift', operandAt, sum, found⟩
  exact readWithin_eq_ok_iff.mpr ⟨operand, shift', operandAt, sum,
    inner operand (List.mem_of_getElem? operandAt) shift' out' found⟩

/-- What a result of the producer expands to, the value does that is read in its place. -/
theorem expands_produced (inner : ∀ u ∈ r.inner, Expands g g' levels u u)
    (member : v ∈ r.produced) : Expands g g' (levels + 1) v (r.substitution v) := by
  intro shift out expanded
  rcases List.getElem?_of_mem member with ⟨j, resultAt⟩
  rcases exists_right_of_getElem? rerouted.forwarded resultAt with
    ⟨⟨copied, flag⟩, pairAt, forwardedAt⟩
  have copyAt := (List.getElem?_zip_eq_some.mp pairAt).1
  have ofCopy : g'.expandWithin (2 * levels + 1) copied shift = .ok out :=
    rerouted.expands_copy c inner resultAt copyAt expanded
  rw [Nat.mul_succ]
  unfold ForwardedAt at forwardedAt
  split at forwardedAt
  case isFalse =>
    rw [forwardedAt]
    exact expandWithin_succ ofCopy
  case isTrue =>
    rcases forwardedAt with ⟨k, escapingAt, forwardedAt⟩
    rcases exists_right_of_getElem? rerouted.placed.places escapingAt with ⟨place, placeAt, operandAt⟩
    rcases rerouted.forwards.extra placeAt with ⟨type, -, returned⟩
    rw [List.getElem?_drop, rerouted.reroutable.length_own c] at forwardedAt
    rw [rerouted.consistent.expandWithin_apply rerouted.rebuiltAt forwardedAt returned, Expr.bindM]
    exact readWithin_eq_ok_iff.mpr ⟨copied, shift, operandAt, Offset.zero_add shift, ofCopy⟩

/-- What a result of the consumer expands to, that of the rebuilt consumer does. -/
theorem expands_own (inner : ∀ u ∈ r.inner, Expands g g' levels u u)
    (kept : ∀ u ∈ r.operands, u ∉ r.produced → Expands g g' levels u u)
    (member : v ∈ r.own) : Expands g g' (levels + 1) v (r.substitution v) := by
  intro shift out expanded
  rcases List.getElem?_of_mem member with ⟨i, ownAt⟩
  rcases c.exists_returns rerouted.reroutable.consumerAt ownAt with ⟨type, tree, returned⟩
  rw [c.expandWithin_apply rerouted.reroutable.consumerAt ownAt returned] at expanded
  rw [Nat.mul_succ, rerouted.consistent.expandWithin_apply rerouted.rebuiltAt
    (rerouted.own i v ownAt) (rerouted.forwards.own returned)]
  refine Expr.bindM_mono (fun read out' found => ?_) expanded
  rcases readWithin_eq_ok_iff.mp found with ⟨operand, shift', operandAt, sum, found⟩
  have placedAt : (substituteAll r.produced r.copies r.operands)[read.param]? =
      some (redirectAll r.produced r.copies operand) := by
    rw [substituteAll_eq_map, List.getElem?_map, operandAt, Option.map_some]
  refine readWithin_eq_ok_iff.mpr ⟨_, shift', rerouted.placed.getElem?_of_getElem? placedAt, sum, ?_⟩
  by_cases produced : operand ∈ r.produced
  · rcases List.getElem?_of_mem produced with ⟨j, resultAt⟩
    have lt : j < r.copies.length := by
      rw [rerouted.length_copies]
      exact (List.getElem?_eq_some_iff.mp resultAt).1
    have copyAt := List.getElem?_eq_getElem lt
    rw [redirectAll_getElem? (c.results_nodup rerouted.reroutable.producerAt) resultAt copyAt]
    exact rerouted.expands_copy c inner resultAt copyAt (expandWithin_succ found)
  · rw [redirectAll_of_not_mem produced]
    exact expandWithin_succ
      (kept operand (List.mem_of_getElem? operandAt) produced shift' out' found)

include o

/-- Rerouting keeps the expansions of all values. -/
theorem expands (infoAt : g.values.get? v = some info) : Expands g g' levels v (r.substitution v) := by
  have able := rerouted.reroutable
  induction levels generalizing v info with
  | zero => exact expands_zero
  | succ levels ih =>
  have stays {u : ValueId} (remains : g.Remains [r.consumer, r.producer] u) :
      Expands g g' levels u u := by
    rcases remains.live with ⟨info', infoAt'⟩
    have expands := ih infoAt'
    rwa [rerouted.revision.fixed remains] at expands
  have inner : ∀ u ∈ r.inner, Expands g g' levels u u := fun u member =>
    stays (c.remains_inner o able.producerAt able.reads member)
  have kept : ∀ u ∈ r.operands, u ∉ r.produced → Expands g g' levels u u := fun u member other =>
    stays (c.remains_kept o able.consumerAt able.producerAt member other)
  by_cases ofConsumer : g.producerOf v = some r.consumer
  · exact rerouted.expands_own c inner kept ((c.mem_results_iff able.consumerAt).mpr ofConsumer)
  by_cases ofProducer : g.producerOf v = some r.producer
  · exact rerouted.expands_produced c inner ((c.mem_results_iff able.producerAt).mpr ofProducer)
  refine rerouted.revision.expands_kept c rerouted.consistent
    (remains_pair infoAt ofConsumer ofProducer) fun n node u found _ operand => ?_
  rcases c.operand_live found operand with ⟨info', infoAt'⟩
  exact ih infoAt'

end Rerouted

/-! ## Producer inlining -/

namespace Merged

variable {r : Inlining} (merged : g.Merged g' r) (c : g.Consistent) (o : g.Ordered)

include merged c

/-- What a read of a result of the producer expands to, the expression does that stands for it in the merged kernel. -/
theorem expands_inlined (stays : ∀ u ∈ r.operands', Expands g g' (levels + 1) u u) {j : Nat}
    (resultAt : r.produced[j]? = some v) {offset shift shift' : Offset}
    (sum : offset.add shift = .ok shift') {mid : Expr Access} {out : Expr Cell}
    (inlined : inlinedRead r.producer r.innerKernel r.places j offset = .ok mid)
    (expanded : g.expandWithin (levels + 1) v shift' = .ok out) :
    mid.bindM (g'.readWithin (2 * (levels + 1)) r.operands' shift) = .ok out := by
  have producerAt := merged.inlinable.producerAt
  rcases c.exists_returns producerAt resultAt with ⟨type, tree, returned⟩
  rw [inlinedRead_of_returns ((c.fits _ _ producerAt).kernel _ rfl) returned] at inlined
  rw [c.expandWithin_apply producerAt resultAt returned] at expanded
  refine Expr.bindM_of_bindM (fun read mid' out' shifted found => ?_) inlined expanded
  rcases shiftedRead_eq_ok_iff.mp shifted with ⟨place, offset', placeAt, sum', rfl⟩
  rcases readWithin_eq_ok_iff.mp found with ⟨operand, shift'', operandAt, sum'', found⟩
  rcases exists_right_of_getElem? merged.placed.places operandAt with ⟨place', placeAt', operandAt'⟩
  rw [placeAt, Option.some.injEq] at placeAt'
  rw [← placeAt'] at operandAt'
  rw [Expr.bindM]
  have regrouped : offset'.add shift = .ok shift'' := Offset.add_regroup sum' sum sum''
  exact readWithin_eq_ok_iff.mpr ⟨operand, shift'', operandAt', regrouped,
    stays operand (List.mem_of_getElem? operandAt') shift'' out' (expandWithin_succ found)⟩

/-- What a result of the consumer expands to, that of the merged apply does. -/
theorem expands_own (stays : ∀ u ∈ r.operands', Expands g g' levels u u) (member : v ∈ r.own) :
    Expands g g' (levels + 1) v (r.substitution v) := by
  intro shift out expanded
  rcases List.getElem?_of_mem member with ⟨i, ownAt⟩
  rcases c.exists_returns merged.inlinable.consumerAt ownAt with ⟨type, tree, returned⟩
  rcases merged.renders.returns returned with ⟨tree', replaced, returned'⟩
  rw [c.expandWithin_apply merged.inlinable.consumerAt ownAt returned] at expanded
  rw [Nat.mul_succ]
  refine expandWithin_succ ?_
  rw [merged.consistent.expandWithin_apply merged.mergedAt (merged.own i v ownAt) returned']
  refine Expr.bindM_of_bindM (fun read mid out' rendered found => ?_) replaced expanded
  rcases readWithin_eq_ok_iff.mp found with ⟨operand, shift', operandAt, sum, found⟩
  rcases exists_right_of_getElem? merged.bound operandAt with ⟨binding, bindingAt, finds⟩
  cases binding with
  | param index =>
    rw [mergedRead_param bindingAt, Except.ok.injEq] at rendered
    rw [← rendered, Expr.bindM]
    exact readWithin_eq_ok_iff.mpr ⟨operand, shift', finds.2, sum,
      stays operand (List.mem_of_getElem? finds.2) shift' out' found⟩
  | inlined j =>
    rw [mergedRead_inlined bindingAt] at rendered
    cases levels with
    | zero => cases found
    | succ levels => exact merged.expands_inlined c stays finds sum rendered found

include o

/-- Nothing that remains reads the producer, so what its results expand to does not matter. -/
theorem expands (infoAt : g.values.get? v = some info) (visible : g.producerOf v ≠ some r.producer) :
    Expands g g' levels v (r.substitution v) := by
  have able := merged.inlinable
  induction levels generalizing v info with
  | zero => exact expands_zero
  | succ levels ih =>
  have stays : ∀ u ∈ r.operands', Expands g g' levels u u := by
    intro u member
    have remains := able.remains c o merged.placed member
    rcases remains.live with ⟨info', infoAt'⟩
    have expands := ih infoAt' fun produced => remains.produced _ produced (by simp)
    rwa [merged.revision.fixed remains] at expands
  by_cases ofConsumer : g.producerOf v = some r.consumer
  · exact merged.expands_own c stays ((c.mem_results_iff able.consumerAt).mpr ofConsumer)
  refine merged.revision.expands_kept c merged.consistent (remains_pair infoAt ofConsumer visible)
    fun n node u found remains operand => ?_
  rcases c.operand_live found operand with ⟨info', infoAt'⟩
  refine ih infoAt' fun produced => able.confined (.inl ?_)
  exact ⟨n, List.ne_of_not_mem_cons remains, node, u, found, operand, produced⟩

end Merged

/-! ## Expansions at a shift -/

/-- What one value expands to at a shift, the other expands to at that shift afterwards. -/
def Inherits (g g' : Region) (v w : ValueId) : Prop :=
  ∀ shift out, g.expandAt v shift = .ok out → g'.expandAt w shift = .ok out

theorem Consistent.inherits (c' : g'.Consistent) (o' : g'.Ordered) {n : NodeId} {node : Node}
    (found : g'.nodes.get? n = some node) (result : w ∈ node.results) {levels : Nat}
    (expands : ∀ shift out, g.expandWithin g.depth v shift = .ok out →
      g'.expandWithin levels w shift = .ok out) : Inherits g g' v w := by
  intro shift out expanded
  rcases List.getElem?_of_mem result with ⟨i, resultAt⟩
  rcases c'.get?_result found resultAt with ⟨type, infoAt⟩
  exact c'.expandAt_eq_ok o' infoAt (expands shift out expanded)

/-! ## Regions whose values expand -/

theorem Expandable.of_expands (all : g.Expandable) (infoAt : g.values.get? v = some info)
    (expands : ∀ levels, Expands g g' levels v w) : g'.Unfolds w := by
  rcases all v info infoAt with ⟨out, expanded⟩
  exact ⟨_, out, expands g.depth .zero out expanded⟩

/-- The values that remain expand as before, so it is enough that the results of the new nodes expand. -/
theorem Revision.expandable (rev : Revision g g' gone made f) (sound : g.Sound) (sound' : g'.Sound)
    (all : g.Expandable) (old : ∀ v, g.Remains gone v → ∀ levels, Expands g g' levels v (f v))
    (new : ∀ n ∈ made, ∃ node, g'.nodes.get? n = some node ∧ ∀ v ∈ node.results, g'.Unfolds v) :
    g'.Expandable := by
  refine sound'.consistent.expandable_of_unfolds sound'.ordered fun v info infoAt => ?_
  rcases rev.remains_or_made sound.consistent sound'.consistent infoAt with
    remains | ⟨n, isNew, node, found, result⟩
  · rcases remains.live with ⟨info', infoAt'⟩
    have unfolds := all.of_expands infoAt' (old v remains)
    rwa [rev.fixed remains] at unfolds
  · rcases new n isNew with ⟨node', found', each⟩
    rw [found, Option.some.injEq] at found'
    exact each v (found' ▸ result)

/-- A region stays expandable by root introduction. -/
theorem Rooted.expandable {r : Rooting} (rooted : g.Rooted g' r) (sound : g.Sound)
    (sound' : g'.Sound) (all : g.Expandable) : g'.Expandable := by
  have c := sound.consistent
  refine rooted.revision.expandable sound sound' all (fun v remains => ?old)
    (List.forall_mem_cons.mpr ⟨⟨_, rooted.copyAt, fun v result => ?copy⟩,
      List.forall_mem_singleton.mpr ⟨_, rooted.rootAt, fun v result => ?root⟩⟩)
  case old =>
    rcases remains.live with ⟨info, infoAt⟩
    exact fun levels => rooted.expands c infoAt
  case copy => exact ⟨1, _, sound'.consistent.expandWithin_load rooted.copyAt result⟩
  case root =>
    rcases c.get?_result rooted.loadAt (i := 0) rfl with ⟨type, infoAt⟩
    have unfolds := all.of_expands infoAt fun levels => rooted.expands c infoAt
    rw [r.substitution_loaded] at unfolds
    exact List.mem_singleton.mp result ▸ unfolds

namespace Rerouted

variable {r : Rerouting} (rerouted : g.Rerouted g' r) (sound : g.Sound) (all : g.Expandable)

include rerouted sound all

theorem unfolds_copy (member : v ∈ r.copies) : g'.Unfolds v := by
  have c := sound.consistent
  have able := rerouted.reroutable
  rcases List.getElem?_of_mem member with ⟨j, copyAt⟩
  have lt : j < r.produced.length := by
    rw [← rerouted.length_copies]
    exact (List.getElem?_eq_some_iff.mp copyAt).1
  have resultAt := List.getElem?_eq_getElem lt
  rcases c.get?_result able.producerAt resultAt with ⟨type, infoAt⟩
  rcases all _ _ infoAt with ⟨out, expanded⟩
  refine ⟨_, out, rerouted.expands_copy c (fun u member => ?_) resultAt copyAt
    (expandWithin_succ expanded)⟩
  have remains := c.remains_inner sound.ordered able.producerAt able.reads member
  rcases remains.live with ⟨info, infoAt⟩
  have expands : Expands g g' g.depth u (r.substitution u) :=
    rerouted.expands c sound.ordered infoAt
  rwa [rerouted.revision.fixed remains] at expands

/-- What the rebuilt consumer passes on expands to what the copy does. -/
theorem unfolds_forwarded {k : Nat} (resultAt : r.results[r.own.length + k]? = some v) :
    g'.Unfolds v := by
  have c' := rerouted.consistent
  have own := rerouted.reroutable.length_own sound.consistent
  have within : k < r.places.length := by
    have lt := (List.getElem?_eq_some_iff.mp resultAt).1
    have length := c'.length_returns rerouted.rebuiltAt
    rw [rerouted.forwards.length_returns] at length
    omega
  have placeAt := List.getElem?_eq_getElem within
  rcases exists_left_of_getElem? rerouted.placed.places placeAt with
    ⟨copied, escapingAt, operandAt⟩
  rcases rerouted.forwards.extra placeAt with ⟨type, -, returned⟩
  have isCopy := Rerouting.mem_copies_of_escaping (List.mem_of_getElem? escapingAt)
  rcases rerouted.unfolds_copy sound all isCopy with ⟨levels, out, expanded⟩
  refine ⟨levels + 1, out, ?_⟩
  rw [c'.expandWithin_apply rerouted.rebuiltAt resultAt (own ▸ returned), Expr.bindM]
  exact readWithin_eq_ok_iff.mpr ⟨copied, .zero, operandAt, Offset.zero_add _, expanded⟩

/-- What the rebuilt consumer returns of its own expands to what the result of the consumer did. -/
theorem unfolds_own {i : Nat} (lt : i < r.own.length) (resultAt : r.results[i]? = some v) :
    g'.Unfolds v := by
  have c := sound.consistent
  have ownAt := List.getElem?_eq_getElem lt
  rcases c.get?_result rerouted.reroutable.consumerAt ownAt with ⟨type, infoAt⟩
  have same := rerouted.own i _ ownAt
  rw [resultAt, Option.some.injEq] at same
  exact same ▸ all.of_expands infoAt fun levels => rerouted.expands c sound.ordered infoAt

theorem expandable (sound' : g'.Sound) : g'.Expandable := by
  refine rerouted.revision.expandable sound sound' all (fun v remains => ?old)
    (List.forall_mem_cons.mpr ⟨⟨_, rerouted.copyAt, fun v => rerouted.unfolds_copy sound all⟩,
      List.forall_mem_singleton.mpr ⟨_, rerouted.rebuiltAt, fun v result => ?rebuilt⟩⟩)
  case old =>
    rcases remains.live with ⟨info, infoAt⟩
    exact fun levels => rerouted.expands sound.consistent sound.ordered infoAt
  case rebuilt =>
    rcases List.getElem?_of_mem result with ⟨i, resultAt⟩
    rcases Nat.lt_or_ge i r.own.length with lt | ge
    · exact rerouted.unfolds_own sound all lt resultAt
    · rw [← Nat.add_sub_cancel' ge] at resultAt
      exact rerouted.unfolds_forwarded sound all resultAt

end Rerouted

/-- A region stays expandable by inlining. -/
theorem Merged.expandable {r : Inlining} (merged : g.Merged g' r) (sound : g.Sound)
    (sound' : g'.Sound) (all : g.Expandable) : g'.Expandable := by
  have c := sound.consistent
  have o := sound.ordered
  have able := merged.inlinable
  refine merged.revision.expandable sound sound' all (fun v remains => ?old)
    (List.forall_mem_singleton.mpr ⟨_, merged.mergedAt, fun v result => ?merged⟩)
  case old =>
    rcases remains.live with ⟨info, infoAt⟩
    exact fun levels => merged.expands c o infoAt fun produced =>
      remains.produced _ produced (by simp)
  case merged =>
    rcases List.getElem?_of_mem result with ⟨i, resultAt⟩
    have lt : i < r.own.length := by
      rw [c.length_returns able.consumerAt, merged.renders.length_eq,
        ← sound'.consistent.length_returns merged.mergedAt]
      exact (List.getElem?_eq_some_iff.mp resultAt).1
    have ownAt := List.getElem?_eq_getElem lt
    rcases c.get?_result able.consumerAt ownAt with ⟨type, infoAt⟩
    have same := merged.own i _ ownAt
    rw [resultAt, Option.some.injEq] at same
    have ofConsumer := c.producerOf_result able.consumerAt (List.mem_of_getElem? ownAt)
    refine same ▸ all.of_expands infoAt fun levels => merged.expands c o infoAt fun produced => ?_
    rw [ofConsumer, Option.some.injEq] at produced
    exact (able.producer_first o).ne produced.symm

/-- When every value expands before a rewrite, every value does afterwards. -/
theorem Rewrote.expandable {rule : Rule} {n : NodeId} {created : List NodeId}
    (rewrote : g.Rewrote g' rule n created) (sound : g.Sound) (all : g.Expandable) :
    g'.Expandable := by
  have sound' := rewrote.sound sound
  cases rewrote with
  | rooted rooted => exact rooted.expandable sound sound' all
  | rerouted rerouted => exact rerouted.expandable sound all sound'
  | merged merged => exact merged.expandable sound sound' all

end KernelFusion.Region
