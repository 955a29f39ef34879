import KernelFusion.Proofs.Rewrite.Expansion

/-!
# Where the escaping results go

Output rerouting keeps four lists in step: the results of the producer, those of its copy, the operands that the
rebuilt consumer has more than the consumer, and the results that it has more. `Rerouting.escapees` pairs the
results that escape with their copies, in result order; the other lists are read off it. Copies are fresh, so
a copy is among the operands of the rebuilt consumer already exactly when the consumer read the result it is a
copy of, and it is never taken for something else.

`outputRerouting_threads` says where every result and every use is afterwards (`Threaded`).
-/

namespace KernelFusion.Region

variable {g g' : Region} {v w : ValueId} {r : Rerouting} {k : Nat}

/-! ## The results that escape -/

/-- The results of the producer that something besides the consumer reads, with their copies. -/
def escapees (g : Region) (r : Rerouting) : List (ValueId × ValueId) :=
  (r.produced.zip r.copies).filter fun pair => g.usedOutside pair.1 r.consumer

theorem exists_of_mem_escapees (member : (v, w) ∈ g.escapees r) :
    g.usedOutside v r.consumer = true ∧
      ∃ j : Nat, r.produced[j]? = some v ∧ r.copies[j]? = some w := by
  rcases List.mem_filter.mp member with ⟨inZip, escapes⟩
  rcases List.getElem?_of_mem inZip with ⟨j, pairAt⟩
  exact ⟨escapes, j, List.getElem?_zip_eq_some.mp pairAt⟩

/-- Selecting by a list of flags is selecting by what the flags stand for. -/
theorem map_filter_zip_map {α β : Type} (p : α → Bool) (l : List α) (l' : List β) :
    ((l'.zip (l.map p)).filter (·.2)).map Prod.fst =
      ((l.zip l').filter fun pair => p pair.1).map Prod.snd := by
  induction l generalizing l' with
  | nil => simp
  | cons a rest ih =>
    cases l' with
    | nil => simp
    | cons b rest' =>
      cases selected : p a with
      | false => simpa [selected] using ih rest'
      | true => simpa [selected] using ih rest'

/-- What the rebuilt consumer forwards is the copies of the escaping results, in order. -/
theorem Reroutable.escaping_eq (able : g.Reroutable r) :
    r.escaping = (g.escapees r).map Prod.snd := by
  rw [Rerouting.escaping, able.escapes, map_filter_zip_map]
  rfl

theorem map_fst_escapees (length : r.copies.length = r.produced.length) :
    (g.escapees r).map Prod.fst = r.produced.filter fun v => g.usedOutside v r.consumer := by
  have firsts : (r.produced.zip r.copies).map Prod.fst = r.produced :=
    List.map_fst_zip (Nat.le_of_eq length.symm)
  conv_rhs => rw [← firsts, List.filter_map]
  rfl

namespace Rerouted

variable (rerouted : g.Rerouted g' r)

include rerouted

theorem nodup_copies : r.copies.Nodup := rerouted.consistent.results_nodup rerouted.copyAt

/-- No result is forwarded twice. -/
theorem nodup_escaping : r.escaping.Nodup := by
  have flags : r.copies.length ≤ r.escapes.length := by
    rw [rerouted.reroutable.escapes, List.length_map]
    exact Nat.le_of_eq rerouted.length_copies
  have part : r.escaping.Sublist r.copies := by
    have whole := (List.filter_sublist (l := r.copies.zip r.escapes) (p := (·.2))).map Prod.fst
    rwa [List.map_fst_zip flags] at whole
  exact rerouted.nodup_copies.sublist part

theorem length_places : r.places.length = (g.escapees r).length := by
  rw [← rerouted.placed.places.length_eq, rerouted.reroutable.escaping_eq, List.length_map]

/-- An escaping result is forwarded at its place among the escaping ones. -/
theorem forwarded_at (pairAt : (g.escapees r)[k]? = some (v, w)) :
    r.results[r.own.length + k]? = some (r.substitution v) := by
  rcases exists_of_mem_escapees (List.mem_of_getElem? pairAt) with ⟨escapes, j, resultAt, copyAt⟩
  rcases exists_right_of_getElem? rerouted.forwarded resultAt with ⟨⟨copied, flag⟩, flagged, forwarded⟩
  rcases List.getElem?_zip_eq_some.mp flagged with ⟨copiedAt, flagAt⟩
  rw [copyAt, Option.some.injEq] at copiedAt
  rw [rerouted.reroutable.escapes, List.getElem?_map, resultAt, Option.map_some,
    Option.some.injEq] at flagAt
  dsimp only at copiedAt flagAt
  rw [ForwardedAt, if_pos (flagAt.symm.trans escapes)] at forwarded
  rcases forwarded with ⟨k', escapingAt, forwardedAt⟩
  -- The copy has one place only among those that escape.
  have escapingAt' : r.escaping[k]? = some w := by
    rw [rerouted.reroutable.escaping_eq, List.getElem?_map, pairAt, Option.map_some]
  have place' := ((getElem?_eq_some_iff_of_nodup rerouted.nodup_escaping).mp escapingAt').2
  have place := ((getElem?_eq_some_iff_of_nodup rerouted.nodup_escaping).mp escapingAt).2
  rw [← copiedAt, place'] at place
  rwa [List.getElem?_drop, ← place] at forwardedAt

/-! ## The operands of the rebuilt consumer -/

/-- A copy stands in the place of an operand exactly when the consumer read its original. -/
theorem copy_mem_iff (c : g.Consistent) {j : Nat} (resultAt : r.produced[j]? = some v)
    (copyAt : r.copies[j]? = some w) :
    w ∈ substituteAll r.produced r.copies r.operands ↔ v ∈ r.operands := by
  have able := rerouted.reroutable
  have nodup := c.results_nodup able.producerAt
  rw [substituteAll_eq_map, List.mem_map]
  constructor
  · intro substituted
    rcases substituted with ⟨u, operand, same⟩
    by_cases ofProducer : u ∈ r.produced
    · rcases List.getElem?_of_mem ofProducer with ⟨i, resultAt'⟩
      have lt : i < r.copies.length := by
        rw [rerouted.length_copies]
        exact (List.getElem?_eq_some_iff.mp resultAt').1
      have copyAt' := List.getElem?_eq_getElem lt
      rw [redirectAll_getElem? nodup resultAt' copyAt'] at same
      rw [same] at copyAt'
      have place := ((getElem?_eq_some_iff_of_nodup rerouted.nodup_copies).mp copyAt).2
      have place' := ((getElem?_eq_some_iff_of_nodup rerouted.nodup_copies).mp copyAt').2
      rw [← place, place', resultAt', Option.some.injEq] at resultAt
      exact resultAt ▸ operand
    · rw [redirectAll_of_not_mem ofProducer] at same
      -- A copy is fresh, so the consumer cannot have read it.
      have absent := rerouted.fresh w (.inl (List.mem_of_getElem? copyAt))
      exact absurd (same ▸ operand) (c.not_operand_of_none able.consumerAt absent)
  · intro operand
    exact ⟨v, operand, redirectAll_getElem? nodup resultAt copyAt⟩

/-- The rebuilt consumer reads what the consumer read, from the copy, and behind that the escaping results that it did
not read. -/
theorem operands_eq (c : g.Consistent) :
    r.operands' = substituteAll r.produced r.copies r.operands ++
      ((g.escapees r).filter fun pair => pair.1 ∉ r.operands).map Prod.snd := by
  have unread : (r.escaping.filter fun v => v ∉ substituteAll r.produced r.copies r.operands) =
      ((g.escapees r).filter fun pair => pair.1 ∉ r.operands).map Prod.snd := by
    rw [rerouted.reroutable.escaping_eq, List.filter_map]
    refine congrArg (List.map Prod.snd) (List.filter_congr fun ⟨v, w⟩ member => ?_)
    rcases exists_of_mem_escapees member with ⟨-, j, resultAt, copyAt⟩
    simp only [Function.comp_apply, rerouted.copy_mem_iff c resultAt copyAt]
  have added := placeOperands_fst (substituteAll r.produced r.copies r.operands) r.escaping
  rw [rerouted.place, eraseDups_of_nodup (rerouted.nodup_escaping.filter _), unread] at added
  exact added

end Rerouted

/-! ## The whole rule -/

/-- What output rerouting leaves in the place of a consumer and its only apply producer: a copy of the producer that
the rebuilt consumer alone reads, and the rebuilt consumer, which passes on the results that escape. -/
structure Threaded (g g' : Region) (r : Rerouting) : Prop where
  consumer : g.nodes.get? r.consumer = some ⟨.apply r.operands r.kernel, r.own⟩
  producer : g.nodes.get? r.producer = some ⟨.apply r.inner r.innerKernel, r.produced⟩
  sole : ∀ q, g.Feeds q r.consumer ↔ q = r.producer
  gone : g'.nodes.get? r.consumer = none ∧ g'.nodes.get? r.producer = none
  order : ∃ front mid back, g.order = front ++ r.producer :: (mid ++ r.consumer :: back) ∧
    g'.order = front ++ r.copy :: r.rebuilt :: (mid ++ back)
  copy : g'.nodes.get? r.copy = some ⟨.apply r.inner r.innerKernel, r.copies⟩
  uses_copies : ∀ w ∈ r.copies, ∀ site ∈ g'.usesOf w, ∃ i, site = .operand r.rebuilt i
  rebuilt : g'.nodes.get? r.rebuilt = some ⟨.apply r.operands' r.kernel', r.results⟩
  /-- Behind the operands of the consumer stand the copies of the escaping results that it did not read. -/
  operands : r.operands' = substituteAll r.produced r.copies r.operands ++
    ((g.escapees r).filter fun pair => pair.1 ∉ r.operands).map Prod.snd
  length_results : r.results.length =
    r.own.length + (r.produced.filter fun v => g.usedOutside v r.consumer).length
  own : ∀ (j : Nat) (v : ValueId), r.own[j]? = some v → ∃ w, r.results[j]? = some w ∧
    g'.usesOf w = g.usesOf v ∧ g.Inherits g' v w
  forwarded : ∀ (k : Nat) (v : ValueId), (r.produced.filter fun v => g.usedOutside v r.consumer)[k]? = some v →
    ∃ w, r.results[r.own.length + k]? = some w ∧
      g'.usesOf w = (g.usesOf v).filter (fun site => site.node? ≠ some r.consumer) ∧ g.Inherits g' v w
  copies : ∀ (j : Nat) (v : ValueId), r.produced[j]? = some v → ∃ w, r.copies[j]? = some w ∧ g.Inherits g' v w

namespace Rerouted

variable (rerouted : g.Rerouted g' r) (sound : g.Sound)

include rerouted sound

/-- A result of the copy stands for the result of the producer at its place. -/
theorem inherits_copy {j : Nat} (resultAt : r.produced[j]? = some v)
    (copyAt : r.copies[j]? = some w) : Inherits g g' v w := by
  have c := sound.consistent
  have able := rerouted.reroutable
  have sound' : g'.Sound := (Rewrote.rerouted rerouted).sound sound
  have inner : ∀ u ∈ r.inner, Expands g g' g.depth u u := by
    intro u member
    have remains := c.remains_inner sound.ordered able.producerAt able.reads member
    rcases remains.live with ⟨info, infoAt⟩
    have expands : Expands g g' g.depth u (r.substitution u) :=
      rerouted.expands c sound.ordered infoAt
    rwa [rerouted.revision.fixed remains] at expands
  exact sound'.consistent.inherits sound'.ordered rerouted.copyAt (List.mem_of_getElem? copyAt)
    fun shift out expanded =>
      rerouted.expands_copy c inner resultAt copyAt (expandWithin_succ expanded)

/-- A result of the rebuilt consumer stands for what it replaces. -/
theorem inherits_substitution {n : NodeId} {node : Node} (found : g.nodes.get? n = some node)
    (result : v ∈ node.results) (ofRebuilt : r.substitution v ∈ r.results) :
    Inherits g g' v (r.substitution v) := by
  have c := sound.consistent
  have sound' : g'.Sound := (Rewrote.rerouted rerouted).sound sound
  rcases List.getElem?_of_mem result with ⟨i, resultAt⟩
  rcases c.get?_result found resultAt with ⟨type, infoAt⟩
  have expands : Expands g g' g.depth v (r.substitution v) :=
    rerouted.expands c sound.ordered infoAt
  exact sound'.consistent.inherits sound'.ordered rerouted.rebuiltAt ofRebuilt expands

/-- What rerouting does, read off what it leaves. -/
theorem threaded : g.Threaded g' r := by
  have c := sound.consistent
  have able := rerouted.reroutable
  have firsts := map_fst_escapees (g := g) rerouted.length_copies
  refine ⟨able.consumerAt, able.producerAt, able.feeds,
    ⟨rerouted.revision.none_of_gone able.consumerAt (by simp),
      rerouted.revision.none_of_gone able.producerAt (by simp)⟩,
    rerouted.order, rerouted.copyAt, ?uses_copies, rerouted.rebuiltAt, rerouted.operands_eq c, ?length,
    ?own, ?forwarded, ?copies⟩
  case uses_copies =>
    intro w ofCopy site used
    rw [rerouted.uses_copies w ofCopy] at used
    rcases mem_ownSites.mp used with ⟨i, same, -⟩
    exact ⟨0 + i, same⟩
  case length =>
    rw [rerouted.length_results, rerouted.length_places, ← firsts, List.length_map]
  case own =>
    intro j v ownAt
    have own := List.mem_of_getElem? ownAt
    have resultAt := rerouted.own j v ownAt
    exact ⟨_, resultAt, rerouted.uses_own v own,
      rerouted.inherits_substitution sound able.consumerAt own (List.mem_of_getElem? resultAt)⟩
  case forwarded =>
    intro k v escapingAt
    rw [← firsts, List.getElem?_map, Option.map_eq_some_iff] at escapingAt
    rcases escapingAt with ⟨⟨_, w⟩, pairAt, rfl⟩
    rcases exists_of_mem_escapees (List.mem_of_getElem? pairAt) with ⟨escapes, j, resultAt, -⟩
    have member := List.mem_of_getElem? resultAt
    have forwardedAt := rerouted.forwarded_at pairAt
    exact ⟨_, forwardedAt, rerouted.uses_escaped _ member escapes,
      rerouted.inherits_substitution sound able.producerAt member (List.mem_of_getElem? forwardedAt)⟩
  case copies =>
    intro j v resultAt
    have lt : j < r.copies.length := by
      rw [rerouted.length_copies]
      exact (List.getElem?_eq_some_iff.mp resultAt).1
    have copyAt := List.getElem?_eq_getElem lt
    exact ⟨_, copyAt, rerouted.inherits_copy sound resultAt copyAt⟩

end Rerouted

/-- Where output rerouting rewrites, it has threaded the escaping results through the rebuilt consumer. -/
theorem outputRerouting_threads (built : g.Built) (verified : g.verify = .ok ()) {n : NodeId}
    {created : List NodeId}
    (ran : (Rule.outputRerouting.apply n).run g = .ok (.rewritten created) g') :
    ∃ r : Rerouting, r.consumer = n ∧ created = [r.copy, r.rebuilt] ∧ g.Threaded g' r := by
  have sound : g.Sound := built.consistent.sound_iff.mpr verified
  rcases sound.rewrote ran with ⟨noMatch, -⟩ | ⟨created', same, rewrote⟩
  · cases noMatch
  · cases same
    cases rewrote with
    | rerouted rerouted => exact ⟨_, rfl, rfl, rerouted.threaded sound⟩

/-- Two applies in a row, where the result of the first is an output as well. -/
def forked : Region := stateAfter (addOutput ⟨1, 0⟩) (tandem [⟨1, 0, 0⟩] [⟨0, 1, 0⟩])

theorem built_forked : forked.Built := .addOutput ⟨1, 0⟩ (built_tandem _ _)

/-- A producer whose result is both read and exported. -/
theorem outputRerouting_threads_forked :
    forked.Built ∧ forked.verify = .ok () ∧
      ∃ g' r, (Rule.outputRerouting.apply ⟨2, 0⟩).run forked = .ok (.rewritten [r.copy, r.rebuilt]) g' ∧
        forked.Threaded g' r := by
  have ran : ∃ created g',
      (Rule.outputRerouting.apply ⟨2, 0⟩).run forked = .ok (.rewritten created) g' := ⟨_, _, rfl⟩
  rcases ran with ⟨created, g', ran⟩
  rcases outputRerouting_threads built_forked rfl ran with ⟨r, -, rfl, threaded⟩
  exact ⟨built_forked, rfl, g', r, ran, threaded⟩

end KernelFusion.Region
