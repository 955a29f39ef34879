import KernelFusion.Proofs.Rewrite.Rebuilding

/-!
# What output rerouting does

When a consumer reads a single apply, nothing it reads is produced behind that apply, and the apply escapes
from the consumer, the rule always succeeds. `Rerouted` says what it leaves: the producer is replaced by a copy,
the consumer is rebuilt behind it, and what read the consumer or the producer reads the rebuilt consumer.
Elsewhere the rule changes nothing.

The first stage leaves a region that is `Rebuilt`; the second replaces the consumer and the producer.
-/

namespace KernelFusion.Region

variable {g g' : Region} {n m p : NodeId} {r : Rerouting}

/-- The producer is replaced by its copy and the consumer is rebuilt behind it. -/
structure Rerouted (g g' : Region) (r : Rerouting) : Prop where
  consistent : g'.Consistent
  reroutable : g.Reroutable r
  revision : Revision g g' [r.consumer, r.producer] [r.copy, r.rebuilt] r.substitution
  copyAt : g'.nodes.get? r.copy = some ⟨.apply r.inner r.innerKernel, r.copies⟩
  rebuiltAt : g'.nodes.get? r.rebuilt = some ⟨.apply r.operands' r.kernel', r.results⟩
  place : placeOperands (substituteAll r.produced r.copies r.operands) r.escaping =
    (r.operands', r.places)
  placed : Placed (substituteAll r.produced r.copies r.operands) r.escaping r.operands' r.places
  computed : forwardingKernel r.kernel r.kernel'.params r.places = .ok r.kernel'
  forwards : Forwards r.kernel r.kernel' r.places
  own : ∀ (i : Nat) (v : ValueId), r.own[i]? = some v → r.results[i]? = some (r.substitution v)
  length_copies : r.copies.length = r.produced.length
  forwarded : List.Forall₂ (fun v pair => ForwardedAt r.escaping (r.results.drop r.own.length) pair
    (r.substitution v)) r.produced (r.copies.zip r.escapes)
  before : ∀ m, Precedes g.order m r.producer →
    Precedes g'.order m r.copy ∧ Precedes g'.order m r.rebuilt
  between : Precedes g'.order r.copy r.rebuilt
  behind : ∀ m, m ≠ r.consumer → Precedes g.order r.producer m → Precedes g'.order r.rebuilt m
  order : ∃ front mid back, g.order = front ++ r.producer :: (mid ++ r.consumer :: back) ∧
    g'.order = front ++ r.copy :: r.rebuilt :: (mid ++ back)
  fresh : ∀ v, v ∈ r.copies ∨ v ∈ r.results → g.values.get? v = none
  length_results : r.results.length = r.own.length + r.places.length
  uses_own : ∀ v ∈ r.own, g'.usesOf (r.substitution v) = g.usesOf v
  uses_escaped : ∀ v ∈ r.produced, g.usedOutside v r.consumer = true →
    g'.usesOf (r.substitution v) = (g.usesOf v).filter fun site => site.node? ≠ some r.consumer
  uses_copies : ∀ v ∈ r.copies, g'.usesOf v = ownSites r.rebuilt 0 r.operands' v

/-! ## The second stage -/

namespace Rebuilt

variable {g₂ : Region} (able : g.Reroutable r) (reb : g.Rebuilt g₂ r) (c : g.Consistent)
  (o : g.Ordered)

include able reb c o

omit reb in
theorem produced_not_own {v : ValueId} (member : v ∈ r.produced) : v ∉ r.own :=
  c.not_mem_results able.producerAt able.consumerAt (o _ _ able.reads).ne member

section Uses

variable {g₃ g₄ : Region} {i j : Nat} {v w : ValueId}
  (first : Replaced g₂ g₃ r.consumer r.own (r.results.take r.own.length))
  (second : Replaced g₃ g₄ r.producer r.produced r.replacements)

/-- The new nodes read no results of the old ones. -/
theorem usesOf_old (old : v ∈ r.own ∨ v ∈ r.produced) : g₂.usesOf v = g.usesOf v := by
  have unread (read : v ∈ r.inner ∨ v ∈ r.operands') : False := by
    have fixed := reb.fixed able c o read
    exact old.elim fixed.1 fixed.2
  rw [reb.uses, ownSites_of_not_mem fun inner => unread (.inl inner),
    ownSites_of_not_mem fun operand => unread (.inr operand), List.append_nil, List.append_nil]

omit o in
/-- What the old nodes read was there before, so it is no result of a new one. -/
theorem new_unread (new : v ∈ r.copies ∨ v ∈ r.results) : v ∉ r.operands ∧ v ∉ r.inner := by
  have absent := reb.fresh v new
  exact ⟨c.not_operand_of_none able.consumerAt absent, c.not_operand_of_none able.producerAt absent⟩

omit o in
/-- Only the rebuilt consumer reads a copy. -/
theorem usesOf_copy (ofCopy : v ∈ r.copies) :
    g₂.usesOf v = ownSites r.rebuilt 0 r.operands' v := by
  rw [reb.uses, c.usesOf_of_none (reb.fresh v (.inl ofCopy)),
    ownSites_of_not_mem (reb.new_unread able c (.inl ofCopy)).2, List.nil_append, List.nil_append]

omit o in
/-- Nothing reads a result of the rebuilt consumer yet. -/
theorem usesOf_result (ofRebuilt : v ∈ r.results) : g₂.usesOf v = [] := by
  have unread := reb.new_unread able c (.inr ofRebuilt)
  have notOperand : v ∉ r.operands' := by
    intro member
    rcases Rerouting.mem_operands (reb.length_copies able c) reb.placed member with
      ofCopy | ⟨operand, -⟩
    · exact reb.copy_not_result ofCopy ofRebuilt
    · exact unread.1 operand
  rw [reb.uses, c.usesOf_of_none (reb.fresh v (.inr ofRebuilt)), ownSites_of_not_mem unread.2,
    ownSites_of_not_mem notOperand, List.append_nil, List.append_nil]

include first

/-- When the consumer is replaced, the uses of the producer's results lose those by the consumer. -/
theorem usesOf_produced (member : v ∈ r.produced) :
    g₃.usesOf v = (g.usesOf v).filter fun site => site.node? ≠ some r.consumer := by
  have notNew : v ∉ r.results.take r.own.length := fun new =>
    (reb.apart able (.inr (List.mem_of_mem_take new))).2 member
  rw [first.uses v (produced_not_own able c o member), takenOver_of_not_mem notNew, List.append_nil,
    reb.usesOf_old able c o (.inr member)]

include second

theorem uses_own (ownAt : r.own[i]? = some v) (resultAt : r.results[i]? = some w) :
    g₄.usesOf w = g.usesOf v := by
  have c₂ := reb.consistent
  have lt := (List.getElem?_eq_some_iff.mp ownAt).1
  have own := List.mem_of_getElem? ownAt
  have ofRebuilt := List.mem_of_getElem? resultAt
  have apart := reb.apart able (.inr ofRebuilt)
  have nodup := c₂.results_nodup reb.rebuiltAt
  have takenAt : (r.results.take r.own.length)[i]? = some w := by
    rw [List.getElem?_take_of_lt lt, resultAt]
  have notOperand : v ∉ r.operands := fun operand =>
    (o _ _ ⟨_, v, able.consumerAt, operand, c.producerOf_result able.consumerAt own⟩).ne rfl
  have notInner : v ∉ r.inner := fun inner => (reb.fixed able c o (.inl inner)).1 own
  have notReplacement : w ∉ r.replacements := by
    intro member
    rcases reb.mem_new_of_replacement able c member with ofCopy | forwarded
    · exact reb.copy_not_result ofCopy ofRebuilt
    · exact List.disjoint_take_drop nodup (Nat.le_refl _) (List.mem_of_getElem? takenAt) forwarded
  rw [second.uses w apart.2, takenOver_of_not_mem notReplacement, List.append_nil,
    first.uses w apart.1,
    takenOver_getElem? (nodup.sublist (List.take_sublist _ _)) ownAt takenAt,
    reb.usesOf_result able c ofRebuilt, List.nil_append, reb.usesOf_old able c o (.inl own),
    c.filter_usesOf able.consumerAt notOperand, c.filter_usesOf able.producerAt notInner]

/-- What read an escaping result, besides the consumer, reads the result that forwards it. -/
theorem uses_escaped (resultAt : r.produced[j]? = some v)
    (replacementAt : r.replacements[j]? = some w)
    (escapes : g.usedOutside v r.consumer = true) :
    g₄.usesOf w = (g.usesOf v).filter fun site => site.node? ≠ some r.consumer := by
  have member := List.mem_of_getElem? resultAt
  have apart := reb.replacement_apart able c (List.mem_of_getElem? replacementAt)
  have forwarded : w ∈ r.results.drop r.own.length := by
    rcases reb.replacement_at able c resultAt replacementAt with
      ⟨_, -, ⟨-, k, -, forwardedAt⟩ | ⟨stays, -⟩⟩
    · exact List.mem_of_getElem? forwardedAt
    · rw [escapes] at stays
      cases stays
  have notTaken : w ∉ r.results.take r.own.length := fun taken =>
    List.disjoint_take_drop (reb.consistent.results_nodup reb.rebuiltAt) (Nat.le_refl _) taken forwarded
  have notInner : v ∉ r.inner := fun inner => (reb.fixed able c o (.inl inner)).2 member
  have unread : g₃.usesOf w = [] := by
    rw [first.uses w apart.1, takenOver_of_not_mem notTaken,
      reb.usesOf_result able c (List.mem_of_mem_drop forwarded)]
    rfl
  rw [second.uses w apart.2,
    takenOver_getElem? (reb.nodup_replacements able c) resultAt replacementAt, unread,
    List.nil_append, reb.usesOf_produced able c o first member, List.filter_comm,
    c.filter_usesOf able.producerAt notInner]

/-- A copy takes over no uses: it stands for a result that the consumer alone read. -/
theorem uses_copies (ofCopy : w ∈ r.copies) :
    g₄.usesOf w = ownSites r.rebuilt 0 r.operands' w := by
  have c₂ := reb.consistent
  have apart := reb.apart able (.inl ofCopy)
  have unread := reb.new_unread able c (.inl ofCopy)
  have notTaken : w ∉ r.results.take r.own.length := fun taken =>
    reb.copy_not_result ofCopy (List.mem_of_mem_take taken)
  have none : g₃.takenOver r.produced r.replacements w = [] := by
    refine List.flatMap_eq_nil_iff.mpr fun ⟨v, w'⟩ member => ?_
    dsimp only
    split
    case isFalse => rfl
    case isTrue same =>
      subst same
      rcases List.getElem?_of_mem member with ⟨j, pairAt⟩
      rcases List.getElem?_zip_eq_some.mp pairAt with ⟨resultAt, replacementAt⟩
      rcases reb.replacement_at able c resultAt replacementAt with
        ⟨_, -, ⟨-, k, -, forwardedAt⟩ | ⟨stays, -⟩⟩
      · have ofRebuilt := List.mem_of_mem_drop (List.mem_of_getElem? forwardedAt)
        exact absurd ofRebuilt (reb.copy_not_result ofCopy)
      · rw [reb.usesOf_produced able c o first (List.mem_of_getElem? resultAt)]
        exact filter_usesOf_eq_nil_iff.mpr stays
  rw [second.uses w apart.2, none, List.append_nil, first.uses w apart.1,
    takenOver_of_not_mem notTaken, List.append_nil,
    c₂.filter_usesOf (reb.consumerAt able) unread.1,
    c₂.filter_usesOf (reb.producerAt able) unread.2, reb.usesOf_copy able c ofCopy]

end Uses

/-- The copy and the rebuilt consumer stand where the producer stood. -/
theorem order_rerouted {g₃ g₄ : Region} {results values : List ValueId}
    (first : Replaced g₂ g₃ r.consumer r.own results)
    (second : Replaced g₃ g₄ r.producer r.produced values) :
    ∃ front mid back, g.order = front ++ r.producer :: (mid ++ r.consumer :: back) ∧
      g₄.order = front ++ r.copy :: r.rebuilt :: (mid ++ back) := by
  rcases (o _ _ able.reads).split with ⟨front, mid, back, split⟩
  have order₂ : g₂.order = (front ++ r.producer :: r.copy :: r.rebuilt :: mid) ++ r.consumer :: back := by
    rw [reb.order _ _ split]
    simp
  have notConsumer := not_mem_front (order₂ ▸ reb.consistent.order_nodup)
  have notProducer := not_mem_front (split ▸ c.order_nodup)
  refine ⟨front, mid, back, split, ?_⟩
  rw [second.order, first.order, order₂, erase_append_cons notConsumer, List.append_assoc,
    List.cons_append, erase_append_cons notProducer]
  simp

section Substitution

variable {i j : Nat} {v w : ValueId}

omit o in
/-- A result of the consumer is read of the rebuilt one. -/
theorem substitution_own (ownAt : r.own[i]? = some v) (resultAt : r.results[i]? = some w) :
    r.substitution v = w := by
  have takenAt : (r.results.take r.own.length)[i]? = some w := by
    rw [List.getElem?_take_of_lt (List.getElem?_eq_some_iff.mp ownAt).1, resultAt]
  rw [Rerouting.substitution, Function.comp_apply,
    redirectAll_getElem? (c.results_nodup able.consumerAt) ownAt takenAt,
    redirectAll_of_not_mem (reb.apart able (.inr (List.mem_of_getElem? resultAt))).2]

omit reb in
/-- A result of the producer is read of what replaces it. -/
theorem substitution_produced (resultAt : r.produced[j]? = some v)
    (replacementAt : r.replacements[j]? = some w) : r.substitution v = w := by
  rw [Rerouting.substitution, Function.comp_apply,
    redirectAll_of_not_mem (produced_not_own able c o (List.mem_of_getElem? resultAt)),
    redirectAll_getElem? (c.results_nodup able.producerAt) resultAt replacementAt]

/-- The renaming leaves alone what the new nodes read. -/
theorem substitution_fixed (read : v ∈ r.inner ∨ v ∈ r.operands') : r.substitution v = v := by
  have fixed := reb.fixed able c o read
  rw [Rerouting.substitution, Function.comp_apply, redirectAll_of_not_mem fixed.1,
    redirectAll_of_not_mem fixed.2]

end Substitution

/-- The replacements go through, and together they are one revision. -/
theorem exists_replaced :
    ∃ g₃ g₄, (replaceNode r.consumer (r.results.take r.own.length)).run g₂ = .ok () g₃ ∧
      (replaceNode r.producer r.replacements).run g₃ = .ok () g₄ ∧ g₄.Consistent ∧
      Replaced g₂ g₃ r.consumer r.own (r.results.take r.own.length) ∧
      Replaced g₃ g₄ r.producer r.produced r.replacements ∧
      Revision g₂ g₄ [r.consumer, r.producer] [] r.substitution := by
  have c₂ := reb.consistent
  have consumerAt := reb.consumerAt able
  -- The consumer is replaced by the rebuilt one.
  have typed₃ := reb.sameType_own able c
  have apart₃ : ∀ v ∈ r.results.take r.own.length, v ∉ r.own := fun v member =>
    (reb.apart able (.inr (List.mem_of_mem_take member))).1
  rcases replaceNode_run c₂ consumerAt typed₃ apart₃ with ⟨g₃, ran₃, c₃, first⟩
  have rev₃ := first.revision c₂ consumerAt typed₃ apart₃
  -- The producer is replaced by its copy and the forwarded results.
  have producerAt₃ : g₃.nodes.get? r.producer =
      some ⟨.apply r.inner r.innerKernel, r.produced⟩ := by
    rw [rev₃.kept _ _ (reb.producerAt able) (by simpa using (o _ _ able.reads).ne),
      Node.rename_of_fixed]
    exact fun v member => redirectAll_of_not_mem (reb.fixed able c o (.inl member)).1
  have typeKept {v : ValueId} (absent : v ∉ r.own) : g₃.typeOf v = g₂.typeOf v := by
    rw [typeOf, first.value, if_neg absent, typeOf]
  have typed₄ : List.Forall₂ g₃.SameType r.produced r.replacements := by
    refine forall₂_of_getElem? (reb.length_replacements able c) fun j v w resultAt replacementAt => ?_
    rcases reb.sameType_replacement able c resultAt replacementAt with ⟨type, vType, wType⟩
    have apart := reb.replacement_apart able c (List.mem_of_getElem? replacementAt)
    refine ⟨type, ?_, ?_⟩
    · rw [typeKept (produced_not_own able c o (List.mem_of_getElem? resultAt)), vType]
    · rw [typeKept apart.1, wType]
  have apart₄ : ∀ w ∈ r.replacements, w ∉ r.produced := fun w member =>
    (reb.replacement_apart able c member).2
  rcases replaceNode_run c₃ producerAt₃ typed₄ apart₄ with ⟨g₄, ran₄, c₄, second⟩
  exact ⟨g₃, g₄, ran₃, ran₄, c₄, first, second,
    rev₃.trans (second.revision c₃ producerAt₃ typed₄ apart₄) (by simp)⟩

/-- After both replacements the outputs of the producer are rerouted. -/
theorem rerouted {g₃ g₄ : Region} (c₄ : g₄.Consistent)
    (first : Replaced g₂ g₃ r.consumer r.own (r.results.take r.own.length))
    (second : Replaced g₃ g₄ r.producer r.produced r.replacements)
    (rev : Revision g₂ g₄ [r.consumer, r.producer] [] r.substitution) : g.Rerouted g₄ r := by
  have producerFirst := o _ _ able.reads
  have newKept {n : NodeId} {node : Node} (new : n ∈ [r.copy, r.rebuilt])
      (found : g₂.nodes.get? n = some node)
      (read : ∀ v ∈ node.kind.operands, v ∈ r.inner ∨ v ∈ r.operands') :
      g₄.nodes.get? n = some node := by
    rw [rev.kept n node found (reb.new_not_mem able new), Node.rename_of_fixed]
    exact fun v member => reb.substitution_fixed able c o (read v member)
  have copyNew := reb.new_not_mem able (n := r.copy) (by simp)
  have rebuiltNew := reb.new_not_mem able (n := r.rebuilt) (by simp)
  have orderKept (a b : NodeId) (remainsA : a ∉ [r.consumer, r.producer])
      (remainsB : b ∉ [r.consumer, r.producer]) (before : Precedes g₂.order a b) :
      Precedes g₄.order a b :=
    (rev.precedes a b remainsA remainsB (by simp) (by simp)).mpr before
  refine ⟨c₄, able, reb.revision.trans rev (by simp),
    newKept (by simp) reb.copyAt fun _ => .inl, newKept (by simp) reb.rebuiltAt fun _ => .inr,
    reb.place, reb.placed, reb.computed, reb.forwards, ?own, reb.length_copies able c, ?forwarded,
    ?before, orderKept _ _ copyNew rebuiltNew reb.between, ?behind,
    reb.order_rerouted able c o first second, reb.fresh, reb.length_results able c, ?uses_own,
    ?uses_escaped, fun v ofCopy => reb.uses_copies able c o first second ofCopy⟩
  case own =>
    intro i v ownAt
    rcases reb.own_at able ownAt with ⟨w, resultAt, -⟩
    rw [reb.substitution_own able c ownAt resultAt, resultAt]
  case forwarded =>
    refine forall₂_of_getElem? (reb.length_pairs able c) fun j v pair resultAt pairAt => ?_
    rcases exists_right_of_getElem? (reb.replacements_at able c) pairAt with
      ⟨w, replacementAt, forwardedAt⟩
    rwa [substitution_produced able c o resultAt replacementAt]
  case before =>
    intro m before
    have remains : m ∉ [r.consumer, r.producer] := by
      simp [before.ne, (before.trans producerFirst).ne]
    rcases reb.before m before with ⟨beforeCopy, beforeRebuilt⟩
    exact ⟨orderKept _ _ remains copyNew beforeCopy, orderKept _ _ remains rebuiltNew beforeRebuilt⟩
  case behind =>
    intro m ne behind
    have remains : m ∉ [r.consumer, r.producer] := by simp [ne, behind.ne.symm]
    exact orderKept _ _ rebuiltNew remains (reb.behind m behind)
  case uses_own =>
    intro v own
    rcases List.getElem?_of_mem own with ⟨i, ownAt⟩
    rcases reb.own_at able ownAt with ⟨w, resultAt, -⟩
    rw [reb.substitution_own able c ownAt resultAt,
      reb.uses_own able c o first second ownAt resultAt]
  case uses_escaped =>
    intro v member escapes
    rcases List.getElem?_of_mem member with ⟨j, resultAt⟩
    have lt : j < r.replacements.length :=
      reb.length_replacements able c ▸ (List.getElem?_eq_some_iff.mp resultAt).1
    have replacementAt := List.getElem?_eq_getElem lt
    rw [substitution_produced able c o resultAt replacementAt,
      reb.uses_escaped able c o first second resultAt replacementAt escapes]

/-- The two replacements of the rule succeed. -/
theorem exists_rerouted :
    ∃ g₃ g₄, (replaceNode r.consumer (r.results.take r.own.length)).run g₂ = .ok () g₃ ∧
      (replaceNode r.producer r.replacements).run g₃ = .ok () g₄ ∧ g.Rerouted g₄ r := by
  rcases reb.exists_replaced able c o with ⟨g₃, g₄, ran₃, ran₄, c₄, first, second, rev⟩
  exact ⟨g₃, g₄, ran₃, ran₄, reb.rerouted able c o c₄ first second rev⟩

end Rebuilt

/-! ## The whole rule -/

namespace Rerouted

variable (rer : g.Rerouted g' r)

include rer

/-- What a result of the producer is read of afterwards hangs on whether it escapes. -/
theorem exists_copied {v : ValueId} (result : v ∈ r.produced) :
    ∃ copied ∈ r.copies, ForwardedAt r.escaping (r.results.drop r.own.length)
      (copied, g.usedOutside v r.consumer) (r.substitution v) := by
  rcases List.getElem?_of_mem result with ⟨j, resultAt⟩
  rcases exists_right_of_getElem? rer.forwarded resultAt with ⟨⟨copied, flag⟩, pairAt, forwardedAt⟩
  rcases List.getElem?_zip_eq_some.mp pairAt with ⟨copiedAt, flagAt⟩
  rw [rer.reroutable.escapes, List.getElem?_map, resultAt, Option.map_some, Option.some.injEq] at flagAt
  dsimp only at copiedAt flagAt
  exact ⟨copied, List.mem_of_getElem? copiedAt, flagAt ▸ forwardedAt⟩

/-- A result of the producer that escapes is read of the rebuilt consumer. -/
theorem mem_results {v : ValueId} (result : v ∈ r.produced)
    (escapes : g.usedOutside v r.consumer = true) : r.substitution v ∈ r.results := by
  rcases rer.exists_copied result with ⟨copied, -, forwardedAt⟩
  rw [ForwardedAt, if_pos escapes] at forwardedAt
  rcases forwardedAt with ⟨k, -, resultAt⟩
  exact List.mem_of_mem_drop (List.mem_of_getElem? resultAt)

/-- One that does not escape is read of the copy. -/
theorem mem_copies {v : ValueId} (result : v ∈ r.produced)
    (stays : ¬ g.usedOutside v r.consumer = true) : r.substitution v ∈ r.copies := by
  rcases rer.exists_copied result with ⟨copied, ofCopy, forwardedAt⟩
  rw [ForwardedAt, if_neg stays] at forwardedAt
  exact forwardedAt ▸ ofCopy

variable (c : g.Consistent)

include c

theorem follows : Follows g g' [r.consumer, r.producer] r.substitution r.heir := by
  have able := rer.reroutable
  refine rer.revision.follows_of c (fun m remains => if_neg (by simpa using remains)) ?_
  intro m member v produced visible
  have taken : r.heir m = r.rebuilt := if_pos (by simpa using member)
  rw [taken]
  refine rer.consistent.producerOf_result rer.rebuiltAt ?_
  rcases List.mem_pair.mp member with rfl | rfl
  · have own := (c.mem_results_iff able.consumerAt).mpr produced
    obtain ⟨i, ownAt⟩ := List.getElem?_of_mem own
    exact List.mem_of_getElem? (rer.own i v ownAt)
  · refine rer.mem_results ((c.mem_results_iff able.producerAt).mpr produced) ?_
    rw [usedOutside_eq_true_iff]
    rcases visible with ⟨n, node, found, remains, operand⟩ | output
    · obtain ⟨i, operandAt⟩ := List.getElem?_of_mem operand
      refine .inl ⟨n, i, fun same => remains (by simp [same]), (c.mem_usesOf _ _).mpr ?_⟩
      rw [siteValue, found, Option.bind_some, operandAt]
    · obtain ⟨i, outputAt⟩ := List.getElem?_of_mem output
      exact .inr ⟨i, (c.mem_usesOf _ _).mpr outputAt⟩

variable (o : g.Ordered)

include o

/-- The copy reads what the producer read. -/
theorem reads_copy_iff : g'.Reads r.copy m ↔ g.Reads r.producer m := by
  have able := rer.reroutable
  have producerFirst := o _ _ able.reads
  have same {v : ValueId} (member : v ∈ r.inner) : g'.producerOf v = g.producerOf v :=
    rer.revision.producerOf_eq (c.remains_inner o able.producerAt able.reads member)
  rw [reads_iff_operand rer.copyAt, reads_iff_operand able.producerAt]
  constructor
  · intro read
    rcases read with ⟨v, member, produced⟩
    exact ⟨v, member, (same member).symm.trans produced⟩
  · intro read
    rcases read with ⟨v, member, produced⟩
    exact ⟨v, member, (same member).trans produced⟩

/-- The rebuilt consumer reads the copy in the place of the producer. -/
theorem reads_rebuilt_iff :
    g'.Reads r.rebuilt m ↔ m = r.copy ∨ g.Reads r.consumer m ∧ m ≠ r.producer := by
  have able := rer.reroutable
  have same {u : ValueId} (member : u ∈ r.operands) (other : u ∉ r.produced) :
      g'.producerOf u = g.producerOf u :=
    rer.revision.producerOf_eq (c.remains_kept o able.consumerAt able.producerAt member other)
  have ofCopy {v : ValueId} (member : v ∈ r.copies) : g'.producerOf v = some r.copy :=
    rer.consistent.producerOf_result rer.copyAt member
  have placedAt {u : ValueId} (operand : u ∈ r.operands) :
      redirectAll r.produced r.copies u ∈ r.operands' :=
    rer.placed.mem_iff.mpr (.inl (List.mem_map_of_mem operand))
  rw [reads_iff_operand rer.rebuiltAt]
  constructor
  · intro read
    rcases read with ⟨v, member, produced⟩
    rcases Rerouting.mem_operands rer.length_copies rer.placed member with copied | ⟨operand, other⟩
    · rw [ofCopy copied, Option.some.injEq] at produced
      exact .inl produced.symm
    · rw [same operand other] at produced
      refine .inr ⟨⟨_, v, able.consumerAt, operand, produced⟩, fun isProducer => other ?_⟩
      exact (c.mem_results_iff able.producerAt).mpr (isProducer ▸ produced)
  · intro read
    rcases read with rfl | ⟨reads, ne⟩
    · rcases (reads_iff_operand able.consumerAt).mp able.reads with ⟨u, operand, produced⟩
      have ofProducer := (c.mem_results_iff able.producerAt).mpr produced
      exact ⟨_, placedAt operand, ofCopy (redirectAll_mem rer.length_copies.symm ofProducer)⟩
    · rcases (reads_iff_operand able.consumerAt).mp reads with ⟨u, operand, produced⟩
      have other : u ∉ r.produced := by
        intro ofProducer
        rw [c.producerOf_result able.producerAt ofProducer, Option.some.injEq] at produced
        exact ne produced.symm
      have member := placedAt operand
      rw [redirectAll_of_not_mem other] at member
      exact ⟨u, member, (same operand other).trans produced⟩

theorem ordered : g'.Ordered := by
  have able := rer.reroutable
  have producerFirst := o _ _ able.reads
  refine rer.revision.ordered (rer.follows c) c o (fun m remains => if_neg (by simpa using remains))
    ?taken ?new
  case taken =>
    intro n m remains member reads
    have other : n ≠ r.consumer := fun same => remains (by simp [same])
    have behind : Precedes g.order r.producer n := by
      rcases List.mem_pair.mp member with rfl | rfl
      · exact producerFirst.trans (o _ _ reads)
      · exact o _ _ reads
    rw [Rerouting.heir, if_pos (by simpa using member)]
    exact rer.behind n other behind
  case new =>
    intro n member m reads
    rcases List.mem_pair.mp member with rfl | rfl
    · exact (rer.before m (o _ _ ((rer.reads_copy_iff c o).mp reads))).1
    · rcases (rer.reads_rebuilt_iff c o).mp reads with rfl | ⟨reads, ne⟩
      · exact rer.between
      · refine (rer.before m ⟨(c.reads_live able.reads).2, ?_⟩).2
        have live := (c.reads_live reads).2
        exact Nat.lt_of_le_of_ne (able.idxOf_le c reads) fun equal => ne ((List.idxOf_inj live).mp equal)

end Rerouted

theorem Reroutable.applyProducers_eq (able : g.Reroutable r) (c : g.Consistent) :
    g.applyProducers r.operands = .ok [r.producer] := by
  rcases c.applyProducers_of_get? able.consumerAt with ⟨producers, producersEq, nodup, mem⟩
  have single : producers = [r.producer] := by
    refine List.perm_singleton.mp ((List.perm_ext_iff_of_nodup nodup (by simp)).mpr fun q => ?_)
    rw [mem, able.feeds, List.mem_singleton]
  rw [← single]
  exact producersEq

/-- Where the rule matches, it rewrites. -/
theorem rerouteOutputs_rewrites (c : g.Consistent) (o : g.Ordered)
    (isMatch : Rule.Matches g .outputRerouting n) :
    ∃ g' r, r.consumer = n ∧
      (rerouteOutputs n).run g = .ok (.rewritten [r.copy, r.rebuilt]) g' ∧ g.Rerouted g' r := by
  obtain ⟨g₁, g₂, types, r, rfl, able, ran, reb⟩ := exists_rebuilt c o isMatch
  obtain ⟨g₃, g₄, ran₃, ran₄, rer⟩ := reb.exists_rerouted able c o
  refine ⟨g₄, r, rfl, ?_, rer⟩
  obtain ⟨answer, answered, meaning⟩ := c.producedBy_of_get? able.consumerAt r.producer
  rw [meaning.mpr able.early] at answered
  have someEscapes :
      (r.produced.map fun result => g.usedOutside result r.consumer).contains true := by
    obtain ⟨v, member, outside⟩ := (c.escapes_iff able.producerAt).mp able.escaped
    simpa using ⟨v, member, outside⟩
  have place := ran.place
  rw [Rerouting.escaping, able.escapes] at place
  unfold rerouteOutputs
  rw [run_get_bind, kind_of_get? able.consumerAt, run_lift_ok_bind]
  dsimp only [NodeKind.operands] at answered ⊢
  rw [able.applyProducers_eq c, run_lift_ok_bind]
  dsimp only
  rw [c.position_of_get? able.producerAt, run_lift_ok_bind, answered, run_lift_ok_bind, if_pos rfl,
    results_of_get? able.producerAt, run_lift_ok_bind, if_pos someEscapes,
    results_of_get? able.consumerAt, run_lift_ok_bind, run_bind_ok ran.copy, run_get_bind,
    ran.copies, run_lift_ok_bind, place, run_get_bind, ran.types, run_lift_ok_bind, ran.kernel,
    run_lift_ok_bind, run_bind_ok ran.rebuilt, run_get_bind, ran.results, run_lift_ok_bind]
  dsimp only
  rw [run_bind_ok ran₃]
  rw [Rerouting.replacements, able.escapes] at ran₄
  rw [run_bind_ok ran₄]
  rfl

/-- Where the rule does not match, it answers so and changes nothing. -/
theorem rerouteOutputs_refuses (c : g.Consistent) {node : Node} (found : g.nodes.get? n = some node)
    (mismatch : ¬ Rule.Matches g .outputRerouting n) :
    (rerouteOutputs n).run g = .ok .noMatch g := by
  obtain ⟨kind, results⟩ := node
  unfold rerouteOutputs
  rw [run_get_bind, kind_of_get? found, run_lift_ok_bind]
  cases kind with
  | load => rfl
  | apply operands kernel =>
    obtain ⟨producers, producersEq, nodup, mem⟩ := c.applyProducers_of_get? found
    dsimp only [NodeKind.operands] at producersEq ⊢
    rw [producersEq, run_lift_ok_bind]
    match producers with
    | [] => rfl
    | _ :: _ :: _ => rfl
    | [p] =>
      dsimp only
      have feeds : ∀ q, g.Feeds q n ↔ q = p := fun q => by rw [← mem, List.mem_singleton]
      obtain ⟨nodeP, foundP, -⟩ := Option.map_eq_some_iff.mp ((feeds p).mpr rfl).1
      obtain ⟨answer, answered, meaning⟩ := c.producedBy_of_get? found p
      dsimp only [NodeKind.operands] at answered
      rw [c.position_of_get? foundP, run_lift_ok_bind, answered, run_lift_ok_bind]
      cases answer with
      | false => rfl
      | true =>
        rw [if_pos rfl, results_of_get? foundP, run_lift_ok_bind, if_neg]
        · rfl
        · intro someEscapes
          refine mismatch ⟨p, feeds, meaning.mp rfl, (c.escapes_iff foundP).mpr ?_⟩
          simpa using someEscapes

end KernelFusion.Region
