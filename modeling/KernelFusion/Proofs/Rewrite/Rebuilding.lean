import KernelFusion.Proofs.Region.Revision
import KernelFusion.Proofs.Rewrite.Matching
import KernelFusion.Proofs.Rewrite.Operands
import KernelFusion.Proofs.Rewrite.RuleKernels

/-!
# The first stage of output rerouting

The rule works in two stages. In the first the producer is copied, and the consumer is rebuilt behind the copy.
`Rebuilt` is the region in between, with the new nodes in their places and the old ones not yet replaced. Nothing
reads the new nodes yet but the rebuilt consumer, which reads the copy.
-/

namespace KernelFusion

/-! ## What the readers of the producer read afterwards -/

/-- A value that escapes is replaced by a forwarded one, any other by its copy. -/
def ForwardedAt (escaping forwarded : List ValueId) (pair : ValueId × Bool) (value : ValueId) :
    Prop :=
  if pair.2 then ∃ k : Nat, escaping[k]? = some pair.1 ∧ forwarded[k]? = some value
  else value = pair.1

/-- Each result of the copy is forwarded, if it escapes, and otherwise is its own replacement. -/
theorem forwardedResults_at {pairs : List (ValueId × Bool)} {forwarded : List ValueId}
    (length : forwarded.length = ((pairs.filter (·.2)).map Prod.fst).length) :
    List.Forall₂ (ForwardedAt ((pairs.filter (·.2)).map Prod.fst) forwarded) pairs
      (forwardedResults pairs forwarded) := by
  induction pairs generalizing forwarded with
  | nil => exact .nil
  | cons pair rest ih =>
    obtain ⟨copy, escapes⟩ := pair
    cases escapes with
    | false =>
      rw [List.filter_cons_of_neg (by simp)] at length ⊢
      rw [forwardedResults]
      · exact .cons (by simp [ForwardedAt]) (ih length)
      · simp
    | true =>
      rw [List.filter_cons_of_pos (by simp), List.map_cons] at length ⊢
      cases forwarded with
      | nil => cases length
      | cons value forwarded =>
        rw [forwardedResults]
        refine .cons ⟨0, rfl, rfl⟩ ((ih (Nat.succ.inj length)).imp fun pair w at' => ?_)
        -- What escapes further on is one place further on in both lists.
        unfold ForwardedAt at at' ⊢
        split at at'
        case isTrue escapes =>
          obtain ⟨k, copyAt, valueAt⟩ := at'
          rw [if_pos escapes]
          exact ⟨k + 1, copyAt, valueAt⟩
        case isFalse stays =>
          rw [if_neg stays]
          exact at'

/-- A replacement is a result of the copy or one that the rebuilt consumer forwards. -/
theorem mem_forwardedResults {pairs : List (ValueId × Bool)} {forwarded : List ValueId}
    {w : ValueId} (member : w ∈ forwardedResults pairs forwarded) :
    w ∈ pairs.map Prod.fst ∨ w ∈ forwarded := by
  fun_induction forwardedResults pairs forwarded with
  | case1 copy pairs value forwarded ih =>
    rcases List.mem_cons.mp member with rfl | member
    · exact .inr List.mem_cons_self
    · exact (ih member).imp (List.mem_cons_of_mem _) (List.mem_cons_of_mem _)
  | case2 copy escapes pairs forwarded _ ih =>
    rcases List.mem_cons.mp member with rfl | member
    · exact .inl List.mem_cons_self
    · exact (ih member).imp_left (List.mem_cons_of_mem _)
  | case3 => cases member

/-- No two results have the same replacement. -/
theorem nodup_forwardedResults {pairs : List (ValueId × Bool)} {forwarded : List ValueId}
    (copies : (pairs.map Prod.fst).Nodup) (nodup : forwarded.Nodup)
    (apart : ∀ w ∈ forwarded, w ∉ pairs.map Prod.fst) :
    (forwardedResults pairs forwarded).Nodup := by
  fun_induction forwardedResults pairs forwarded with
  | case1 copy pairs value forwarded ih =>
    rw [List.map_cons, List.nodup_cons] at copies
    rw [List.nodup_cons] at nodup ⊢
    refine ⟨fun member => ?_, ih copies.2 nodup.2 fun w new ofCopy =>
      apart w (List.mem_cons_of_mem _ new) (List.mem_cons_of_mem _ ofCopy)⟩
    rcases mem_forwardedResults member with ofCopy | new
    · exact apart value List.mem_cons_self (List.mem_cons_of_mem _ ofCopy)
    · exact nodup.1 new
  | case2 copy escapes pairs forwarded _ ih =>
    rw [List.map_cons, List.nodup_cons] at copies
    rw [List.nodup_cons]
    refine ⟨fun member => ?_, ih copies.2 nodup fun w new ofCopy =>
      apart w new (List.mem_cons_of_mem _ ofCopy)⟩
    rcases mem_forwardedResults member with ofCopy | new
    · exact copies.1 ofCopy
    · exact apart copy new List.mem_cons_self
  | case3 => exact List.nodup_nil

/-! ## The stages of the rule -/

/-- The nodes, values and kernels that a rerouting is about. -/
structure Rerouting where
  consumer : NodeId
  producer : NodeId
  copy : NodeId
  rebuilt : NodeId
  /-- The operands of the consumer. -/
  operands : List ValueId
  kernel : Kernel
  /-- The results of the consumer. -/
  own : List ValueId
  /-- The operands of the producer and of its copy. -/
  inner : List ValueId
  innerKernel : Kernel
  /-- The results of the producer. -/
  produced : List ValueId
  copies : List ValueId
  /-- Whether each of the producer's results escapes. -/
  escapes : List Bool
  /-- The operands of the rebuilt consumer. -/
  operands' : List ValueId
  kernel' : Kernel
  results : List ValueId
  /-- The parameters that carry the escaping results. -/
  places : List Nat

namespace Rerouting

/-- The copies of the results that escape. -/
def escaping (r : Rerouting) : List ValueId :=
  ((r.copies.zip r.escapes).filter (·.2)).map Prod.fst

/-- What the readers of the producer read afterwards. -/
def replacements (r : Rerouting) : List ValueId :=
  forwardedResults (r.copies.zip r.escapes) (r.results.drop r.own.length)

/-- What the remaining nodes read in place of what they read. -/
def substitution (r : Rerouting) : ValueId → ValueId :=
  redirectAll r.produced r.replacements ∘ redirectAll r.own (r.results.take r.own.length)

/-- The node that takes over for another. -/
def heir (r : Rerouting) (m : NodeId) : NodeId :=
  if m = r.consumer ∨ m = r.producer then r.rebuilt else m

end Rerouting

namespace Region

variable {g g' : Region} {n m p : NodeId} {r : Rerouting}

/-- The consumer and the producer of a rerouting. -/
structure Reroutable (g : Region) (r : Rerouting) : Prop where
  consumerAt : g.nodes.get? r.consumer = some ⟨.apply r.operands r.kernel, r.own⟩
  producerAt : g.nodes.get? r.producer = some ⟨.apply r.inner r.innerKernel, r.produced⟩
  feeds : ∀ q, g.Feeds q r.consumer ↔ q = r.producer
  early : ∀ m, g.Reads r.consumer m → ¬ Precedes g.order r.producer m
  escaped : g.Escapes r.producer r.consumer
  escapes : r.escapes = r.produced.map fun v => g.usedOutside v r.consumer

/-- The copy of the producer and the rebuilt consumer are in their places. -/
structure Rebuilt (g g' : Region) (r : Rerouting) : Prop where
  consistent : g'.Consistent
  revision : Revision g g' [] [r.copy, r.rebuilt] id
  copyAt : g'.nodes.get? r.copy = some ⟨.apply r.inner r.innerKernel, r.copies⟩
  rebuiltAt : g'.nodes.get? r.rebuilt = some ⟨.apply r.operands' r.kernel', r.results⟩
  place : placeOperands (substituteAll r.produced r.copies r.operands) r.escaping =
    (r.operands', r.places)
  placed : Placed (substituteAll r.produced r.copies r.operands) r.escaping r.operands' r.places
  computed : forwardingKernel r.kernel r.kernel'.params r.places = .ok r.kernel'
  forwards : Forwards r.kernel r.kernel' r.places
  before : ∀ m, Precedes g.order m r.producer →
    Precedes g'.order m r.copy ∧ Precedes g'.order m r.rebuilt
  between : Precedes g'.order r.copy r.rebuilt
  behind : ∀ m, Precedes g.order r.producer m → Precedes g'.order r.rebuilt m
  order : ∀ front back, g.order = front ++ r.producer :: back →
    g'.order = front ++ r.producer :: r.copy :: r.rebuilt :: back
  fresh : ∀ v, v ∈ r.copies ∨ v ∈ r.results → g.values.get? v = none
  uses : ∀ v, g'.usesOf v =
    g.usesOf v ++ ownSites r.copy 0 r.inner v ++ ownSites r.rebuilt 0 r.operands' v

/-! ## The operands of the rebuilt consumer -/

namespace Rerouting

variable {v : ValueId}

theorem mem_copies_of_escaping (member : v ∈ r.escaping) : v ∈ r.copies := by
  rcases List.mem_map.mp member with ⟨pair, inFilter, rfl⟩
  exact (List.of_mem_zip (List.mem_of_mem_filter inFilter)).1

/-- The rebuilt consumer reads copies, and what the consumer read besides the producer. -/
theorem mem_operands (length : r.copies.length = r.produced.length)
    (placed : Placed (substituteAll r.produced r.copies r.operands) r.escaping r.operands' r.places)
    (member : v ∈ r.operands') : v ∈ r.copies ∨ v ∈ r.operands ∧ v ∉ r.produced := by
  rcases placed.only v member with old | new
  · rw [substituteAll_eq_map] at old
    rcases List.mem_map.mp old with ⟨u, operand, rfl⟩
    by_cases ofProducer : u ∈ r.produced
    · exact .inl (redirectAll_mem length.symm ofProducer)
    · rw [redirectAll_of_not_mem ofProducer]
      exact .inr ⟨operand, ofProducer⟩
  · exact .inl (mem_copies_of_escaping new)

end Rerouting

/-! ## The first stage -/

/-- The edits of the first stage, with what they give. -/
structure Rebuilds (g g₁ g' : Region) (params : List ElementType) (r : Rerouting) : Prop where
  copy : (insertCopy (.after r.producer) r.producer).run g = .ok r.copy g₁
  copies : g₁.results r.copy = .ok r.copies
  place : placeOperands (substituteAll r.produced r.copies r.operands) r.escaping =
    (r.operands', r.places)
  types : g₁.valueTypes r.operands' = .ok params
  kernel : forwardingKernel r.kernel params r.places = .ok r.kernel'
  rebuilt : (insertApply (.after r.copy) r.operands' r.kernel').run g₁ = .ok r.rebuilt g'
  results : g'.results r.rebuilt = .ok r.results

/-- The copy of the producer stands right behind it. -/
structure Copied (g g₁ : Region) (r : Rerouting) : Prop where
  consistent : g₁.Consistent
  inserted : Inserted g g₁ r.copy (g.order.idxOf r.producer + 1) (.apply r.inner r.innerKernel)
    r.copies

/-- The consumer reads the producer. -/
theorem Reroutable.reads (able : g.Reroutable r) : g.Reads r.consumer r.producer :=
  ((able.feeds _).mpr rfl).2

/-- What the consumer reads is produced by the producer or before it. -/
theorem Reroutable.idxOf_le (able : g.Reroutable r) (c : g.Consistent)
    (reads : g.Reads r.consumer m) : g.order.idxOf m ≤ g.order.idxOf r.producer :=
  Nat.le_of_not_lt fun lt => able.early m reads ⟨(c.reads_live reads).2, lt⟩

theorem Reroutable.le_length (able : g.Reroutable r) (c : g.Consistent) :
    g.order.idxOf r.producer + 1 ≤ g.order.length :=
  c.resolve_le (c.resolve_after able.producerAt)

theorem Reroutable.length_own (c : g.Consistent) (able : g.Reroutable r) :
    r.own.length = r.kernel.returns.length := c.length_returns able.consumerAt

namespace Copied

variable {g₁ : Region} (copied : g.Copied g₁ r)

include copied

theorem copyAt : g₁.nodes.get? r.copy = some ⟨.apply r.inner r.innerKernel, r.copies⟩ :=
  copied.inserted.node_self

variable (able : g.Reroutable r) (c : g.Consistent)

include able c

theorem length_copies : r.copies.length = r.produced.length :=
  (copied.consistent.fits _ _ copied.copyAt).length_results.trans
    (c.fits _ _ able.producerAt).length_results.symm

/-- A copy has the type of the result. -/
theorem typeOf_redirected {u : ValueId} {type : ElementType} (typed : g.typeOf u = some type) :
    g₁.typeOf (redirectAll r.produced r.copies u) = some type := by
  by_cases ofProducer : u ∈ r.produced
  · rcases List.getElem?_of_mem ofProducer with ⟨i, resultAt⟩
    have lt : i < r.copies.length := by
      rw [copied.length_copies able c]
      exact (List.getElem?_eq_some_iff.mp resultAt).1
    have copyAt := List.getElem?_eq_getElem lt
    rw [redirectAll_getElem? (c.results_nodup able.producerAt) resultAt copyAt,
      copied.consistent.typeOf_result copied.copyAt copyAt, ← typed,
      c.typeOf_result able.producerAt resultAt]
  · rw [redirectAll_of_not_mem ofProducer]
    exact copied.inserted.typeOf_of_typeOf typed

/-- What the consumer read, with copies in the place of results, fits its kernel. -/
theorem operands_typed : List.Forall₂ (fun v type => g₁.typeOf v = some type)
    (substituteAll r.produced r.copies r.operands) r.kernel.params := by
  rw [substituteAll_eq_map, List.forall₂_map_left_iff]
  exact (c.fits _ _ able.consumerAt).operands.imp fun u type => copied.typeOf_redirected able c

variable (placed : Placed (substituteAll r.produced r.copies r.operands) r.escaping r.operands' r.places)
  {v : ValueId} (member : v ∈ r.operands')

include placed member

theorem operand_live : ∃ info, g₁.values.get? v = some info := by
  rcases Rerouting.mem_operands (copied.length_copies able c) placed member with
    ofCopy | ⟨operand, -⟩
  · rcases List.getElem?_of_mem ofCopy with ⟨i, copyAt⟩
    rcases copied.consistent.get?_result copied.copyAt copyAt with ⟨type, infoAt⟩
    exact ⟨_, infoAt⟩
  · rcases c.operand_live able.consumerAt operand with ⟨info, infoAt⟩
    exact ⟨info, copied.inserted.value_of_get? infoAt⟩

/-- Every operand of the rebuilt consumer is produced by the copy or before it. -/
theorem operand_early (produced : g₁.producerOf v = some m) :
    g₁.order.idxOf m < g₁.order.idxOf r.copy + 1 := by
  rcases Rerouting.mem_operands (copied.length_copies able c) placed member with
    ofCopy | ⟨operand, -⟩
  · rw [copied.consistent.producerOf_result copied.copyAt ofCopy, Option.some.injEq] at produced
    rw [← produced]
    exact Nat.lt_succ_self _
  · rcases c.operand_live able.consumerAt operand with ⟨info, infoAt⟩
    rw [producerOf_of_get? (copied.inserted.value_of_get? infoAt),
      ← producerOf_of_get? infoAt] at produced
    have reads : g.Reads r.consumer m := ⟨_, v, able.consumerAt, operand, produced⟩
    rcases c.producer_live produced with ⟨node, nodeAt, -⟩
    have first := (copied.inserted.precedes_new_iff c (able.le_length c) nodeAt).mpr
      (Nat.lt_succ_of_le (able.idxOf_le c reads))
    exact Nat.lt_succ_of_lt first.2

omit member in
/-- The kernel that forwards can be built. -/
theorem exists_kernel {params : List ElementType}
    (typed : List.Forall₂ (fun v type => g₁.typeOf v = some type) r.operands' params) :
    ∃ kernel', forwardingKernel r.kernel params r.places = .ok kernel' ∧ kernel'.WellFormed ∧
      kernel'.params = params ∧ Forwards r.kernel kernel' r.places := by
  refine forwardingKernel_eq_ok ((c.fits _ _ able.consumerAt).kernel r.kernel rfl) params r.places
    (fun i type typeAt => ?own) fun place member => ?extra
  case own =>
    rcases exists_left_of_getElem? (copied.operands_typed able c) typeAt with ⟨v, operandAt, typedV⟩
    rcases exists_right_of_getElem? typed (placed.getElem?_of_getElem? operandAt) with
      ⟨type', typeAt', typed'⟩
    rw [typeAt', ← typed', typedV]
  case extra =>
    rcases exists_left_of_mem placed.places member with ⟨v, -, operandAt⟩
    rw [← typed.length_eq]
    exact (List.getElem?_eq_some_iff.mp operandAt).1

omit placed member

section Order

variable {g₂ : Region} {rebuilt : NodeId} {kind : NodeKind} {results : List ValueId}
  (ins₂ : Inserted g₁ g₂ rebuilt (g₁.order.idxOf r.copy + 1) kind results)

include ins₂

/-- What stood before the producer stands before the copy and what is inserted behind the copy. -/
theorem precedes_both (before : Precedes g.order m r.producer) :
    Precedes g₂.order m r.copy ∧ Precedes g₂.order m rebuilt := by
  have ins₁ := copied.inserted
  have c₁ := copied.consistent
  have le₁ := able.le_length c
  have le₂ := c₁.resolve_le (c₁.resolve_after copied.copyAt)
  have rev₂ := ins₂.revision c₁ le₂
  rcases (c.mem_order m).mp before.mem_left with ⟨node, nodeAt⟩
  have nodeAt₁ := ins₁.node_of_get? nodeAt
  have beforeCopy : Precedes g₁.order m r.copy :=
    (ins₁.precedes_new_iff c le₁ nodeAt).mpr (Nat.lt_succ_of_lt before.2)
  refine ⟨?_, (ins₂.precedes_new_iff c₁ le₂ nodeAt₁).mpr (Nat.lt_succ_of_lt beforeCopy.2)⟩
  exact (rev₂.precedes m r.copy (by simp) (by simp) (rev₂.not_made nodeAt₁)
    (rev₂.not_made copied.copyAt)).mpr beforeCopy

theorem rebuilt_precedes (behind : Precedes g.order r.producer m) : Precedes g₂.order rebuilt m := by
  have ins₁ := copied.inserted
  have c₁ := copied.consistent
  have le₂ := c₁.resolve_le (c₁.resolve_after copied.copyAt)
  rcases (c.mem_order m).mp behind.mem_right with ⟨node, nodeAt⟩
  have behindCopy : Precedes g₁.order r.copy m :=
    (ins₁.new_precedes_iff c (able.le_length c) nodeAt).mpr behind.2
  exact (ins₂.new_precedes_iff c₁ le₂ (ins₁.node_of_get? nodeAt)).mpr behindCopy.2

omit able in
/-- The copy and the rebuilt consumer come to stand right behind the producer. -/
theorem order_rebuilt {front back : List NodeId} (split : g.order = front ++ r.producer :: back) :
    g₂.order = front ++ r.producer :: r.copy :: rebuilt :: back := by
  have ins₁ := copied.inserted
  have notProducer := not_mem_front (split ▸ c.order_nodup)
  have order₁ : g₁.order = (front ++ [r.producer]) ++ r.copy :: back := by
    rw [ins₁.order, split, insertIdx_idxOf_succ notProducer, List.append_cons]
  have notCopy : r.copy ∉ front ++ [r.producer] := by
    have absent := ins₁.fresh_not_mem c
    rw [split, List.append_cons] at absent
    exact fun inFront => absent (List.mem_append_left back inFront)
  rw [ins₂.order, order₁, insertIdx_idxOf_succ notCopy, ← List.append_cons]

end Order

/-- The rebuilt consumer goes right behind the copy. -/
theorem exists_rebuilt (place : placeOperands (substituteAll r.produced r.copies r.operands) r.escaping =
    (r.operands', r.places)) : ∃ params kernel' rebuilt results g₂,
    g₁.valueTypes r.operands' = .ok params ∧
    forwardingKernel r.kernel params r.places = .ok kernel' ∧
    (insertApply (.after r.copy) r.operands' kernel').run g₁ = .ok rebuilt g₂ ∧
    g₂.results rebuilt = .ok results ∧
    g.Rebuilt g₂ { r with rebuilt := rebuilt, kernel' := kernel', results := results } := by
  have placed := placed_placeOperands (substituteAll r.produced r.copies r.operands) r.escaping
  rw [place] at placed
  rcases valueTypes_eq_ok fun v member => copied.operand_live able c placed member with
    ⟨params, paramsEq, typed⟩
  rcases copied.exists_kernel able c placed typed with ⟨kernel', kernelEq, wf', rfl, forwards⟩
  have c₁ := copied.consistent
  rcases insertApply_spec c₁ wf' (c₁.resolve_after copied.copyAt) typed
    fun v member m => copied.operand_early able c placed member with
    ⟨g₂, rebuilt, results, ran₂, c₂, ins₂⟩
  have ins₁ := copied.inserted
  have le₂ := c₁.resolve_le (c₁.resolve_after copied.copyAt)
  have rev₁ := ins₁.revision c (able.le_length c)
  refine ⟨_, kernel', rebuilt, results, g₂, paramsEq, kernelEq, ran₂, results_of_get? ins₂.node_self,
    c₂, rev₁.trans (ins₂.revision c₁ le₂) (by simp), ins₂.node_of_get? copied.copyAt,
    ins₂.node_self, place, placed, kernelEq, forwards,
    fun m => copied.precedes_both able c ins₂, ?between,
    fun m => copied.rebuilt_precedes able c ins₂, fun front back => copied.order_rebuilt c ins₂,
    ?fresh, fun v => ?uses⟩
  case between =>
    exact (ins₂.precedes_new_iff c₁ le₂ copied.copyAt).mpr (Nat.lt_succ_self _)
  case fresh =>
    intro v new
    rcases new with ofCopy | ofRebuilt
    · exact ins₁.fresh_results v ofCopy
    · exact ins₁.none_of_none (ins₂.fresh_results v ofRebuilt)
  case uses => rw [ins₂.uses, ins₁.uses, NodeKind.operands, NodeKind.operands]

end Copied

/-- The nodes that a matching consumer is about. -/
theorem exists_consumer (isMatch : Rule.Matches g .outputRerouting n) :
    ∃ p operands kernel own inner innerKernel produced,
      g.nodes.get? n = some ⟨.apply operands kernel, own⟩ ∧
      g.nodes.get? p = some ⟨.apply inner innerKernel, produced⟩ ∧
      (∀ q, g.Feeds q n ↔ q = p) ∧ (∀ m, g.Reads n m → ¬ Precedes g.order p m) ∧
      g.Escapes p n := by
  rcases isMatch with ⟨p, feeds, early, escapes⟩
  rcases (feeds p).mpr rfl with ⟨isApply, node, v, found, member, -⟩
  rcases Option.map_eq_some_iff.mp isApply with ⟨⟨kind, produced⟩, found', kindTag⟩
  rcases node with ⟨kind', own⟩
  cases kind' with
  | load => cases member
  | apply operands kernel =>
    cases kind with
    | load => cases kindTag
    | apply inner innerKernel =>
      exact ⟨p, operands, kernel, own, inner, innerKernel, produced, found, found', feeds, early,
        escapes⟩

theorem exists_rebuilt (c : g.Consistent) (o : g.Ordered)
    (isMatch : Rule.Matches g .outputRerouting n) :
    ∃ g₁ g' params r, r.consumer = n ∧ g.Reroutable r ∧ Rebuilds g g₁ g' params r ∧
      g.Rebuilt g' r := by
  rcases exists_consumer isMatch with ⟨p, operands, kernel, own, inner, innerKernel, produced, found,
    found', feeds, early, escaped⟩
  have innerEarly : ∀ v ∈ inner, ∀ m, g.producerOf v = some m →
      g.order.idxOf m < g.order.idxOf p + 1 := fun v member m produced' =>
    Nat.lt_succ_of_lt (o p m ⟨_, v, found', member, produced'⟩).2
  rcases insertCopy_spec c found' (c.resolve_after found') innerEarly with
    ⟨g₁, copy, copies, ran₁, c₁, ins₁⟩
  -- The record of the rerouting, with the nodes that are there and nothing in the place of the others.
  let escapes := produced.map fun v => g.usedOutside v n
  let escaping := ((copies.zip escapes).filter (·.2)).map Prod.fst
  let placing := placeOperands (substituteAll produced copies operands) escaping
  let r : Rerouting := ⟨n, p, copy, copy, operands, kernel, own, inner, innerKernel, produced, copies,
    escapes, placing.1, kernel, [], placing.2⟩
  have able : g.Reroutable r := ⟨found, found', feeds, early, escaped, rfl⟩
  have copied : g.Copied g₁ r := ⟨c₁, ins₁⟩
  rcases copied.exists_rebuilt able c rfl with
    ⟨params, kernel', rebuilt, results, g₂, paramsEq, kernelEq, ran₂, resultsEq, reb⟩
  exact ⟨g₁, g₂, params, { r with rebuilt := rebuilt, kernel' := kernel', results := results }, rfl,
    ⟨found, found', feeds, early, escaped, rfl⟩,
    ⟨ran₁, results_of_get? ins₁.node_self, rfl, paramsEq, kernelEq, ran₂, resultsEq⟩, reb⟩

/-! ## What the second stage finds -/

/-- No copy is a result of the rebuilt consumer. -/
theorem Rebuilt.copy_not_result {g₂ : Region} (reb : g.Rebuilt g₂ r) {w : ValueId}
    (ofCopy : w ∈ r.copies) : w ∉ r.results :=
  reb.consistent.not_mem_results reb.copyAt reb.rebuiltAt reb.between.ne ofCopy

namespace Rebuilt

variable {g₂ : Region} (able : g.Reroutable r) (reb : g.Rebuilt g₂ r)

include able reb

theorem consumerAt : g₂.nodes.get? r.consumer = some ⟨.apply r.operands r.kernel, r.own⟩ := by
  rw [reb.revision.kept _ _ able.consumerAt (by simp), Node.rename_id]

theorem producerAt :
    g₂.nodes.get? r.producer = some ⟨.apply r.inner r.innerKernel, r.produced⟩ := by
  rw [reb.revision.kept _ _ able.producerAt (by simp), Node.rename_id]

/-- The new nodes are neither the consumer nor the producer. -/
theorem new_not_mem (member : n ∈ [r.copy, r.rebuilt]) : n ∉ [r.consumer, r.producer] := by
  intro old
  rcases List.mem_cons.mp old with rfl | old
  · exact reb.revision.not_made able.consumerAt member
  · rw [List.mem_singleton.mp old] at member
    exact reb.revision.not_made able.producerAt member

/-- Nor are their results results of these. -/
theorem apart {w : ValueId} (new : w ∈ r.copies ∨ w ∈ r.results) : w ∉ r.own ∧ w ∉ r.produced := by
  have c₂ := reb.consistent
  have copyNew := reb.new_not_mem able (n := r.copy) (by simp)
  have rebuiltNew := reb.new_not_mem able (n := r.rebuilt) (by simp)
  simp only [List.mem_cons, List.not_mem_nil, or_false, not_or] at copyNew rebuiltNew
  rcases new with member | member
  · exact ⟨c₂.not_mem_results reb.copyAt (reb.consumerAt able) copyNew.1 member,
      c₂.not_mem_results reb.copyAt (reb.producerAt able) copyNew.2 member⟩
  · exact ⟨c₂.not_mem_results reb.rebuiltAt (reb.consumerAt able) rebuiltNew.1 member,
      c₂.not_mem_results reb.rebuiltAt (reb.producerAt able) rebuiltNew.2 member⟩

/-- The rebuilt consumer returns what the consumer returned. -/
theorem own_at {i : Nat} {v : ValueId} (ownAt : r.own[i]? = some v) :
    ∃ w, r.results[i]? = some w ∧ g₂.SameType v w :=
  reb.consistent.exists_sameType_result (reb.consumerAt able) reb.rebuiltAt
    (fun _ _ tree returned => ⟨tree, reb.forwards.own returned⟩) ownAt

variable (c : g.Consistent)

include c

theorem length_results : r.results.length = r.own.length + r.places.length := by
  rw [reb.consistent.length_returns reb.rebuiltAt, reb.forwards.length_returns, able.length_own c]

/-- The first results of the rebuilt consumer have the types of those of the consumer. -/
theorem sameType_own : List.Forall₂ g₂.SameType r.own (r.results.take r.own.length) := by
  refine forall₂_of_getElem? ?_ fun i v w ownAt resultAt => ?_
  · rw [List.length_take, reb.length_results able c]
    omega
  · rcases reb.own_at able ownAt with ⟨w', resultAt', sameType⟩
    rw [List.getElem?_take_of_lt (List.getElem?_eq_some_iff.mp ownAt).1, resultAt',
      Option.some.injEq] at resultAt
    exact resultAt ▸ sameType

/-- Behind these it returns the copies of the results that escape. -/
theorem forwarded_at {k : Nat} {v : ValueId} (escapingAt : r.escaping[k]? = some v) :
    ∃ w, (r.results.drop r.own.length)[k]? = some w ∧ g₂.SameType v w := by
  have fits := reb.consistent.fits _ _ reb.rebuiltAt
  rcases exists_right_of_getElem? reb.placed.places escapingAt with ⟨place, placeAt, operandAt⟩
  rcases reb.forwards.extra placeAt with ⟨type, paramAt, returned⟩
  have typeAt := (fits.kernel r.kernel' rfl).resultType_of_returns returned
  rcases exists_right_of_getElem? fits.operands operandAt with ⟨type', typeAt', typed⟩
  change r.kernel'.params[place]? = some type' at typeAt'
  rw [paramAt, Option.some.injEq] at typeAt'
  rw [← able.length_own c] at typeAt
  have lt : r.own.length + k < r.results.length := by
    rw [fits.length_results]
    exact (List.getElem?_eq_some_iff.mp typeAt).1
  refine ⟨r.results[r.own.length + k], ?_, type, by rw [typed, typeAt'], ?_⟩
  · rw [List.getElem?_drop, List.getElem?_eq_getElem lt]
  · rw [reb.consistent.typeOf_result reb.rebuiltAt (List.getElem?_eq_getElem lt)]
    exact typeAt

theorem length_copies : r.copies.length = r.produced.length :=
  (reb.consistent.fits _ _ reb.copyAt).length_results.trans
    (c.fits _ _ able.producerAt).length_results.symm

theorem length_pairs : r.produced.length = (r.copies.zip r.escapes).length := by
  rw [List.length_zip, able.escapes, List.length_map, reb.length_copies able c, Nat.min_self]

/-- A value that takes the place of a result of the producer. -/
theorem replacements_at :
    List.Forall₂ (ForwardedAt r.escaping (r.results.drop r.own.length)) (r.copies.zip r.escapes)
      r.replacements := by
  refine forwardedResults_at ?_
  rw [List.length_drop, reb.length_results able c, Nat.add_sub_cancel_left,
    ← reb.placed.places.length_eq]
  rfl

theorem length_replacements : r.produced.length = r.replacements.length :=
  (reb.length_pairs able c).trans (reb.replacements_at able c).length_eq

/-- A result of the producer and what takes its place: a forwarded value when the result escapes, else its copy. -/
theorem replacement_at {j : Nat} {v w : ValueId} (resultAt : r.produced[j]? = some v)
    (replacementAt : r.replacements[j]? = some w) :
    ∃ copied, r.copies[j]? = some copied ∧
      (g.usedOutside v r.consumer = true ∧ (∃ k : Nat, r.escaping[k]? = some copied ∧
          (r.results.drop r.own.length)[k]? = some w) ∨
        g.usedOutside v r.consumer = false ∧ w = copied) := by
  rcases exists_left_of_getElem? (reb.replacements_at able c) replacementAt with
    ⟨⟨copied, flag⟩, pairAt, forwardedAt⟩
  rcases List.getElem?_zip_eq_some.mp pairAt with ⟨copiedAt, flagAt⟩
  rw [able.escapes, List.getElem?_map, resultAt, Option.map_some, Option.some.injEq] at flagAt
  dsimp only at copiedAt flagAt
  subst flagAt
  refine ⟨copied, copiedAt, ?_⟩
  unfold ForwardedAt at forwardedAt
  split at forwardedAt
  case isTrue escapes => exact .inl ⟨escapes, forwardedAt⟩
  case isFalse stays => exact .inr ⟨eq_false_of_ne_true stays, forwardedAt⟩

/-- Every result of the producer is replaced by one of its type. -/
theorem sameType_replacement {j : Nat} {v w : ValueId} (resultAt : r.produced[j]? = some v)
    (replacementAt : r.replacements[j]? = some w) : g₂.SameType v w := by
  have c₂ := reb.consistent
  rcases reb.replacement_at able c resultAt replacementAt with ⟨copied, copiedAt, taken⟩
  have sameCopy : g₂.SameType v copied := by
    rcases (c₂.fits _ _ (reb.producerAt able)).results j v resultAt with ⟨type, -, infoAt⟩
    refine ⟨type, typeOf_of_get? infoAt, ?_⟩
    rw [c₂.typeOf_result reb.copyAt copiedAt, ← typeOf_of_get? infoAt,
      c₂.typeOf_result (reb.producerAt able) resultAt]
  rcases taken with ⟨-, k, escapingAt, forwardedAt⟩ | ⟨-, isCopy⟩
  · rcases reb.forwarded_at able c escapingAt with ⟨w', forwardedAt', sameType⟩
    rw [forwardedAt, Option.some.injEq] at forwardedAt'
    exact sameCopy.trans (forwardedAt' ▸ sameType)
  · exact isCopy ▸ sameCopy

/-- What takes the place of a result of the producer is a result of a new node. -/
theorem mem_new_of_replacement {w : ValueId} (member : w ∈ r.replacements) :
    w ∈ r.copies ∨ w ∈ r.results.drop r.own.length := by
  rcases List.getElem?_of_mem member with ⟨j, replacementAt⟩
  have lt := (List.getElem?_eq_some_iff.mp replacementAt).1
  rw [← reb.length_replacements able c] at lt
  rcases reb.replacement_at able c (List.getElem?_eq_getElem lt) replacementAt with
    ⟨copied, copiedAt, ⟨-, k, -, forwardedAt⟩ | ⟨-, isCopy⟩⟩
  · exact .inr (List.mem_of_getElem? forwardedAt)
  · exact .inl (isCopy ▸ List.mem_of_getElem? copiedAt)

/-- No replacement is a result of a node that goes. -/
theorem replacement_apart {w : ValueId} (member : w ∈ r.replacements) :
    w ∉ r.own ∧ w ∉ r.produced :=
  reb.apart able ((reb.mem_new_of_replacement able c member).imp_right List.mem_of_mem_drop)

/-- The replacements of the producer are told apart. -/
theorem nodup_replacements : r.replacements.Nodup := by
  have c₂ := reb.consistent
  have firsts : (r.copies.zip r.escapes).map Prod.fst = r.copies := by
    refine List.map_fst_zip (Nat.le_of_eq ?_)
    rw [able.escapes, List.length_map, reb.length_copies able c]
  refine nodup_forwardedResults ?_ ((c₂.results_nodup reb.rebuiltAt).sublist (List.drop_sublist _ _))
    fun w forwarded => ?_
  · rw [firsts]
    exact c₂.results_nodup reb.copyAt
  · rw [firsts]
    exact fun ofCopy => reb.copy_not_result ofCopy (List.mem_of_mem_drop forwarded)

variable (o : g.Ordered)

include o

/-- The values that the new nodes read are results of neither the consumer nor the producer. -/
theorem fixed {v : ValueId} (read : v ∈ r.inner ∨ v ∈ r.operands') :
    v ∉ r.own ∧ v ∉ r.produced := by
  have ofRemains (remains : g.Remains [r.consumer, r.producer] v) : v ∉ r.own ∧ v ∉ r.produced :=
    ⟨remains.not_mem_results c able.consumerAt (by simp),
      remains.not_mem_results c able.producerAt (by simp)⟩
  rcases read with inner | member
  · exact ofRemains (c.remains_inner o able.producerAt able.reads inner)
  · rcases Rerouting.mem_operands (reb.length_copies able c) reb.placed member with
      ofCopy | ⟨operand, other⟩
    · exact reb.apart able (.inl ofCopy)
    · exact ofRemains (c.remains_kept o able.consumerAt able.producerAt operand other)

end Rebuilt

end Region

end KernelFusion
