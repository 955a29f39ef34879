import KernelFusion.Proofs.Region.Revision
import KernelFusion.Proofs.Rewrite.Matching
import KernelFusion.Proofs.Rewrite.Operands
import KernelFusion.Proofs.Rewrite.RuleKernels

/-!
# What producer inlining does

When an apply is read by one consumer only, the rule succeeds up to a sum of offsets out of range, and then it
has changed nothing. `Merged` says what it leaves: in the place of the consumer stands an apply that reads what
the consumer read besides the producer, and what the producer read; both are gone. Elsewhere the rule changes
nothing.

The rule inserts the merged apply, puts it in the place of the consumer and erases the producer last:
`Superseded` is the graph before that erasure, in which nothing reads the producer any more.
-/

namespace KernelFusion

/-- The nodes, values and kernels that an inlining is about. -/
structure Inlining where
  consumer : NodeId
  producer : NodeId
  merged : NodeId
  /-- The operands of the consumer. -/
  operands : List ValueId
  kernel : Kernel
  /-- The results of the consumer. -/
  own : List ValueId
  /-- The operands of the producer. -/
  inner : List ValueId
  innerKernel : Kernel
  /-- The results of the producer. -/
  produced : List ValueId
  /-- The operands of the merged apply. -/
  operands' : List ValueId
  kernel' : Kernel
  results : List ValueId
  /-- The parameters that stand for those of the producer. -/
  places : List Nat

namespace Inlining

/-- The operands that the consumer keeps. -/
def kept (r : Inlining) : List ValueId := r.operands.filter fun v => !r.produced.contains v

/-- What the parameters of the consumer become. -/
def bindings (r : Inlining) : List Binding := bindingsOf r.produced 0 r.operands

/-- What the remaining nodes read in place of what they read. -/
def substitution (r : Inlining) : ValueId → ValueId := redirectAll r.own r.results

/-- The node that takes over for another. -/
def heir (r : Inlining) (m : NodeId) : NodeId :=
  if m = r.consumer ∨ m = r.producer then r.merged else m

end Inlining

namespace Region

variable {g g' : Region} {n m p : NodeId} {r : Inlining}

/-- The consumer and the producer of an inlining. -/
structure Inlinable (g : Region) (r : Inlining) : Prop where
  consumerAt : g.nodes.get? r.consumer = some ⟨.apply r.operands r.kernel, r.own⟩
  producerAt : g.nodes.get? r.producer = some ⟨.apply r.inner r.innerKernel, r.produced⟩
  reads : g.Reads r.consumer r.producer
  confined : ¬ g.Escapes r.producer r.consumer

/-- The producer is merged into the consumer. -/
structure Merged (g g' : Region) (r : Inlining) : Prop where
  consistent : g'.Consistent
  inlinable : g.Inlinable r
  revision : Revision g g' [r.consumer, r.producer] [r.merged] r.substitution
  mergedAt : g'.nodes.get? r.merged = some ⟨.apply r.operands' r.kernel', r.results⟩
  bound : List.Forall₂ (fun v binding => Binding.Finds r.produced r.operands' v binding) r.operands
    r.bindings
  placed : Placed r.kept r.inner r.operands' r.places
  computed : mergedKernel r.kernel r.bindings r.producer r.innerKernel r.places r.kernel'.params =
    .ok r.kernel'
  renders : Kernel.Renders (mergedRead r.bindings r.producer r.innerKernel r.places) r.kernel
    r.kernel'.returns r.kernel'.draft
  own : ∀ (i : Nat) (v : ValueId), r.own[i]? = some v → r.results[i]? = some (r.substitution v)
  before : ∀ m, m ≠ r.producer → Precedes g.order m r.consumer → Precedes g'.order m r.merged
  behind : ∀ m, Precedes g.order r.consumer m → Precedes g'.order r.merged m
  chosen : g.Chosen r.operands r.consumer r.producer
  place : placeOperands r.kept r.inner = (r.operands', r.places)
  order : ∃ front mid back, g.order = front ++ r.producer :: (mid ++ r.consumer :: back) ∧
    g'.order = front ++ (mid ++ r.merged :: back)
  uses_own : ∀ v ∈ r.own, g'.usesOf (r.substitution v) = g.usesOf v

/-! ## The merged kernel -/

theorem bound_bindings (placed : Placed r.kept r.inner r.operands' r.places) :
    List.Forall₂ (fun v binding => Binding.Finds r.produced r.operands' v binding) r.operands
      r.bindings := by
  have extend : [] ++ r.kept <+: r.operands' := placed.extend
  exact bound_bindingsOf extend

/-- An operand that is bound to a result of the producer is that result. -/
theorem produced_at {i j : Nat} {v : ValueId} (bound : r.bindings[i]? = some (.inlined j))
    (operandAt : r.operands[i]? = some v) : r.produced[j]? = some v := by
  have extend : [] ++ r.kept <+: r.kept := List.prefix_refl _
  rcases exists_left_of_getElem? (bound_bindingsOf extend) bound with ⟨v', operandAt', finds⟩
  rw [operandAt, Option.some.injEq] at operandAt'
  exact operandAt' ▸ finds

/-- Merging the kernels fails at most by a sum of offsets out of range. -/
theorem Inlinable.kernel_upToFault (c : g.Consistent) (able : g.Inlinable r)
    (placed : Placed r.kept r.inner r.operands' r.places) {types : List ElementType}
    (typed : List.Forall₂ (fun v type => g.typeOf v = some type) r.operands' types) :
    UpToFault True (fun merged => merged.WellFormed ∧ merged.params = types ∧
        Kernel.Renders (mergedRead r.bindings r.producer r.innerKernel r.places) r.kernel
          merged.returns merged.draft)
      (mergedKernel r.kernel r.bindings r.producer r.innerKernel r.places types) := by
  have fits := c.fits _ _ able.consumerAt
  have fits' := c.fits _ _ able.producerAt
  have typeAt {place : Nat} {v : ValueId} {type : ElementType}
      (operandAt : r.operands'[place]? = some v) (typedV : g.typeOf v = some type) :
      types[place]? = some type := by
    rcases exists_right_of_getElem? typed operandAt with ⟨type', typeAt, typed'⟩
    rw [typeAt, ← typed', typedV]
  refine mergedKernel_upToFault (fits.kernel r.kernel rfl) (fits'.kernel r.innerKernel rfl) ?_ ?_
  · intro i type paramAt
    rcases exists_left_of_getElem? fits'.operands paramAt with ⟨v, innerAt, typedV⟩
    rcases exists_right_of_getElem? placed.places innerAt with ⟨place, placeAt, operandAt⟩
    exact ⟨place, placeAt, typeAt operandAt typedV⟩
  · intro i type paramAt
    rcases exists_left_of_getElem? fits.operands paramAt with ⟨v, operandAt, typedV⟩
    rcases exists_right_of_getElem? (bound_bindings placed) operandAt with
      ⟨binding, bindingAt, finds⟩
    refine ⟨binding, bindingAt, ?_⟩
    cases binding with
    | param index => exact typeAt finds.2 typedV
    | inlined result => exact (c.typeOf_result able.producerAt finds).symm.trans typedV

/-! ## The operands of the merged apply -/

/-- The merged apply reads what the consumer read elsewhere, and what the producer read. -/
theorem Inlining.mem_operands_iff (placed : Placed r.kept r.inner r.operands' r.places) {v : ValueId} :
    v ∈ r.operands' ↔ v ∈ r.operands ∧ v ∉ r.produced ∨ v ∈ r.inner := by
  rw [placed.mem_iff, Inlining.kept, List.mem_filter]
  simp

/-- What keeps a value visible lets its producer escape from a node that goes. -/
theorem Visible.escapes {gone : List NodeId} {v : ValueId} (visible : g.Visible gone v)
    (member : n ∈ gone) (produced : g.producerOf v = some p) : g.Escapes p n := by
  rcases visible with ⟨m, node, found, remains, operand⟩ | output
  · exact .inl ⟨m, fun same => remains (same ▸ member), node, v, found, operand, produced⟩
  · exact .inr ⟨v, output, produced⟩

/-- The producer stands before the consumer, which reads it. -/
theorem Inlinable.producer_first (able : g.Inlinable r) (o : g.Ordered) :
    Precedes g.order r.producer r.consumer :=
  o _ _ able.reads

section Edits

variable (c : g.Consistent) (o : g.Ordered) (able : g.Inlinable r)

include c o able

/-- What the merged apply reads remains when the consumer and the producer go. -/
theorem Inlinable.remains (placed : Placed r.kept r.inner r.operands' r.places) {v : ValueId}
    (member : v ∈ r.operands') : g.Remains [r.consumer, r.producer] v := by
  rcases (Inlining.mem_operands_iff placed).mp member with ⟨operand, other⟩ | inner
  · exact c.remains_kept o able.consumerAt able.producerAt operand other
  · exact c.remains_inner o able.producerAt able.reads inner

/-- It is a result of neither. -/
theorem Inlinable.operand_apart (placed : Placed r.kept r.inner r.operands' r.places) {v : ValueId}
    (member : v ∈ r.operands') : v ∉ r.own ∧ v ∉ r.produced :=
  have remains := able.remains c o placed member
  ⟨remains.not_mem_results c able.consumerAt (by simp),
    remains.not_mem_results c able.producerAt (by simp)⟩

omit c in
/-- It is produced before the consumer. -/
theorem Inlinable.read_before (placed : Placed r.kept r.inner r.operands' r.places) {v : ValueId}
    (member : v ∈ r.operands') (produced : g.producerOf v = some m) :
    Precedes g.order m r.consumer := by
  rcases (Inlining.mem_operands_iff placed).mp member with ⟨operand, -⟩ | inner
  · exact o _ _ ⟨_, v, able.consumerAt, operand, produced⟩
  · exact (o _ _ ⟨_, v, able.producerAt, inner, produced⟩).trans (able.producer_first o)

/-! ## The edits -/

omit o in
/-- The merged apply returns what the consumer returned. -/
theorem Inlinable.sameType_results {g₁ : Region} {merged : NodeId} {results : List ValueId}
    (c₁ : g₁.Consistent)
    (consumerAt : g₁.nodes.get? r.consumer = some ⟨.apply r.operands r.kernel, r.own⟩)
    (mergedAt : g₁.nodes.get? merged = some ⟨.apply r.operands' r.kernel', results⟩)
    (renders : Kernel.Renders (mergedRead r.bindings r.producer r.innerKernel r.places) r.kernel
      r.kernel'.returns r.kernel'.draft) : List.Forall₂ g₁.SameType r.own results := by
  have returns (i : Nat) (type : ElementType) (tree : Expr Access)
      (returned : r.kernel.Returns i type tree) : ∃ tree', r.kernel'.Returns i type tree' := by
    rcases renders.returns returned with ⟨tree', -, returned'⟩
    exact ⟨tree', returned'⟩
  refine forall₂_of_getElem? ?length fun i v w ownAt resultAt => ?sameType
  case length =>
    rw [c.length_returns able.consumerAt, c₁.length_returns mergedAt]
    exact renders.length_eq
  case sameType =>
    rcases c₁.exists_sameType_result consumerAt mergedAt returns ownAt with
      ⟨w', resultAt', sameType⟩
    rw [resultAt, Option.some.injEq] at resultAt'
    exact resultAt' ▸ sameType

end Edits

/-- The merged apply is inserted before the consumer, which is then replaced by it. -/
structure Superseded (g g₁ g₂ : Region) (r : Inlining) : Prop where
  inserted : Inserted g g₁ r.merged (g.order.idxOf r.consumer) (.apply r.operands' r.kernel') r.results
  intermediate : g₁.Consistent
  sameType : List.Forall₂ g₁.SameType r.own r.results
  replaced : Replaced g₁ g₂ r.consumer r.own r.results
  consistent : g₂.Consistent

/-- The first two edits that follow the computation of the merged kernel. -/
theorem exists_superseded (c : g.Consistent) (o : g.Ordered) (able : g.Inlinable r)
    (placed : Placed r.kept r.inner r.operands' r.places) (wf : r.kernel'.WellFormed)
    (typed : List.Forall₂ (fun v type => g.typeOf v = some type) r.operands' r.kernel'.params)
    (renders : Kernel.Renders (mergedRead r.bindings r.producer r.innerKernel r.places) r.kernel
      r.kernel'.returns r.kernel'.draft) :
    ∃ merged results g₁ g₂,
      (insertApply (.before r.consumer) r.operands' r.kernel').run g = .ok merged g₁ ∧
      g₁.results merged = .ok results ∧
      (replaceNode r.consumer results).run g₁ = .ok () g₂ ∧
      g.Superseded g₁ g₂ { r with merged := merged, results := results } := by
  rcases insertApply_spec c wf (c.resolve_before able.consumerAt) typed
    fun v member m produced => (able.read_before o placed member produced).2 with
    ⟨g₁, merged, results, ran₁, c₁, ins⟩
  have consumerAt₁ := ins.node_of_get? able.consumerAt
  have sameType := able.sameType_results c c₁ consumerAt₁ ins.node_self renders
  have apart : ∀ w ∈ results, w ∉ r.own := fun w member =>
    c₁.not_mem_results ins.node_self consumerAt₁ (ins.ne_of_get? able.consumerAt).symm member
  rcases replaceNode_run c₁ consumerAt₁ sameType apart with ⟨g₂, ran₂, c₂, rep⟩
  exact ⟨merged, results, g₁, g₂, ran₁, results_of_get? ins.node_self, ran₂, ins, c₁, sameType, rep,
    c₂⟩

namespace Superseded

variable {g₁ g₂ g₃ : Region} {i : Nat} {v w : ValueId} (sup : g.Superseded g₁ g₂ r)
  (c : g.Consistent) (able : g.Inlinable r)

include sup able

theorem ne_consumer : r.merged ≠ r.consumer := (sup.inserted.ne_of_get? able.consumerAt).symm

theorem ne_producer : r.merged ≠ r.producer := (sup.inserted.ne_of_get? able.producerAt).symm

/-- The merged apply returns nothing that the consumer returned. -/
theorem apart : ∀ w ∈ r.results, w ∉ r.own := fun _ member =>
  sup.intermediate.not_mem_results sup.inserted.node_self
    (sup.inserted.node_of_get? able.consumerAt) (sup.ne_consumer able) member

/-- The replacement of the consumer as a revision. -/
theorem revision : Revision g₁ g₂ [r.consumer] [] r.substitution :=
  sup.replaced.revision sup.intermediate (sup.inserted.node_of_get? able.consumerAt) sup.sameType
    (sup.apart able)

include c

/-- A result of the consumer is read of the merged apply. -/
theorem exists_own (ownAt : r.own[i]? = some v) :
    ∃ w, r.results[i]? = some w ∧ r.substitution v = w := by
  rcases exists_right_of_getElem? sup.sameType ownAt with ⟨w, resultAt, -⟩
  exact ⟨w, resultAt, redirectAll_getElem? (c.results_nodup able.consumerAt) ownAt resultAt⟩

variable (o : g.Ordered) (placed : Placed r.kept r.inner r.operands' r.places)

include o placed

theorem producerAt :
    g₂.nodes.get? r.producer = some ⟨.apply r.inner r.innerKernel, r.produced⟩ := by
  have producerAt₁ := sup.inserted.node_of_get? able.producerAt
  rw [(sup.revision able).kept _ _ producerAt₁ (by simpa using (able.producer_first o).ne),
    Node.rename_of_fixed]
  intro v inner
  have fixed := able.operand_apart c o placed (placed.mem_iff.mpr (.inr inner))
  exact redirectAll_of_not_mem fixed.1

theorem mergedAt : g₂.nodes.get? r.merged = some ⟨.apply r.operands' r.kernel', r.results⟩ := by
  rw [(sup.revision able).kept _ _ sup.inserted.node_self (by simpa using sup.ne_consumer able),
    Node.rename_of_fixed]
  exact fun v member => redirectAll_of_not_mem (able.operand_apart c o placed member).1

/-- Nothing reads the producer any more. -/
theorem unused : ∀ v ∈ r.produced, g₂.usesOf v = [] := by
  intro v result
  have le := c.resolve_le (c.resolve_before able.consumerAt)
  have whole := (sup.inserted.revision c le).trans (sup.revision able) (by simp)
  refine whole.usesOf_eq_nil sup.consistent (fun u visible renamed => ?old)
    fun n new node found operand => ?new
  case old =>
    have redirected : redirectAll r.own r.results u = v := renamed
    by_cases own : u ∈ r.own
    · have ofMerged : v ∈ r.results := redirected ▸ redirectAll_mem sup.sameType.length_eq own
      exact sup.intermediate.not_mem_results sup.inserted.node_self
        (sup.inserted.node_of_get? able.producerAt) (sup.ne_producer able) ofMerged result
    · rw [redirectAll_of_not_mem own] at redirected
      have produced := c.producerOf_result able.producerAt (redirected ▸ result)
      exact able.confined (visible.escapes (by simp) produced)
  case new =>
    rw [show n = r.merged by simpa using new, sup.mergedAt c able o placed,
      Option.some.injEq] at found
    rw [← found] at operand
    exact (able.operand_apart c o placed operand).2 result

variable (removed : Removed g₂ g₃ r.producer ⟨.apply r.inner r.innerKernel, r.produced⟩)

include removed

omit placed in
/-- The merged apply stands where the consumer stood. -/
theorem order_merged :
    ∃ front mid back, g.order = front ++ r.producer :: (mid ++ r.consumer :: back) ∧
      g₃.order = front ++ (mid ++ r.merged :: back) := by
  rcases (able.producer_first o).split with ⟨front, mid, back, split⟩
  have split' : g.order = (front ++ r.producer :: mid) ++ r.consumer :: back := by simp [split]
  have order₁ : g₁.order = (front ++ r.producer :: mid ++ [r.merged]) ++ r.consumer :: back := by
    rw [sup.inserted.order, split', insertIdx_idxOf (not_mem_front (split' ▸ c.order_nodup)),
      List.append_cons]
  have order₂ : g₂.order = front ++ r.producer :: (mid ++ r.merged :: back) := by
    rw [sup.replaced.order, order₁,
      erase_append_cons (not_mem_front (order₁ ▸ sup.intermediate.order_nodup))]
    simp
  refine ⟨front, mid, back, split, ?_⟩
  rw [removed.order, order₂, erase_append_cons (not_mem_front (split ▸ c.order_nodup))]

/-- A result of the merged apply takes over the uses of the result of the consumer. -/
theorem usesOf_result (ownAt : r.own[i]? = some v) (resultAt : r.results[i]? = some w) :
    g₃.usesOf w = g.usesOf v := by
  have ins := sup.inserted
  have own := List.mem_of_getElem? ownAt
  have new := List.mem_of_getElem? resultAt
  have absent := ins.fresh_results w new
  have producerAt := sup.producerAt c able o placed
  -- Neither apply reads what the consumer returns, and nothing reads the new value yet.
  have notOwn : w ∉ r.own := c.not_result_of_none able.consumerAt absent
  have notInner' : w ∉ r.inner := c.not_operand_of_none able.producerAt absent
  have notRead : w ∉ r.operands' := by
    intro member
    rcases (Inlining.mem_operands_iff placed).mp member with ⟨operand, -⟩ | inner
    · exact c.not_operand_of_none able.consumerAt absent operand
    · exact notInner' inner
  have notRead' : v ∉ r.operands' := fun member =>
    (able.operand_apart c o placed member).1 own
  have notOperand : v ∉ r.operands := fun operand =>
    (o _ _ ⟨_, v, able.consumerAt, operand, c.producerOf_result able.consumerAt own⟩).ne rfl
  have notInner : v ∉ r.inner := fun inner => notRead' (placed.mem_iff.mpr (.inr inner))
  have nodup := sup.intermediate.results_nodup ins.node_self
  have unread : g₁.usesOf w = [] := by
    rw [ins.uses, c.usesOf_of_none absent, NodeKind.operands, ownSites_of_not_mem notRead,
      List.append_nil]
  have kept : g₁.usesOf v = g.usesOf v := by
    rw [ins.uses, NodeKind.operands, ownSites_of_not_mem notRead', List.append_nil]
  rw [removed.usesOf_eq sup.consistent producerAt,
    sup.consistent.filter_usesOf producerAt notInner', sup.replaced.uses w notOwn,
    takenOver_getElem? nodup ownAt resultAt, unread, List.nil_append, kept,
    c.filter_usesOf able.consumerAt notOperand]

/-- When the producer is erased as well, it has been merged into the consumer. -/
theorem merged (chosen : g.Chosen r.operands r.consumer r.producer)
    (place : placeOperands r.kept r.inner = (r.operands', r.places))
    (computed : mergedKernel r.kernel r.bindings r.producer r.innerKernel r.places r.kernel'.params =
      .ok r.kernel')
    (renders : Kernel.Renders (mergedRead r.bindings r.producer r.innerKernel r.places) r.kernel
      r.kernel'.returns r.kernel'.draft) (c₃ : g₃.Consistent) : g.Merged g₃ r := by
  have le := c.resolve_le (c.resolve_before able.consumerAt)
  have producerFirst := able.producer_first o
  have neConsumer := sup.ne_consumer able
  have neProducer := sup.ne_producer able
  have mergedRemains : r.merged ∉ [r.consumer] ++ [r.producer] := by simp [neConsumer, neProducer]
  have erasure := removed.revision sup.consistent (sup.producerAt c able o placed)
    (sup.unused c able o placed)
  have rev := (sup.revision able).trans erasure (by simp)
  refine ⟨c₃, able, (sup.inserted.revision c le).trans rev (by simp), ?mergedAt,
    bound_bindings placed, placed, computed, renders, ?own, ?before, ?behind, chosen, place,
    sup.order_merged c able o removed, ?uses_own⟩
  case mergedAt =>
    rw [erasure.kept r.merged _ (sup.mergedAt c able o placed) (by simpa using neProducer),
      Node.rename_id]
  case own =>
    intro i v ownAt
    rcases sup.exists_own c able ownAt with ⟨w, resultAt, renamed⟩
    rw [resultAt, renamed]
  case before =>
    intro m ne before
    rcases (c.mem_order m).mp before.mem_left with ⟨node, nodeAt⟩
    rw [rev.precedes m r.merged (by simp [before.ne, ne]) mergedRemains (by simp) (by simp)]
    exact (sup.inserted.precedes_new_iff c le nodeAt).mpr before.2
  case behind =>
    intro m behind
    rcases (c.mem_order m).mp behind.mem_right with ⟨node, nodeAt⟩
    have other := (producerFirst.trans behind).ne.symm
    rw [rev.precedes r.merged m mergedRemains (by simp [behind.ne.symm, other]) (by simp) (by simp)]
    exact (sup.inserted.new_precedes_iff c le nodeAt).mpr (Nat.le_of_lt behind.2)
  case uses_own =>
    intro v member
    rcases List.getElem?_of_mem member with ⟨i, ownAt⟩
    rcases sup.exists_own c able ownAt with ⟨w, resultAt, renamed⟩
    rw [renamed]
    exact sup.usesOf_result c able o placed removed ownAt resultAt

end Superseded

/-- The edits that follow the computation of the merged kernel. -/
theorem exists_merged (c : g.Consistent) (o : g.Ordered) (able : g.Inlinable r)
    (chosen : g.Chosen r.operands r.consumer r.producer)
    (place : placeOperands r.kept r.inner = (r.operands', r.places))
    (placed : Placed r.kept r.inner r.operands' r.places) (wf : r.kernel'.WellFormed)
    (typed : List.Forall₂ (fun v type => g.typeOf v = some type) r.operands' r.kernel'.params)
    (computed : mergedKernel r.kernel r.bindings r.producer r.innerKernel r.places r.kernel'.params =
      .ok r.kernel')
    (renders : Kernel.Renders (mergedRead r.bindings r.producer r.innerKernel r.places) r.kernel
      r.kernel'.returns r.kernel'.draft) :
    ∃ merged results g₁ g₂ g₃,
      (insertApply (.before r.consumer) r.operands' r.kernel').run g = .ok merged g₁ ∧
      g₁.results merged = .ok results ∧
      (replaceNode r.consumer results).run g₁ = .ok () g₂ ∧
      (eraseNode r.producer).run g₂ = .ok () g₃ ∧
      g.Merged g₃ { r with merged := merged, results := results } := by
  rcases exists_superseded c o able placed wf typed renders with
    ⟨merged, results, g₁, g₂, ran₁, resultsEq, ran₂, sup⟩
  have able' : g.Inlinable { r with merged := merged, results := results } :=
    ⟨able.consumerAt, able.producerAt, able.reads, able.confined⟩
  have c₂ := sup.consistent
  have producerAt := sup.producerAt c able' o placed
  have unused := sup.unused c able' o placed
  have c₃ := consistent_removeNode c₂ producerAt unused
  exact ⟨merged, results, g₁, g₂, _, ran₁, resultsEq, ran₂, eraseNode_run c₂ producerAt unused,
    sup.merged c able' o placed (removed_removeNode c₂) chosen place computed renders c₃⟩

/-! ## The whole rule -/

namespace Merged

variable (mer : g.Merged g' r)

include mer

variable (c : g.Consistent)

include c

theorem follows : Follows g g' [r.consumer, r.producer] r.substitution r.heir := by
  have able := mer.inlinable
  refine mer.revision.follows_of c (fun m remains => if_neg (by simpa using remains)) ?_
  intro m member v produced visible
  rcases List.mem_pair.mp member with rfl | rfl
  · obtain ⟨i, ownAt⟩ := List.getElem?_of_mem ((c.mem_results_iff able.consumerAt).mpr produced)
    rw [Inlining.heir, if_pos (.inl rfl)]
    exact mer.consistent.producerOf_result mer.mergedAt (List.mem_of_getElem? (mer.own i v ownAt))
  · -- Nothing that remains reads the producer.
    exact absurd (visible.escapes List.mem_cons_self produced) able.confined

variable (o : g.Ordered)

include o

/-- The merged apply reads what the consumer and the producer read, but for the producer. -/
theorem reads_merged_iff :
    g'.Reads r.merged m ↔ g.Reads r.consumer m ∧ m ≠ r.producer ∨ g.Reads r.producer m := by
  have able := mer.inlinable
  rw [reads_iff_operand mer.mergedAt, reads_iff_operand able.consumerAt,
    reads_iff_operand able.producerAt]
  constructor
  · intro read
    rcases read with ⟨v, member, produced⟩
    rw [mer.revision.producerOf_eq (able.remains c o mer.placed member)] at produced
    rcases (Inlining.mem_operands_iff mer.placed).mp member with ⟨operand, other⟩ | inner
    · refine .inl ⟨⟨v, operand, produced⟩, fun same => other ?_⟩
      exact (c.mem_results_iff able.producerAt).mpr (same ▸ produced)
    · exact .inr ⟨v, inner, produced⟩
  · intro read
    have placedAt {v : ValueId} (member : v ∈ r.operands ∧ v ∉ r.produced ∨ v ∈ r.inner)
        (produced : g.producerOf v = some m) : ∃ v ∈ r.operands', g'.producerOf v = some m := by
      have member' := (Inlining.mem_operands_iff mer.placed).mpr member
      have same := mer.revision.producerOf_eq (able.remains c o mer.placed member')
      exact ⟨v, member', same.trans produced⟩
    rcases read with ⟨⟨v, operand, produced⟩, ne⟩ | ⟨v, inner, produced⟩
    · refine placedAt (.inl ⟨operand, fun result => ne ?_⟩) produced
      have same := (c.producerOf_result able.producerAt result).symm.trans produced
      exact (Option.some.inj same).symm
    · exact placedAt (.inr inner) produced

theorem ordered : g'.Ordered := by
  have able := mer.inlinable
  have producerFirst := able.producer_first o
  refine mer.revision.ordered (mer.follows c) c o (fun m remains => if_neg (by simpa using remains))
    ?taken ?new
  case taken =>
    intro n m remains member reads
    rcases List.mem_pair.mp member with rfl | rfl
    · rw [Inlining.heir, if_pos (.inl rfl)]
      exact mer.behind n (o _ _ reads)
    · exact absurd (.inl ⟨n, List.ne_of_not_mem_cons remains, reads⟩) able.confined
  case new =>
    intro n member m reads
    rw [List.mem_singleton.mp member] at reads ⊢
    rcases (mer.reads_merged_iff c o).mp reads with ⟨reads, ne⟩ | reads
    · exact mer.before m ne (o _ _ reads)
    · have first := o _ _ reads
      exact mer.before m first.ne (first.trans producerFirst)

end Merged

/-- The kernels of a consumer and a producer cannot be merged, since a sum of offsets is out of range. -/
structure Unmergeable (g : Region) (r : Inlining) : Prop where
  inlinable : g.Inlinable r
  placed : Placed r.kept r.inner r.operands' r.places
  overflow : ∃ types, mergedKernel r.kernel r.bindings r.producer r.innerKernel r.places types =
    .error (.arithmetic .addition)

/-- The rule up to the computation of the merged kernel, which decides. -/
theorem Inlinable.inlineProducer_run (able : g.Inlinable r) {types : List ElementType}
    (answered : g.exclusiveProducer r.consumer r.operands = .ok (some r.producer))
    (place : placeOperands r.kept r.inner = (r.operands', r.places))
    (typed : g.valueTypes r.operands' = .ok types) :
    (inlineProducer r.consumer).run g = (do
      let kernel' ← mergedKernel r.kernel r.bindings r.producer r.innerKernel r.places types
      let merged ← insertApply (.before r.consumer) r.operands' kernel'
      let results ← (← get).results merged
      replaceNode r.consumer results
      eraseNode r.producer
      return .rewritten [merged] : Edit Outcome).run g := by
  rw [Inlining.kept] at place
  unfold inlineProducer
  rw [run_get_bind, kind_of_get? able.consumerAt, run_lift_ok_bind]
  dsimp only
  rw [answered, run_lift_ok_bind]
  dsimp only
  rw [results_of_get? able.producerAt, run_lift_ok_bind, operands_of_get? able.producerAt,
    run_lift_ok_bind]
  dsimp only [NodeKind.operands]
  rw [place, kernel_of_get? able.producerAt rfl, run_lift_ok_bind, typed, run_lift_ok_bind]
  rfl

/-- What a match gives: the consumer, the producer that is chosen, and the operands of the merged apply. -/
theorem exists_inlinable (c : g.Consistent) (isMatch : Rule.Matches g .producerInlining n) :
    ∃ r : Inlining, r.consumer = n ∧ g.Inlinable r ∧ g.Chosen r.operands r.consumer r.producer ∧
      g.exclusiveProducer r.consumer r.operands = .ok (some r.producer) ∧
      placeOperands r.kept r.inner = (r.operands', r.places) := by
  obtain ⟨p, feeds, confined⟩ := isMatch
  obtain ⟨⟨kind, own⟩, v, found, operand, -⟩ := id feeds.2
  cases kind with
  | load => cases operand
  | apply operands kernel =>
  rcases c.exclusiveProducer_of_get? found with
    ⟨-, others⟩ | ⟨q, answered, feeds', confined', chosen⟩
  · exact absurd (others p feeds) confined
  obtain ⟨⟨kind, produced⟩, foundQ, kindTag⟩ := Option.map_eq_some_iff.mp feeds'.1
  cases kind with
  | load => cases kindTag
  | apply inner innerKernel =>
  obtain ⟨operands', places, place⟩ : ∃ operands' places,
      placeOperands (operands.filter fun operand => !produced.contains operand) inner =
        (operands', places) := ⟨_, _, rfl⟩
  exact ⟨⟨n, q, n, operands, kernel, own, inner, innerKernel, produced, operands', kernel, [], places⟩,
    rfl, ⟨found, foundQ, feeds'.2, confined'⟩, chosen, answered, place⟩

/-- The rule merges a producer that does not escape, unless a sum of offsets is out of range. -/
theorem inlineProducer_rewrites (c : g.Consistent) (o : g.Ordered)
    (isMatch : Rule.Matches g .producerInlining n) :
    (∃ g' r, r.consumer = n ∧ (inlineProducer n).run g = .ok (.rewritten [r.merged]) g' ∧
      g.Merged g' r) ∨
      (inlineProducer n).run g = .error (.arithmetic .addition) g ∧
        ∃ r, r.consumer = n ∧ g.Unmergeable r := by
  obtain ⟨r, rfl, able, chosen, answered, place⟩ := exists_inlinable c isMatch
  have placed : Placed r.kept r.inner r.operands' r.places := by
    have placed := placed_placeOperands r.kept r.inner
    rwa [place] at placed
  obtain ⟨types, typesEq, typed⟩ := valueTypes_eq_ok fun v member =>
    (able.remains c o placed member).live
  have computed := able.kernel_upToFault c placed typed
  rw [able.inlineProducer_run answered place typesEq]
  cases result : mergedKernel r.kernel r.bindings r.producer r.innerKernel r.places types with
  | error e =>
    rw [result] at computed
    refine .inr ⟨?_, r, rfl, able, placed, types, ?_⟩
    · rw [run_lift_error_bind, computed.2]
    · exact result.trans (congrArg Except.error computed.2)
  | ok kernel' =>
    rw [result] at computed
    obtain ⟨wf, rfl, renders⟩ := computed
    have able' : g.Inlinable { r with kernel' := kernel' } :=
      ⟨able.consumerAt, able.producerAt, able.reads, able.confined⟩
    obtain ⟨merged, results, g₁, g₂, g₃, ran₁, resultsEq, ran₂, ran₃, mer⟩ :=
      exists_merged c o able' chosen place placed wf typed result renders
    refine .inl ⟨g₃, { r with kernel' := kernel', merged := merged, results := results }, rfl, ?_, mer⟩
    rw [run_lift_ok_bind, run_bind_ok ran₁, run_get_bind, resultsEq, run_lift_ok_bind,
      run_bind_ok ran₂, run_bind_ok ran₃]
    rfl

/-- Without an apply that only the consumer reads there is nothing to inline. -/
theorem inlineProducer_refuses (c : g.Consistent) {node : Node} (found : g.nodes.get? n = some node)
    (mismatch : ¬ Rule.Matches g .producerInlining n) :
    (inlineProducer n).run g = .ok .noMatch g := by
  obtain ⟨kind, results⟩ := node
  unfold inlineProducer
  rw [run_get_bind, kind_of_get? found, run_lift_ok_bind]
  cases kind with
  | load => rfl
  | apply operands kernel =>
    rcases c.exclusiveProducer_of_get? found with ⟨answered, -⟩ | ⟨p, -, feeds, confined, -⟩
    · dsimp only [NodeKind.operands] at answered ⊢
      rw [answered, run_lift_ok_bind]
      rfl
    · exact absurd ⟨p, feeds, confined⟩ mismatch

end Region

end KernelFusion
