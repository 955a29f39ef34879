import KernelFusion.Proofs.Region.Insertion
import KernelFusion.Proofs.Region.Redirection
import KernelFusion.Proofs.Region.Removal

/-!
# Edits of consistent regions

A question about a consistent region is answered from what its handles name. An edit of a consistent
region leaves a consistent region, whether it succeeds or is refused, so every region that can be made by
edits is consistent (`Built.consistent`).

The checks of an edit are exactly what its change asks for: `insertApply_run` and `eraseNode_run` give the
result of an edit from the facts that its checks look at.
-/

namespace KernelFusion.Region

variable {g : Region} {n m : NodeId} {v : ValueId} {node : Node} {place : Nat}
  {point : InsertPoint}

/-! ## Answers -/

/-- The kind of node that a handle names. -/
def tagOf (g : Region) (n : NodeId) : Option NodeTag := (g.nodes.get? n).map fun node => node.kind.tag

/-- The apply that produces a value, if one does. -/
def applyProducerOf (g : Region) (v : ValueId) : Option NodeId :=
  (g.producerOf v).filter fun n => g.tagOf n = some .apply

theorem node_eq_ok_iff : g.node n = .ok node ↔ g.nodes.get? n = some node := orRefuse_eq_ok_iff

theorem node_of_get? (found : g.nodes.get? n = some node) : g.node n = .ok node :=
  node_eq_ok_iff.mpr found

theorem kind_of_get? (found : g.nodes.get? n = some node) : g.kind n = .ok node.kind := by
  rw [kind, node_of_get? found, ok_bind, pure_eq_ok]

/-- The kind of a node is found if the region has the node. -/
theorem kind_eq_ok_iff {kind : NodeKind} :
    g.kind n = .ok kind ↔ ∃ node, g.nodes.get? n = some node ∧ node.kind = kind := by
  rw [Region.kind, bind_eq_ok_iff]
  simp only [node, orRefuse_eq_ok_iff, pure_eq_ok, Except.ok.injEq]

theorem results_of_get? (found : g.nodes.get? n = some node) : g.results n = .ok node.results := by
  rw [results, node_of_get? found, ok_bind, pure_eq_ok]

theorem operands_of_get? (found : g.nodes.get? n = some node) :
    g.operands n = .ok node.kind.operands := by
  rw [operands, kind_of_get? found, ok_bind, pure_eq_ok]

theorem kernel_of_get? (found : g.nodes.get? n = some node) {kernel : Kernel}
    (kernelEq : node.kind.kernel? = some kernel) : g.kernel n = .ok kernel := by
  rw [Region.kernel, kind_of_get? found, ok_bind, kernelEq, orRefuse_some]

theorem result_of_get? (found : g.nodes.get? n = some node) {i : Nat}
    (resultAt : node.results[i]? = some v) : g.result n i = .ok v := by
  rw [result, results_of_get? found, ok_bind, resultAt, orRefuse_some]

/-- The region has a node if its handle resolves. -/
theorem contains_eq_true_iff : g.contains n = true ↔ ∃ node, g.nodes.get? n = some node :=
  Arena.contains_iff

theorem contains_eq_false_iff : g.contains n = false ↔ g.nodes.get? n = none := by
  rw [← Bool.not_eq_true, contains_eq_true_iff, Option.eq_none_iff_forall_ne_some, not_exists]

theorem value_eq_ok_iff {info : ValueInfo} : g.value v = .ok info ↔ g.values.get? v = some info :=
  orRefuse_eq_ok_iff

/-- The look-up of a type agrees with `typeOf`. -/
theorem valueType_eq_ok_iff {type : ElementType} :
    g.valueType v = .ok type ↔ g.typeOf v = some type := by
  simp only [valueType, bind_eq_ok_iff, value_eq_ok_iff, pure_eq_ok, Except.ok.injEq, typeOf,
    Option.map_eq_some_iff]

/-- The look-up of a producer agrees with `producerOf`. -/
theorem producer_of_get? {info : ValueInfo} (found : g.values.get? v = some info) :
    g.producer v = .ok (g.producerOf v) := by
  rw [producer, definition, value_eq_ok_iff.mpr found, ok_bind, pure_eq_ok, ok_bind, pure_eq_ok,
    producerOf_of_get? found]

theorem tagOf_of_get? (found : g.nodes.get? n = some node) : g.tagOf n = some node.kind.tag := by
  rw [tagOf, found, Option.map_some]

/-- The apply that produces a value is its producer, if that is an apply. -/
theorem applyProducerOf_eq_some_iff :
    g.applyProducerOf v = some n ↔ g.producerOf v = some n ∧ g.tagOf n = some .apply := by
  rw [applyProducerOf, Option.filter_eq_some_iff, decide_eq_true_iff]

namespace Consistent

variable (c : g.Consistent)

include c

theorem applyProducer_of_get? {info : ValueInfo} (found : g.values.get? v = some info) :
    g.applyProducer v = .ok (g.applyProducerOf v) := by
  rw [applyProducer, producer_of_get? found, ok_bind, applyProducerOf]
  cases produced : g.producerOf v with
  | none => rfl
  | some n =>
    obtain ⟨node, found', -⟩ := c.producer_live produced
    dsimp only
    rw [kind_of_get? found', ok_bind, pure_eq_ok, Option.filter_some, tagOf_of_get? found']
    simp

/-- A live node has the position that the program order gives it. -/
theorem position_of_get? (found : g.nodes.get? n = some node) :
    g.position n = .ok (g.order.idxOf n) :=
  c.position_eq (c.mem_order_of_get? found)

/-- The place in front of a node is its own; what stands there moves on. -/
theorem resolve_before (found : g.nodes.get? n = some node) :
    g.resolve (.before n) = .ok (g.order.idxOf n) :=
  c.position_of_get? found

/-- The place behind a node. -/
theorem resolve_after (found : g.nodes.get? n = some node) :
    g.resolve (.after n) = .ok (g.order.idxOf n + 1) := by
  rw [resolve, c.position_of_get? found, ok_bind, pure_eq_ok]

theorem position_eq_ok_iff {i : Nat} :
    g.position n = .ok i ↔ n ∈ g.order ∧ g.order.idxOf n = i := by
  rw [position, orRefuse_eq_ok_iff, c.positions, positionIn_eq_some_iff]

/-- A place that an insertion point stands for is a place of the program order. -/
theorem resolve_le (resolved : g.resolve point = .ok place) : place ≤ g.order.length := by
  cases point with
  | before anchor =>
    obtain ⟨member, rfl⟩ := c.position_eq_ok_iff.mp resolved
    exact List.idxOf_le_length
  | after anchor =>
    rw [resolve, bind_eq_ok_iff] at resolved
    obtain ⟨i, positionEq, placeEq⟩ := resolved
    obtain ⟨member, rfl⟩ := c.position_eq_ok_iff.mp positionEq
    rw [← Except.ok.inj placeEq]
    exact List.idxOf_lt_length_of_mem member
  | last =>
    rw [resolve, pure_eq_ok, Except.ok.injEq] at resolved
    exact Nat.le_of_eq resolved.symm

/-! ## Checks of operands -/

/-- An operand passes if it has the type of its parameter and is not produced at the place or behind it. -/
theorem checkOperand_eq_ok_iff {index : Nat} {type : ElementType} :
    g.checkOperand place index v type = .ok () ↔
      g.typeOf v = some type ∧ ∀ m, g.producerOf v = some m → g.order.idxOf m < place := by
  unfold checkOperand
  cases typed : g.typeOf v with
  | none =>
    have refused : ∀ type', g.valueType v ≠ .ok type' := by
      intro type' answered
      rw [valueType_eq_ok_iff, typed] at answered
      cases answered
    simp [bind_eq_ok_iff, refused]
  | some type' =>
    obtain ⟨info, infoAt⟩ := isSome_of_typeOf typed
    rw [valueType_eq_ok_iff.mpr typed, ok_bind, Option.some.injEq, producer_of_get? infoAt]
    by_cases same : type' = type
    · rw [if_pos same]
      simp only [same, true_and]
      cases produced : g.producerOf v with
      | none => simp
      | some m =>
        obtain ⟨node, found, -⟩ := c.producer_live produced
        simp only [ok_bind, c.position_of_get? found, Option.some.injEq, forall_eq']
        by_cases before : g.order.idxOf m < place
        · simp [before]
        · simp [before]
    · rw [if_neg same]
      simp [same]

/-- Operands pass if each does. -/
theorem checkOperands_eq_ok_iff {index : Nat} {operands : List ValueId} {params : List ElementType}
    (length : operands.length = params.length) :
    g.checkOperands place index operands params = .ok () ↔
      List.Forall₂ (fun v type => g.typeOf v = some type) operands params ∧
        ∀ v ∈ operands, ∀ m, g.producerOf v = some m → g.order.idxOf m < place := by
  induction operands generalizing params index with
  | nil =>
    cases params with
    | nil => simp [checkOperands]
    | cons => cases length
  | cons operand rest ih =>
    cases params with
    | nil => cases length
    | cons param params =>
      rw [checkOperands, bind_eq_ok_iff]
      simp only [c.checkOperand_eq_ok_iff, ih (Nat.succ.inj length), List.forall₂_cons,
        List.forall_mem_cons]
      constructor
      · rintro ⟨_, ⟨typed, before⟩, typedRest, beforeRest⟩
        exact ⟨⟨typed, typedRest⟩, before, beforeRest⟩
      · rintro ⟨⟨typed, typedRest⟩, before, beforeRest⟩
        exact ⟨(), ⟨typed, before⟩, typedRest, beforeRest⟩

end Consistent

/-! ## Results of edits -/

/-- An insertion of a load succeeds if its place is found. -/
theorem insertLoad_run (resolved : g.resolve point = .ok place) (field : Field)
    (type : ElementType) :
    (insertLoad point field type).run g =
      .ok g.nodes.fresh (g.insertNode place (.load field type) [type]) := by
  unfold insertLoad
  rw [run_get_bind, resolved, run_lift_ok_bind]
  rfl

/-- An insertion of an apply succeeds if its operands pass. -/
theorem insertApply_run (c : g.Consistent) {operands : List ValueId} {kernel : Kernel}
    (resolved : g.resolve point = .ok place)
    (typed : List.Forall₂ (fun v type => g.typeOf v = some type) operands kernel.params)
    (before : ∀ v ∈ operands, ∀ m, g.producerOf v = some m → g.order.idxOf m < place) :
    (insertApply point operands kernel).run g =
      .ok g.nodes.fresh (g.insertNode place (.apply operands kernel) kernel.resultTypes) := by
  have checked : g.checkOperands place 0 operands kernel.params = .ok () :=
    (c.checkOperands_eq_ok_iff typed.length_eq).mpr ⟨typed, before⟩
  unfold insertApply
  rw [run_get_bind, resolved, run_lift_ok_bind, if_pos typed.length_eq]
  dsimp only
  rw [checked, run_lift_ok_bind]
  rfl

/-- An apply may be inserted behind the producers of its operands. -/
theorem insertApply_spec (c : g.Consistent) {operands : List ValueId} {kernel : Kernel}
    (wf : kernel.WellFormed) (resolved : g.resolve point = .ok place)
    (typed : List.Forall₂ (fun v type => g.typeOf v = some type) operands kernel.params)
    (before : ∀ v ∈ operands, ∀ m, g.producerOf v = some m → g.order.idxOf m < place) :
    ∃ g' n results, (insertApply point operands kernel).run g = .ok n g' ∧ g'.Consistent ∧
      Inserted g g' n place (.apply operands kernel) results := by
  refine ⟨_, _, _, insertApply_run c resolved typed before, ?_, inserted_insertNode c _ _ _⟩
  change (g.insertNode place (.apply operands kernel)
    (NodeKind.apply operands kernel).resultTypes).Consistent
  refine consistent_insertNode c (c.resolve_le resolved) (fun _ kernelEq => ?_) typed
  rwa [← Option.some.inj kernelEq]

/-- A node may be copied to any place behind the producers of its operands. -/
theorem insertCopy_spec (c : g.Consistent) (found : g.nodes.get? n = some node)
    (resolved : g.resolve point = .ok place)
    (before : ∀ v ∈ node.kind.operands, ∀ m, g.producerOf v = some m → g.order.idxOf m < place) :
    ∃ g' n' results, (insertCopy point n).run g = .ok n' g' ∧ g'.Consistent ∧
      Inserted g g' n' place node.kind results := by
  have fits := c.fits n node found
  have ran : (insertCopy point n).run g = .ok g.nodes.fresh
      (g.insertNode place node.kind node.kind.resultTypes) := by
    unfold insertCopy
    rw [run_get_bind, kind_of_get? found, run_lift_ok_bind]
    have operands := fits.operands
    cases kind : node.kind with
    | load field type => exact insertLoad_run resolved field type
    | apply values kernel =>
      rw [kind] at operands before
      exact insertApply_run c resolved operands before
  exact ⟨_, _, _, ran, consistent_insertNode c (c.resolve_le resolved) fits.kernel fits.operands,
    inserted_insertNode c _ _ _⟩

/-- A node passes as unused if nothing reads its results. -/
theorem checkUnused_eq_ok_iff {values : List ValueId} :
    g.checkUnused n values = .ok () ↔ ∀ v ∈ values, g.usesOf v = [] := by
  induction values with
  | nil => simp [checkUnused]
  | cons value rest ih =>
    rw [checkUnused, List.forall_mem_cons, ← ih, ← List.length_eq_zero_iff]
    by_cases unused : (g.usesOf value).length = 0
    · rw [if_pos unused]
      simp [unused]
    · rw [if_neg unused]
      simp [unused]

/-- Erasing an unused node succeeds. -/
theorem eraseNode_run (c : g.Consistent) (found : g.nodes.get? n = some node)
    (unused : ∀ v ∈ node.results, g.usesOf v = []) :
    (eraseNode n).run g = .ok () (g.removeNode (g.order.idxOf n) n node) := by
  unfold eraseNode
  rw [run_get_bind, node_of_get? found, run_lift_ok_bind, checkUnused_eq_ok_iff.mpr unused,
    run_lift_ok_bind, c.position_of_get? found, run_lift_ok_bind]
  rfl

/-- A value can take the place of another of the same type. -/
theorem checkReplacement_eq_ok_iff {source target : ValueId} :
    g.checkReplacement source target = .ok () ↔
      ∃ type, g.typeOf source = some type ∧ g.typeOf target = some type := by
  simp only [checkReplacement, bind_eq_ok_iff, valueType_eq_ok_iff]
  constructor
  · rintro ⟨type, sourceType, type', targetType, checked⟩
    by_cases same : type = type'
    · exact ⟨type, sourceType, same ▸ targetType⟩
    · rw [if_neg same] at checked
      cases checked
  · rintro ⟨type, sourceType, targetType⟩
    exact ⟨type, sourceType, type, targetType, by rw [if_pos rfl, pure_eq_ok]⟩

/-- Redirecting the uses of a value to another of the same type succeeds. -/
theorem redirectUses_run {source target : ValueId} {type : ElementType}
    (sourceType : g.typeOf source = some type) (targetType : g.typeOf target = some type)
    (ne : source ≠ target) :
    (redirectUses source target).run g = .ok () (g.moveUses source target) := by
  have checked := checkReplacement_eq_ok_iff.mpr ⟨type, sourceType, targetType⟩
  unfold redirectUses
  rw [run_get_bind, checked, run_lift_ok_bind, if_neg ne]
  rfl

end KernelFusion.Region
