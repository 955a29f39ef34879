import KernelFusion.Proofs.Region.Consistency
import KernelFusion.Proofs.Region.UseSites

/-!
# Inserting a node

A node inserted at a place of the program order gets a handle and results that named nothing before.
`Inserted` says what the region is afterwards, in terms of what handles name; everything else is as it
was. A node that agrees with its kernel and with live operands leaves the region consistent
(`consistent_insertNode`), wherever it is put.
-/

namespace KernelFusion.Region

variable {g g' : Region} {n m : NodeId} {v : ValueId} {place : Nat} {kind : NodeKind}
  {results : List ValueId}

/-! ## The results of the new node -/

/-- Values were added as the results of a node, numbered from `index`. -/
structure ResultsAdded (values values' : Arena .value ValueInfo) (n : NodeId) (index : Nat)
    (types : List ElementType) (handles : List ValueId) : Prop where
  wf : values'.WellFormed
  length : handles.length = types.length
  fresh : ∀ v ∈ handles, values.get? v = none
  results : ∀ (i : Nat) (v : ValueId), handles[i]? = some v →
    ∃ type, types[i]? = some type ∧ values'.get? v = some ⟨type, .result n (index + i)⟩
  others : ∀ v, v ∉ handles → values'.get? v = values.get? v

/-- The results of a new node get handles that did not resolve, and no other value changes. -/
theorem resultsAdded {values : Arena .value ValueInfo} (wf : values.WellFormed) (index : Nat)
    (types : List ElementType) :
    ResultsAdded values (addResults values n index types).2 n index types
      (addResults values n index types).1 := by
  induction types generalizing values index with
  | nil => exact ⟨wf, rfl, by simp [addResults], by simp [addResults], fun _ _ => rfl⟩
  | cons type rest ih =>
    have lookup (q : ValueId) := Arena.get?_insert (q := q) wf ⟨type, .result n index⟩
    have later := ih (Arena.wellFormed_insert wf ⟨type, .result n index⟩) (index + 1)
    rw [addResults]
    generalize addResults (values.insert ⟨type, .result n index⟩) n (index + 1) rest = added at later
    -- The handles that come later are fresh beside the first one, so none of them is it.
    have first : values.fresh ∉ added.1 := by
      intro member
      have absent := later.fresh _ member
      rw [lookup, if_pos rfl] at absent
      cases absent
    refine ⟨later.wf, by simp [later.length], ?_, ?_, ?_⟩
    · intro v member
      rcases List.mem_cons.mp member with rfl | inRest
      · exact Arena.get?_fresh wf
      · have absent := later.fresh v inRest
        rw [lookup] at absent
        split at absent
        · cases absent
        · exact absent
    · intro i v found
      cases i with
      | zero =>
        cases found
        refine ⟨type, rfl, ?_⟩
        rw [later.others _ first, lookup, if_pos rfl, Nat.add_zero]
      | succ i =>
        obtain ⟨type', typeAt, infoAt⟩ := later.results i v found
        exact ⟨type', typeAt, by rw [infoAt, Nat.add_right_comm]; rfl⟩
    · intro v absent
      rw [List.mem_cons, not_or] at absent
      obtain ⟨ne, notInRest⟩ := absent
      rw [later.others v notInRest, lookup, if_neg ne]

/-! ## The region with the new node -/

/-- A node was inserted at a place of the program order. -/
structure Inserted (g g' : Region) (n : NodeId) (place : Nat) (kind : NodeKind)
    (results : List ValueId) : Prop where
  fresh : g.nodes.get? n = none
  node : ∀ m, g'.nodes.get? m = if m = n then some ⟨kind, results⟩ else g.nodes.get? m
  fresh_results : ∀ v ∈ results, g.values.get? v = none
  value : ∀ v, v ∉ results → g'.values.get? v = g.values.get? v
  order : g'.order = g.order.insertIdx place n
  inputs : g'.inputs = g.inputs
  outputs : g'.outputs = g.outputs
  uses : ∀ v, g'.usesOf v = g.usesOf v ++ ownSites n 0 kind.operands v

/-- The results that a new node would get. -/
def freshResults (g : Region) (types : List ElementType) : List ValueId :=
  (addResults g.values g.nodes.fresh 0 types).1

/-- What an insertion leaves, table by table. -/
theorem inserted_insertNode (c : g.Consistent) (place : Nat) (kind : NodeKind)
    (types : List ElementType) :
    Inserted g (g.insertNode place kind types) g.nodes.fresh place kind (g.freshResults types) := by
  have added := resultsAdded c.values 0 types (n := g.nodes.fresh)
  exact {
    fresh := Arena.get?_fresh c.nodes
    node := fun m => Arena.get?_insert c.nodes _
    fresh_results := added.fresh
    value := added.others
    order := rfl
    inputs := rfl
    outputs := rfl
    uses := fun v => UseIndex.sites_addOperands }

namespace Inserted

variable (ins : Inserted g g' n place kind results)

include ins

theorem node_self : g'.nodes.get? n = some ⟨kind, results⟩ := by
  rw [ins.node, if_pos rfl]

theorem ne_of_get? {node : Node} (found : g.nodes.get? m = some node) : m ≠ n := by
  intro same
  rw [same, ins.fresh] at found
  cases found

/-- The other nodes are kept. -/
theorem node_of_get? {node : Node} (found : g.nodes.get? m = some node) :
    g'.nodes.get? m = some node := by
  rw [ins.node, if_neg (ins.ne_of_get? found), found]

/-- The values that were there are kept. -/
theorem value_of_get? {info : ValueInfo} (found : g.values.get? v = some info) :
    g'.values.get? v = some info := by
  rw [ins.value v, found]
  intro member
  rw [ins.fresh_results v member] at found
  cases found

theorem none_of_none (absent : g'.values.get? v = none) : g.values.get? v = none := by
  cases found : g.values.get? v with
  | none => rfl
  | some info =>
    rw [ins.value_of_get? found] at absent
    cases absent

/-- The values that were there keep their types. -/
theorem typeOf_of_typeOf {type : ElementType} (found : g.typeOf v = some type) :
    g'.typeOf v = some type := by
  obtain ⟨definition, infoAt⟩ := typeOf_eq_some_iff.mp found
  exact typeOf_eq_some_iff.mpr ⟨definition, ins.value_of_get? infoAt⟩

theorem fresh_not_mem (c : g.Consistent) : n ∉ g.order := by
  intro member
  obtain ⟨node, found⟩ := (c.mem_order n).mp member
  rw [ins.fresh] at found
  cases found

/-- The nodes from the place on stand behind the new one. -/
theorem new_precedes_iff (c : g.Consistent) (le : place ≤ g.order.length) {node : Node}
    (found : g.nodes.get? m = some node) : Precedes g'.order n m ↔ place ≤ g.order.idxOf m := by
  rw [ins.order, precedes_insertIdx_self (ins.fresh_not_mem c) (ins.ne_of_get? found) le,
    and_iff_right (c.mem_order_of_get? found)]

/-- The nodes before the place stand before the new one. -/
theorem precedes_new_iff (c : g.Consistent) (le : place ≤ g.order.length) {node : Node}
    (found : g.nodes.get? m = some node) : Precedes g'.order m n ↔ g.order.idxOf m < place := by
  rw [ins.order, insertIdx_precedes_self (ins.fresh_not_mem c) (ins.ne_of_get? found) le]

/-- A site reads what it read before, except for the operands of the new node. -/
theorem siteValue_eq_some_iff {site : Use} :
    g'.siteValue site = some v ↔
      g.siteValue site = some v ∨ site ∈ ownSites n 0 kind.operands v := by
  rw [mem_ownSites]
  simp only [Nat.zero_add]
  cases site with
  | output i => simp [siteValue, ins.outputs]
  | operand m i =>
    simp only [siteValue, ins.node, Use.operand.injEq]
    by_cases same : m = n
    · subst same
      simp [ins.fresh]
    · simp [same]

theorem fits (c : g.Consistent) {node : Node} (found : g.nodes.get? m = some node) :
    g'.Fits m node :=
  (c.fits m node found).of_kept (fun _ _ _ => ins.typeOf_of_typeOf) fun _ _ _ => ins.value_of_get?

/-- The values that were there are defined as they were. -/
theorem defines (c : g.Consistent) {info : ValueInfo} (found : g.values.get? v = some info) :
    g'.Defines v info.definition := by
  refine (c.defines v info found).of_kept (fun i inputAt => ?_) fun m node nodeAt _ =>
    ⟨node, ins.node_of_get? nodeAt, rfl⟩
  rw [ins.inputs, inputAt]

theorem uses_nodup (c : g.Consistent) (v : ValueId) : (g'.usesOf v).Nodup := by
  rw [ins.uses, List.nodup_append']
  refine ⟨c.uses_nodup v, nodup_ownSites, fun site old new => ?_⟩
  rcases mem_ownSites.mp new with ⟨i, rfl, -⟩
  have read := (c.mem_usesOf v _).mp old
  rw [siteValue, ins.fresh] at read
  cases read

end Inserted

/-- The new node fits, as its results have the types that its kernel returns. -/
theorem fits_insertNode (c : g.Consistent) (place : Nat)
    (kernel : ∀ kernel, kind.kernel? = some kernel → kernel.WellFormed)
    (operands : List.Forall₂ (fun v type => g.typeOf v = some type) kind.operands
      kind.paramTypes) :
    (g.insertNode place kind kind.resultTypes).Fits g.nodes.fresh
      ⟨kind, g.freshResults kind.resultTypes⟩ := by
  have ins := inserted_insertNode c place kind kind.resultTypes
  have added := resultsAdded c.values 0 kind.resultTypes (n := g.nodes.fresh)
  refine ⟨kernel, operands.imp fun _ _ typed => ins.typeOf_of_typeOf typed, added.length, ?_⟩
  intro i v resultAt
  rcases added.results i v resultAt with ⟨type, typeAt, infoAt⟩
  rw [Nat.zero_add] at infoAt
  exact ⟨type, typeAt, infoAt⟩

/-- A node that agrees with its kernel and with live operands may be inserted anywhere. -/
theorem consistent_insertNode (c : g.Consistent) (le : place ≤ g.order.length)
    (kernel : ∀ kernel, kind.kernel? = some kernel → kernel.WellFormed)
    (operands : List.Forall₂ (fun v type => g.typeOf v = some type) kind.operands
      kind.paramTypes) :
    (g.insertNode place kind kind.resultTypes).Consistent := by
  have ins := inserted_insertNode c place kind kind.resultTypes
  have added := resultsAdded c.values 0 kind.resultTypes (n := g.nodes.fresh)
  have new := fits_insertNode c place kernel operands
  have notMem := ins.fresh_not_mem c
  constructor
  case nodes => exact Arena.wellFormed_insert c.nodes _
  case values => exact added.wf
  case order_nodup => exact nodup_insertIdx c.order_nodup notMem le
  case mem_order =>
    intro m
    rw [ins.order, List.mem_insertIdx le, ins.node, c.mem_order]
    by_cases same : m = g.nodes.fresh
    · simp [same]
    · simp [same]
  case length_order =>
    rw [ins.order, List.length_insertIdx_of_le_length le, c.length_order]
    exact (Arena.size_insert _).symm
  case positions => exact fun m => find?_reindex_insertIdx c.order_nodup notMem le c.positions
  case fits =>
    intro m node found
    rw [ins.node] at found
    split at found
    case isTrue same =>
      cases found
      exact same ▸ new
    case isFalse => exact ins.fits c found
  case defines =>
    intro v info found
    by_cases member : v ∈ g.freshResults kind.resultTypes
    · rcases List.getElem?_of_mem member with ⟨i, resultAt⟩
      rcases new.results i v resultAt with ⟨type, -, infoAt⟩
      rw [infoAt, Option.some.injEq] at found
      rw [← found]
      exact ⟨_, ins.node_self, resultAt⟩
    · rw [ins.value v member] at found
      exact ins.defines c found
  case inputs =>
    intro i v found
    rw [ins.inputs] at found
    rcases c.inputs i v found with ⟨type, infoAt⟩
    exact ⟨type, ins.value_of_get? infoAt⟩
  case outputs =>
    intro v member
    rw [ins.outputs] at member
    rcases c.outputs v member with ⟨info, infoAt⟩
    exact ⟨info, ins.value_of_get? infoAt⟩
  case uses_nodup => exact ins.uses_nodup c
  case mem_usesOf =>
    intro v site
    rw [ins.uses, List.mem_append, c.mem_usesOf, ins.siteValue_eq_some_iff]
  case uses_bound => exact UseIndex.Bound.addOperands c.uses_bound

end KernelFusion.Region
