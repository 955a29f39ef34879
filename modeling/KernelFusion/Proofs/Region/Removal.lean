import KernelFusion.Proofs.Region.Consistency
import KernelFusion.Proofs.Region.UseSites

/-!
# Removing a node

A node whose results nothing reads can go, together with its results and the uses it makes. `Removed` says
what the region is afterwards; `consistent_removeNode` that it stays consistent.
-/

namespace KernelFusion.Region

variable {g g' : Region} {n m : NodeId} {v : ValueId} {old : Node}

/-- A node and its results were removed. -/
structure Removed (g g' : Region) (n : NodeId) (old : Node) : Prop where
  node : ∀ m, g'.nodes.get? m = if m = n then none else g.nodes.get? m
  value : ∀ v, g'.values.get? v = if v ∈ old.results then none else g.values.get? v
  order : g'.order = g.order.erase n
  inputs : g'.inputs = g.inputs
  outputs : g'.outputs = g.outputs
  uses : ∀ v, g'.usesOf v =
    (g.usesOf v).filter fun site => site ∉ ownSites n 0 old.kind.operands v

/-- What a removal leaves, table by table. -/
theorem removed_removeNode (c : g.Consistent) :
    Removed g (g.removeNode (g.order.idxOf n) n old) n old where
  node _ := Arena.get?_erase
  value _ := Arena.get?_foldl_erase old.results
  order := (List.erase_eq_eraseIdx_of_idxOf rfl).symm
  inputs := rfl
  outputs := rfl
  uses _ := UseIndex.sites_removeOperands c.uses_nodup

namespace Removed

variable (rem : Removed g g' n old)

include rem

theorem node_of_ne (ne : m ≠ n) : g'.nodes.get? m = g.nodes.get? m := by
  rw [rem.node, if_neg ne]

/-- Only the results of the node are gone. -/
theorem value_of_not_mem (absent : v ∉ old.results) : g'.values.get? v = g.values.get? v := by
  rw [rem.value, if_neg absent]

theorem ne_of_get? {other : Node} (found : g'.nodes.get? m = some other) : m ≠ n := by
  intro same
  rw [rem.node, if_pos same] at found
  cases found

end Removed

/-! ## A node whose results nothing reads -/

section Unused

variable (c : g.Consistent) (unused : ∀ v ∈ old.results, g.usesOf v = [])

include c unused

/-- What is read somewhere is no result of an unused node. -/
theorem not_mem_of_siteValue {site : Use} (read : g.siteValue site = some v) :
    v ∉ old.results := by
  intro result
  have used := (c.mem_usesOf v site).mpr read
  rw [unused v result] at used
  cases used

/-- What another node reads is no result of the node that is removed. -/
theorem not_mem_of_operand {other : Node} (otherAt : g.nodes.get? m = some other)
    (operand : v ∈ other.kind.operands) : v ∉ old.results := by
  rcases List.getElem?_of_mem operand with ⟨i, operandAt⟩
  have read : g.siteValue (.operand m i) = some v := by
    rw [siteValue, otherAt, Option.bind_some, operandAt]
  exact not_mem_of_siteValue c unused read

theorem not_mem_of_output (output : v ∈ g.outputs) : v ∉ old.results := by
  rcases List.getElem?_of_mem output with ⟨i, outputAt⟩
  have read : g.siteValue (.output i) = some v := outputAt
  exact not_mem_of_siteValue c unused read

end Unused

namespace Removed

variable (rem : Removed g g' n old) (c : g.Consistent)

include rem c

/-- The other nodes fit as they did, since none of them reads what is gone. -/
theorem fits (found : g.nodes.get? n = some old) (unused : ∀ v ∈ old.results, g.usesOf v = [])
    {other : Node} (otherAt : g'.nodes.get? m = some other) : g'.Fits m other := by
  have ne := rem.ne_of_get? otherAt
  rw [rem.node_of_ne ne] at otherAt
  refine (c.fits m other otherAt).of_kept (fun v operand type typed => ?_)
    fun v result info infoAt => ?_
  · have other := not_mem_of_operand c unused otherAt operand
    rw [typeOf, rem.value_of_not_mem other, ← typed, typeOf]
  · have other := c.not_mem_results otherAt found ne result
    rw [rem.value_of_not_mem other, infoAt]

/-- The values that are left are defined as they were. -/
theorem defines (found : g.nodes.get? n = some old) {info : ValueInfo}
    (infoAt : g'.values.get? v = some info) : g'.Defines v info.definition := by
  rw [rem.value] at infoAt
  split at infoAt
  case isTrue => cases infoAt
  case isFalse notOwn =>
    refine (c.defines v info infoAt).of_kept (fun i inputAt => by rwa [rem.inputs])
      fun m other otherAt result => ?_
    have ne : m ≠ n := by
      intro same
      rw [same, found, Option.some.injEq] at otherAt
      exact notOwn (otherAt ▸ result)
    exact ⟨other, (rem.node_of_ne ne).trans otherAt, rfl⟩

theorem inputAt (found : g.nodes.get? n = some old) {i : Nat}
    (inputAt : g'.inputs[i]? = some v) : ∃ type, g'.values.get? v = some ⟨type, .input i⟩ := by
  rw [rem.inputs] at inputAt
  rcases c.inputs i v inputAt with ⟨type, infoAt⟩
  have other : v ∉ old.results := by
    intro own
    have produced := (c.mem_results_iff found).mp own
    rw [producerOf_of_get? infoAt] at produced
    cases produced
  exact ⟨type, (rem.value_of_not_mem other).trans infoAt⟩

/-- The uses that are left are those of the other nodes. -/
theorem mem_usesOf (found : g.nodes.get? n = some old) {site : Use} :
    site ∈ g'.usesOf v ↔ g'.siteValue site = some v := by
  rw [rem.uses, List.mem_filter, c.mem_usesOf, decide_eq_true_iff, mem_ownSites]
  simp only [Nat.zero_add]
  cases site with
  | output i => simp [siteValue, rem.outputs]
  | operand m i =>
    rw [siteValue, siteValue, rem.node]
    by_cases same : m = n
    · subst same
      simp [found]
    · simp [same]

/-- The sites that go are those of the node, and the others keep their order. -/
theorem usesOf_eq (found : g.nodes.get? n = some old) :
    g'.usesOf v = (g.usesOf v).filter fun site => site.node? ≠ some n := by
  rw [rem.uses]
  refine List.filter_congr fun site used => ?_
  have own : site ∈ ownSites n 0 old.kind.operands v ↔ site.node? = some n := by
    rw [mem_ownSites]
    have read := (c.mem_usesOf v site).mp used
    constructor
    · intro isOwn
      rcases isOwn with ⟨i, rfl, -⟩
      rfl
    · intro isOwn
      cases site with
      | output i => cases isOwn
      | operand m i =>
        cases isOwn
        rw [siteValue, found, Option.bind_some] at read
        exact ⟨i, by rw [Nat.zero_add], read⟩
  simp only [own, ne_eq]

end Removed

/-- A node whose results nothing reads may be removed. -/
theorem consistent_removeNode (c : g.Consistent) (found : g.nodes.get? n = some old)
    (unused : ∀ v ∈ old.results, g.usesOf v = []) :
    (g.removeNode (g.order.idxOf n) n old).Consistent := by
  have rem : Removed g (g.removeNode (g.order.idxOf n) n old) n old := removed_removeNode c
  have member := c.mem_order_of_get? found
  constructor
  case nodes => exact Arena.wellFormed_erase c.nodes
  case values => exact Arena.wellFormed_foldl_erase c.values old.results
  case order_nodup =>
    rw [rem.order]
    exact c.order_nodup.erase n
  case mem_order =>
    intro m
    rw [rem.order, c.order_nodup.mem_erase_iff, c.mem_order, rem.node]
    by_cases same : m = n
    · simp [same]
    · simp [same]
  case length_order =>
    rw [rem.order, List.length_erase_of_mem member, c.length_order]
    exact (Arena.size_erase (Arena.contains_of_get? found)).symm
  case positions =>
    intro m
    have renewed := find?_reindex_erase (q := m) c.order_nodup member c.positions
    rw [rem.order, ← renewed, List.erase_eq_eraseIdx_of_idxOf rfl]
    rfl
  case fits => exact fun m other => rem.fits c found unused
  case defines => exact fun v info => rem.defines c found
  case inputs => exact fun i v => rem.inputAt c found
  case outputs =>
    intro v output
    rcases c.outputs v output with ⟨info, infoAt⟩
    exact ⟨info, by rw [rem.value_of_not_mem (not_mem_of_output c unused output), infoAt]⟩
  case uses_nodup =>
    intro v
    rw [rem.uses]
    exact (c.uses_nodup v).filter _
  case mem_usesOf => exact fun v site => rem.mem_usesOf c found
  case uses_bound => exact UseIndex.Bound.removeOperands c.uses_bound

end KernelFusion.Region
