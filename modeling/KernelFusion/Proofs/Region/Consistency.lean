import KernelFusion.Proofs.Arena.Lookup
import KernelFusion.Proofs.Fallible
import KernelFusion.Proofs.Kernel.Typing
import KernelFusion.Proofs.Region.ProgramOrder

/-!
# Consistent regions

A region keeps the same facts in several places. `Region.Consistent` says that the places agree: the
program order lists each node once and the positions invert it, every node agrees with its kernel and with
the values it reads and defines, every value is defined where it says, and the use list of a value holds
each site that reads it once and nothing else. What it leaves open is whether operands are produced before
they are read; that is `Region.Ordered`, and it is about `Region.Reads`, the relation between a node and
the nodes that produce its operands.
-/

namespace KernelFusion

namespace NodeKind

/-- The types that the operands of a node must have. -/
def paramTypes : NodeKind → List ElementType
  | .load .. => []
  | .apply _ kernel => kernel.params

/-- The types that the results of a node have. -/
def resultTypes : NodeKind → List ElementType
  | .load _ type => [type]
  | .apply _ kernel => kernel.resultTypes

/-- Replaces every operand. -/
def mapOperands (f : ValueId → ValueId) : NodeKind → NodeKind
  | .load field type => .load field type
  | .apply operands kernel => .apply (operands.map f) kernel

variable {f : ValueId → ValueId} {kind : NodeKind}

@[simp]
theorem operands_mapOperands : (kind.mapOperands f).operands = kind.operands.map f := by
  cases kind <;> rfl

@[simp]
theorem paramTypes_mapOperands : (kind.mapOperands f).paramTypes = kind.paramTypes := by
  cases kind <;> rfl

@[simp]
theorem resultTypes_mapOperands : (kind.mapOperands f).resultTypes = kind.resultTypes := by
  cases kind <;> rfl

@[simp]
theorem kernel?_mapOperands : (kind.mapOperands f).kernel? = kind.kernel? := by
  cases kind <;> rfl

@[simp]
theorem tag_mapOperands : (kind.mapOperands f).tag = kind.tag := by
  cases kind <;> rfl

/-- Nothing changes where all operands stay what they are. -/
theorem mapOperands_id (same : ∀ v ∈ kind.operands, f v = v) : kind.mapOperands f = kind := by
  cases kind with
  | load => rfl
  | apply operands kernel =>
    have agree : operands.map f = operands.map id := List.map_congr_left same
    rw [mapOperands, agree, List.map_id]

end NodeKind

@[simp]
theorem NodeKind.mapOperands_mapOperands (f f' : ValueId → ValueId) (kind : NodeKind) :
    (kind.mapOperands f).mapOperands f' = kind.mapOperands (f' ∘ f) := by
  cases kind with
  | load => rfl
  | apply operands kernel => rw [mapOperands, mapOperands, mapOperands, List.map_map]

/-- A node that reads other values in the same places. -/
def Node.rename (f : ValueId → ValueId) (node : Node) : Node :=
  { node with kind := node.kind.mapOperands f }

@[simp]
theorem Node.rename_rename (f f' : ValueId → ValueId) (node : Node) :
    (node.rename f).rename f' = node.rename (f' ∘ f) := by
  rw [rename, rename, rename, NodeKind.mapOperands_mapOperands]

theorem Node.rename_of_fixed {f : ValueId → ValueId} {node : Node}
    (fixed : ∀ v ∈ node.kind.operands, f v = v) : node.rename f = node := by
  rw [rename, NodeKind.mapOperands_id fixed]

@[simp]
theorem Node.rename_id (node : Node) : node.rename id = node := rename_of_fixed fun _ _ => rfl

namespace Region

variable {g : Region} {n m : NodeId} {v : ValueId} {node : Node} {info : ValueInfo}

/-! ## What agrees -/

/-- The type of a value, if there is one. -/
def typeOf (g : Region) (v : ValueId) : Option ElementType := (g.values.get? v).map ValueInfo.type

/-- The node that produces a value, if one does. -/
def producerOf (g : Region) (v : ValueId) : Option NodeId :=
  (g.values.get? v).bind fun info => info.definition.node?

/-- The value that a site reads. -/
def siteValue (g : Region) : Use → Option ValueId
  | .operand n i => (g.nodes.get? n).bind fun node => node.kind.operands[i]?
  | .output i => g.outputs[i]?

/-- A value stands where its definition says. -/
def Defines (g : Region) (v : ValueId) : Definition → Prop
  | .input i => g.inputs[i]? = some v
  | .result n i => ∃ node, g.nodes.get? n = some node ∧ node.results[i]? = some v

/-- A node agrees with its kernel, and with the values that it reads and defines. -/
structure Fits (g : Region) (n : NodeId) (node : Node) : Prop where
  kernel : ∀ kernel, node.kind.kernel? = some kernel → kernel.WellFormed
  operands : List.Forall₂ (fun v type => g.typeOf v = some type) node.kind.operands
    node.kind.paramTypes
  length_results : node.results.length = node.kind.resultTypes.length
  results : ∀ (i : Nat) (v : ValueId), node.results[i]? = some v →
    ∃ type, node.kind.resultTypes[i]? = some type ∧ g.values.get? v = some ⟨type, .result n i⟩

/-- The places where a region keeps the same facts agree. -/
structure Consistent (g : Region) : Prop where
  nodes : g.nodes.WellFormed
  values : g.values.WellFormed
  order_nodup : g.order.Nodup
  mem_order : ∀ n, n ∈ g.order ↔ ∃ node, g.nodes.get? n = some node
  length_order : g.order.length = g.nodes.size
  positions : ∀ n, g.positions.find? n = positionIn g.order n
  fits : ∀ n node, g.nodes.get? n = some node → g.Fits n node
  defines : ∀ v info, g.values.get? v = some info → g.Defines v info.definition
  inputs : ∀ (i : Nat) (v : ValueId), g.inputs[i]? = some v →
    ∃ type, g.values.get? v = some ⟨type, .input i⟩
  outputs : ∀ v ∈ g.outputs, ∃ info, g.values.get? v = some info
  uses_nodup : ∀ v, (g.usesOf v).Nodup
  mem_usesOf : ∀ v site, site ∈ g.usesOf v ↔ g.siteValue site = some v
  uses_bound : ∀ v, g.uses.find? v ≠ some []

/-! ## From one region to another -/

/-- A node that reads other values of the same types fits as well. -/
theorem Fits.rename {g' : Region} {f : ValueId → ValueId} (fits : g.Fits n node)
    (operands : ∀ v ∈ node.kind.operands, ∀ type, g.typeOf v = some type →
      g'.typeOf (f v) = some type)
    (results : ∀ v ∈ node.results, ∀ info, g.values.get? v = some info →
      g'.values.get? v = some info) : g'.Fits n (node.rename f) where
  kernel := by
    rw [Node.rename, NodeKind.kernel?_mapOperands]
    exact fits.kernel
  operands := by
    rw [Node.rename, NodeKind.operands_mapOperands, NodeKind.paramTypes_mapOperands,
      List.forall₂_map_left_iff]
    exact forall₂_imp_of_mem fits.operands operands
  length_results := by
    rw [Node.rename, NodeKind.resultTypes_mapOperands]
    exact fits.length_results
  results i v resultAt := by
    rcases fits.results i v resultAt with ⟨type, typeAt, infoAt⟩
    rw [Node.rename, NodeKind.resultTypes_mapOperands]
    exact ⟨type, typeAt, results v (List.mem_of_getElem? resultAt) _ infoAt⟩

/-- A node fits wherever its operands have the types and its results the definitions that they had. -/
theorem Fits.of_kept {g' : Region} (fits : g.Fits n node)
    (operands : ∀ v ∈ node.kind.operands, ∀ type, g.typeOf v = some type →
      g'.typeOf v = some type)
    (results : ∀ v ∈ node.results, ∀ info, g.values.get? v = some info →
      g'.values.get? v = some info) : g'.Fits n node := by
  rw [← node.rename_id]
  exact fits.rename operands results

/-- A value stands where it stood when its input or its node is there. -/
theorem Defines.of_kept {g' : Region} {definition : Definition} (defines : g.Defines v definition)
    (inputs : ∀ i : Nat, g.inputs[i]? = some v → g'.inputs[i]? = some v)
    (nodes : ∀ n node, g.nodes.get? n = some node → v ∈ node.results →
      ∃ node', g'.nodes.get? n = some node' ∧ node'.results = node.results) :
    g'.Defines v definition := by
  cases definition with
  | input i => exact inputs i defines
  | result n i =>
    rcases defines with ⟨node, found, resultAt⟩
    rcases nodes n node found (List.mem_of_getElem? resultAt) with ⟨node', found', same⟩
    exact ⟨node', found', same ▸ resultAt⟩

/-! ## Reading -/

/-- A node reads a result of another. -/
def Reads (g : Region) (n m : NodeId) : Prop :=
  ∃ node v, g.nodes.get? n = some node ∧ v ∈ node.kind.operands ∧ g.producerOf v = some m

/-- A result of a node is an output. -/
def Exports (g : Region) (m : NodeId) : Prop := ∃ v ∈ g.outputs, g.producerOf v = some m

/-- Every operand is produced before it is read. -/
def Ordered (g : Region) : Prop := ∀ n m, g.Reads n m → Precedes g.order m n

/-! ## Values and their nodes -/

/-- A value has a type if the region has it. -/
theorem typeOf_eq_some_iff {type : ElementType} :
    g.typeOf v = some type ↔ ∃ definition, g.values.get? v = some ⟨type, definition⟩ := by
  unfold typeOf
  constructor
  · intro found
    obtain ⟨info, infoAt, rfl⟩ := Option.map_eq_some_iff.mp found
    exact ⟨info.definition, infoAt⟩
  · rintro ⟨definition, infoAt⟩
    rw [infoAt, Option.map_some]

theorem typeOf_of_get? (found : g.values.get? v = some info) : g.typeOf v = some info.type := by
  rw [typeOf, found, Option.map_some]

theorem producerOf_of_get? (found : g.values.get? v = some info) :
    g.producerOf v = info.definition.node? := by
  rw [producerOf, found, Option.bind_some]

/-- The producer of a value is the node whose result it is. -/
theorem producerOf_eq_some_iff :
    g.producerOf v = some n ↔ ∃ type i, g.values.get? v = some ⟨type, .result n i⟩ := by
  unfold producerOf
  constructor
  · intro found
    obtain ⟨⟨type, definition⟩, infoAt, nodeEq⟩ := Option.bind_eq_some_iff.mp found
    cases definition with
    | input i => cases nodeEq
    | result n' i =>
      cases nodeEq
      exact ⟨type, i, infoAt⟩
  · rintro ⟨type, i, infoAt⟩
    rw [infoAt]
    rfl

theorem isSome_of_typeOf {type : ElementType} (found : g.typeOf v = some type) :
    ∃ info, g.values.get? v = some info := by
  obtain ⟨definition, infoAt⟩ := typeOf_eq_some_iff.mp found
  exact ⟨_, infoAt⟩

/-- The nodes that a node reads are the producers of its operands. -/
theorem reads_iff_operand (found : g.nodes.get? n = some node) :
    g.Reads n m ↔ ∃ v ∈ node.kind.operands, g.producerOf v = some m := by
  constructor
  · intro reads
    rcases reads with ⟨node', v, found', operand, produced⟩
    rw [found, Option.some.injEq] at found'
    exact ⟨v, found' ▸ operand, produced⟩
  · intro read
    rcases read with ⟨v, operand, produced⟩
    exact ⟨node, v, found, operand, produced⟩

namespace Consistent

variable (c : g.Consistent)

include c

theorem mem_order_of_get? (found : g.nodes.get? n = some node) : n ∈ g.order :=
  (c.mem_order n).mpr ⟨node, found⟩

/-- The positions agree with the program order. -/
theorem position_eq (member : n ∈ g.order) : g.position n = .ok (g.order.idxOf n) := by
  rw [position, c.positions, positionIn_of_mem member, orRefuse_some]

/-- Operands are values of the region. -/
theorem operand_live (found : g.nodes.get? n = some node) (member : v ∈ node.kind.operands) :
    ∃ info, g.values.get? v = some info := by
  obtain ⟨type, -, typed⟩ := exists_right_of_mem (c.fits n node found).operands member
  exact isSome_of_typeOf typed

/-- Nothing reads a value that is not there. -/
theorem not_operand_of_none (found : g.nodes.get? n = some node) (absent : g.values.get? v = none) :
    v ∉ node.kind.operands := by
  intro member
  rcases c.operand_live found member with ⟨info, infoAt⟩
  rw [absent] at infoAt
  cases infoAt

/-- Nothing reads a value that the region does not have. -/
theorem usesOf_of_none (absent : g.values.get? v = none) : g.usesOf v = [] := by
  refine List.eq_nil_iff_forall_not_mem.mpr fun site used => ?_
  have read := (c.mem_usesOf v site).mp used
  have live : ∃ info, g.values.get? v = some info := by
    cases site with
    | operand m i =>
      rcases Option.bind_eq_some_iff.mp read with ⟨node, found, operandAt⟩
      exact c.operand_live found (List.mem_of_getElem? operandAt)
    | output i => exact c.outputs v (List.mem_of_getElem? read)
  rcases live with ⟨info, infoAt⟩
  rw [absent] at infoAt
  cases infoAt

/-- A node that does not read a value has no part in its uses. -/
theorem filter_usesOf (found : g.nodes.get? n = some node) (unread : v ∉ node.kind.operands) :
    ((g.usesOf v).filter fun site => site.node? ≠ some n) = g.usesOf v := by
  refine List.filter_eq_self.mpr fun site used => decide_eq_true fun own => unread ?_
  have read := (c.mem_usesOf v site).mp used
  cases site with
  | output i => cases own
  | operand m i =>
    cases own
    rw [siteValue, found, Option.bind_some] at read
    exact List.mem_of_getElem? read

/-- A result is defined as such. -/
theorem get?_result (found : g.nodes.get? n = some node) {i : Nat}
    (resultAt : node.results[i]? = some v) :
    ∃ type, g.values.get? v = some ⟨type, .result n i⟩ := by
  obtain ⟨type, -, infoAt⟩ := (c.fits n node found).results i v resultAt
  exact ⟨type, infoAt⟩

theorem not_result_of_none (found : g.nodes.get? n = some node) (absent : g.values.get? v = none) :
    v ∉ node.results := by
  intro member
  rcases List.getElem?_of_mem member with ⟨i, resultAt⟩
  rcases c.get?_result found resultAt with ⟨type, infoAt⟩
  rw [absent] at infoAt
  cases infoAt

/-- An apply has as many results as its kernel returns. -/
theorem length_returns {operands results : List ValueId} {kernel : Kernel}
    (found : g.nodes.get? n = some ⟨.apply operands kernel, results⟩) :
    results.length = kernel.returns.length := by
  have fits := c.fits n _ found
  exact fits.length_results.trans (fits.kernel kernel rfl).length_resultTypes

/-- The results of a node are the values that it produces. -/
theorem mem_results_iff (found : g.nodes.get? n = some node) :
    v ∈ node.results ↔ g.producerOf v = some n := by
  constructor
  · intro member
    obtain ⟨i, resultAt⟩ := List.getElem?_of_mem member
    obtain ⟨type, infoAt⟩ := c.get?_result found resultAt
    exact producerOf_eq_some_iff.mpr ⟨type, i, infoAt⟩
  · intro produced
    obtain ⟨type, i, infoAt⟩ := producerOf_eq_some_iff.mp produced
    obtain ⟨node', found', resultAt⟩ := c.defines v _ infoAt
    rw [found, Option.some.injEq] at found'
    rw [found']
    exact List.mem_of_getElem? resultAt

/-- A result is produced by its node. -/
theorem producerOf_result (found : g.nodes.get? n = some node) (member : v ∈ node.results) :
    g.producerOf v = some n :=
  (c.mem_results_iff found).mp member

/-- Different nodes have different results. -/
theorem not_mem_results {node' : Node} (found : g.nodes.get? n = some node)
    (found' : g.nodes.get? m = some node') (ne : n ≠ m) (member : v ∈ node.results) :
    v ∉ node'.results := by
  intro member'
  have produced := c.producerOf_result found member
  rw [c.producerOf_result found' member', Option.some.injEq] at produced
  exact ne produced.symm

/-- A result has the type that its kernel returns at its place. -/
theorem typeOf_result (found : g.nodes.get? n = some node) {i : Nat}
    (resultAt : node.results[i]? = some v) : g.typeOf v = node.kind.resultTypes[i]? := by
  obtain ⟨type, typeAt, infoAt⟩ := (c.fits n node found).results i v resultAt
  rw [typeAt, typeOf_of_get? infoAt]

/-- What is produced is a result of a node that the region has. -/
theorem producer_live (produced : g.producerOf v = some n) :
    ∃ node, g.nodes.get? n = some node ∧ v ∈ node.results := by
  obtain ⟨type, i, infoAt⟩ := producerOf_eq_some_iff.mp produced
  obtain ⟨node, found, resultAt⟩ := c.defines v _ infoAt
  exact ⟨node, found, List.mem_of_getElem? resultAt⟩

/-- Results are told apart by their definitions. -/
theorem results_nodup (found : g.nodes.get? n = some node) : node.results.Nodup := by
  refine List.nodup_iff_injective_getElem.mpr fun ⟨i, lt⟩ ⟨j, lt'⟩ same => ?_
  obtain ⟨type, infoAt⟩ := c.get?_result found (List.getElem?_eq_getElem lt)
  obtain ⟨type', infoAt'⟩ := c.get?_result found (List.getElem?_eq_getElem lt')
  rw [show node.results[i] = node.results[j] from same, infoAt', Option.some.injEq,
    ValueInfo.mk.injEq, Definition.result.injEq] at infoAt
  exact Fin.ext infoAt.2.2.symm

/-- A node is read at some operand exactly when one of its results has an operand site. -/
theorem reads_iff (found : g.nodes.get? m = some node) :
    g.Reads n m ↔ ∃ v ∈ node.results, ∃ i, Use.operand n i ∈ g.usesOf v := by
  constructor
  · rintro ⟨reader, v, readerAt, member, produced⟩
    obtain ⟨i, operandAt⟩ := List.getElem?_of_mem member
    refine ⟨v, (c.mem_results_iff found).mpr produced, i, (c.mem_usesOf v _).mpr ?_⟩
    rw [siteValue, readerAt, Option.bind_some, operandAt]
  · rintro ⟨v, member, i, used⟩
    obtain ⟨reader, readerAt, operandAt⟩ :=
      Option.bind_eq_some_iff.mp ((c.mem_usesOf v _).mp used)
    exact ⟨reader, v, readerAt, List.mem_of_getElem? operandAt,
      (c.mem_results_iff found).mp member⟩

/-- A node exports if an output reads one of its results. -/
theorem exports_iff (found : g.nodes.get? m = some node) :
    g.Exports m ↔ ∃ v ∈ node.results, ∃ i, Use.output i ∈ g.usesOf v := by
  constructor
  · rintro ⟨v, member, produced⟩
    obtain ⟨i, outputAt⟩ := List.getElem?_of_mem member
    exact ⟨v, (c.mem_results_iff found).mpr produced, i, (c.mem_usesOf v _).mpr outputAt⟩
  · rintro ⟨v, member, i, used⟩
    exact ⟨v, List.mem_of_getElem? ((c.mem_usesOf v _).mp used),
      (c.mem_results_iff found).mp member⟩

/-- Reading is between nodes of the region. -/
theorem reads_live (reads : g.Reads n m) : n ∈ g.order ∧ m ∈ g.order := by
  obtain ⟨node, v, found, -, produced⟩ := reads
  obtain ⟨node', found', -⟩ := c.producer_live produced
  exact ⟨c.mem_order_of_get? found, c.mem_order_of_get? found'⟩

end Consistent

end Region

end KernelFusion
