import KernelFusion.Proofs.Arena.Listing
import KernelFusion.Proofs.Region.Built

/-!
# What the check decides

`Region.WellFormed` says of a region as a whole what the check goes through piece by piece. The check passes in
the well-formed regions and in no others, whatever the region holds: `verify_iff_wellFormed`. That no node is
listed twice, that producers are live and that no use is missing or left over is not looked at by any single
step; it follows from the lengths that are compared, from the positions, and from the sites of all nodes.

The check of a consistent region can fail in one way only, at an operand that is produced too late. So it
decides whether the region is ordered: `Consistent.verify_eq_ok_iff`.
-/

namespace KernelFusion.Region

variable {g : Region} {n : NodeId} {v : ValueId} {node : Node} {place index : Nat}

/-! ## Sites -/

theorem mem_operandSites {operands : List ValueId} {site : Use} :
    (v, site) ∈ operandSites n index operands ↔
      ∃ i, site = .operand n (index + i) ∧ operands[i]? = some v := by
  rw [← mem_ownSites, ownSites, List.mem_filterMap]
  constructor
  · intro member
    exact ⟨(v, site), member, if_pos rfl⟩
  · rintro ⟨⟨v', site'⟩, member, picked⟩
    split at picked
    case isTrue same =>
      cases picked
      rwa [← show v' = v from same]
    case isFalse => cases picked

theorem mem_outputSites {outputs : List ValueId} {site : Use} :
    (v, site) ∈ outputSites index outputs ↔
      ∃ i, site = .output (index + i) ∧ outputs[i]? = some v := by
  induction outputs generalizing index with
  | nil => simp [outputSites]
  | cons output rest ih =>
    rw [outputSites, List.mem_cons, ih, Prod.mk.injEq]
    constructor
    · rintro (⟨rfl, rfl⟩ | ⟨i, rfl, found⟩)
      · exact ⟨0, rfl, rfl⟩
      · exact ⟨i + 1, by rw [Nat.add_right_comm]; rfl, found⟩
    · rintro ⟨i, rfl, found⟩
      cases i with
      | zero =>
        cases found
        exact .inl ⟨rfl, rfl⟩
      | succ i => exact .inr ⟨i, by rw [Nat.add_right_comm]; rfl, found⟩

theorem nodup_outputSites {outputs : List ValueId} :
    ((outputSites index outputs).map Prod.snd).Nodup := by
  induction outputs generalizing index with
  | nil => exact List.nodup_nil
  | cons output rest ih =>
    rw [outputSites, List.map_cons, List.nodup_cons]
    refine ⟨fun member => ?_, ih⟩
    obtain ⟨⟨v, site⟩, member, same⟩ := List.mem_map.mp member
    obtain ⟨i, rfl, -⟩ := mem_outputSites.mp member
    have := Use.output.inj same
    omega

theorem nodup_operandSites {operands : List ValueId} :
    ((operandSites n index operands).map Prod.snd).Nodup := by
  induction operands generalizing index with
  | nil => exact List.nodup_nil
  | cons operand rest ih =>
    rw [operandSites, List.map_cons, List.nodup_cons]
    refine ⟨fun member => ?_, ih⟩
    obtain ⟨⟨v, site⟩, member, same⟩ := List.mem_map.mp member
    obtain ⟨i, rfl, -⟩ := mem_operandSites.mp member
    have := (Use.operand.inj same).2
    omega

theorem mem_nodeSites {site : Use} :
    (v, site) ∈ g.nodeSites n ↔ ∃ i, site = .operand n i ∧ g.siteValue site = some v := by
  unfold nodeSites
  cases found : g.nodes.get? n with
  | none =>
    simp only [List.not_mem_nil, false_iff, not_exists, not_and]
    rintro i rfl read
    rw [siteValue, found] at read
    cases read
  | some node =>
    dsimp only
    rw [mem_operandSites]
    refine exists_congr fun i => ?_
    rw [Nat.zero_add]
    refine and_congr_right fun same => ?_
    rw [same, siteValue, found, Option.bind_some]

/-! ## All sites -/

/-- The sites that the check finds are all sites of the region. -/
theorem mem_allSites (listed : ∀ n node, g.nodes.get? n = some node → n ∈ g.order) {site : Use} :
    (v, site) ∈ g.allSites ↔ g.siteValue site = some v := by
  rw [allSites, List.mem_append, List.mem_flatMap, mem_outputSites]
  constructor
  · rintro (⟨n, -, member⟩ | ⟨i, rfl, found⟩)
    · obtain ⟨i, -, read⟩ := mem_nodeSites.mp member
      exact read
    · rwa [Nat.zero_add]
  · intro read
    cases site with
    | operand n i =>
      obtain ⟨node, found, -⟩ := Option.bind_eq_some_iff.mp read
      exact .inl ⟨n, listed n node found, mem_nodeSites.mpr ⟨i, rfl, read⟩⟩
    | output i => exact .inr ⟨i, by rw [Nat.zero_add], read⟩

/-- Each site is found once, since no node is listed twice. -/
theorem nodup_allSites (nodup : g.order.Nodup) : (g.allSites.map Prod.snd).Nodup := by
  rw [allSites, List.map_append, List.nodup_append', List.map_flatMap, List.nodup_flatMap]
  refine ⟨⟨fun n _ => ?_, ?_⟩, nodup_outputSites, ?_⟩
  · unfold nodeSites
    split
    · exact nodup_operandSites
    · exact List.nodup_nil
  · refine nodup.imp fun ne site first second => ?_
    obtain ⟨⟨v, site'⟩, member, rfl⟩ := List.mem_map.mp first
    obtain ⟨⟨v', site''⟩, member', same⟩ := List.mem_map.mp second
    obtain ⟨i, rfl, -⟩ := mem_nodeSites.mp member
    obtain ⟨i', rfl, -⟩ := mem_nodeSites.mp member'
    exact ne (Use.operand.inj same).1.symm
  · intro site operand output
    obtain ⟨n, -, ofNode⟩ := List.mem_flatMap.mp operand
    obtain ⟨⟨v, site'⟩, member, rfl⟩ := List.mem_map.mp ofNode
    obtain ⟨⟨v', site''⟩, member', same⟩ := List.mem_map.mp output
    obtain ⟨i, rfl, -⟩ := mem_nodeSites.mp member
    obtain ⟨i', rfl, -⟩ := mem_outputSites.mp member'
    cases same

theorem picked_iff {pair : ValueId × Use} {site : Use} :
    (if pair.1 = v then some pair.2 else none) = some site ↔ pair = (v, site) := by
  rcases pair with ⟨v', site'⟩
  simp

/-- The sites of a value among all sites. -/
theorem mem_sitesReading {site : Use} : site ∈ g.sitesReading v ↔ (v, site) ∈ g.allSites := by
  simp only [sitesReading, List.mem_filterMap, picked_iff, exists_eq_right]

/-- No site reads a value twice. -/
theorem nodup_sitesReading (nodup : g.order.Nodup) : (g.sitesReading v).Nodup := by
  refine List.Nodup.filterMap ?_ (List.Nodup.of_map _ (nodup_allSites nodup))
  intro pair pair' site first second
  rw [picked_iff.mp first, picked_iff.mp second]

/-- A list holds the sites that read a value, each once. -/
theorem perm_sitesReading_iff (nodup : g.order.Nodup)
    (listed : ∀ n node, g.nodes.get? n = some node → n ∈ g.order) {sites : List Use} :
    sites.Perm (g.sitesReading v) ↔
      sites.Nodup ∧ ∀ site, site ∈ sites ↔ g.siteValue site = some v := by
  have reading (site : Use) : site ∈ g.sitesReading v ↔ g.siteValue site = some v :=
    mem_sitesReading.trans (mem_allSites listed)
  constructor
  · intro perm
    exact ⟨perm.nodup_iff.mpr (nodup_sitesReading nodup), fun site => perm.mem_iff.trans (reading site)⟩
  · rintro ⟨once, mem⟩
    exact (List.perm_ext_iff_of_nodup once (nodup_sitesReading nodup)).mpr fun site =>
      (mem site).trans (reading site).symm

/-! ## The parts of the check -/

/-- A node agrees with its kernel in operands and results, and its results are defined by it. -/
structure Agrees (g : Region) (n : NodeId) (node : Node) : Prop where
  results : ∀ (i : Nat) (v : ValueId), node.results[i]? = some v →
    ∃ type, g.values.get? v = some ⟨type, .result n i⟩
  load : node.kind.tag = .load → node.results.length = 1
  operands : List.Forall₂ (fun v type => g.typeOf v = some type) node.kind.operands
    node.kind.paramTypes
  returned : ∀ kernel, node.kind.kernel? = some kernel →
    List.Forall₂ (fun v type => g.typeOf v = some type) node.results kernel.resultTypes

/-- Every operand is an input or is produced by a node with a position before `place`. -/
def ProducedBefore (g : Region) (place : Nat) (operands : List ValueId) : Prop :=
  ∀ v ∈ operands, ∀ m, g.producerOf v = some m → ∃ i, g.positions.find? m = some i ∧ i < place

theorem definition_eq_ok_iff {definition : Definition} :
    g.definition v = .ok definition ↔ ∃ type, g.values.get? v = some ⟨type, definition⟩ := by
  simp only [Region.definition, bind_eq_ok_iff, value_eq_ok_iff, pure_eq_ok, Except.ok.injEq]
  constructor
  · rintro ⟨info, infoAt, rfl⟩
    exact ⟨info.type, infoAt⟩
  · rintro ⟨type, infoAt⟩
    exact ⟨_, infoAt, rfl⟩

/-- The results pass if each is defined as the result of the node at its place. -/
theorem checkResults_eq_ok_iff {values : List ValueId} :
    g.checkResults n index values = .ok () ↔ ∀ (i : Nat) (v : ValueId), values[i]? = some v →
      ∃ type, g.values.get? v = some ⟨type, .result n (index + i)⟩ := by
  induction values generalizing index with
  | nil => simp [checkResults]
  | cons value rest ih =>
    rw [checkResults, bind_eq_ok_iff]
    simp only [test_bind_eq_ok_iff, ih]
    constructor
    · rintro ⟨definition, defined, rfl, later⟩ i v resultAt
      cases i with
      | zero =>
        cases resultAt
        exact definition_eq_ok_iff.mp defined
      | succ i =>
        rw [← Nat.succ_add_eq_add_succ]
        exact later i v resultAt
    · intro defined
      refine ⟨_, definition_eq_ok_iff.mpr (defined 0 value rfl), rfl, fun i v resultAt => ?_⟩
      rw [Nat.succ_add_eq_add_succ]
      exact defined (i + 1) v resultAt

/-- The results pass if they have the types that the kernel returns. -/
theorem checkReturned_eq_ok_iff {values : List ValueId} {types : List ElementType}
    (length : values.length = types.length) :
    g.checkReturned n index values types = .ok () ↔
      List.Forall₂ (fun v type => g.typeOf v = some type) values types := by
  induction values generalizing types index with
  | nil =>
    cases types with
    | nil => simp [checkReturned]
    | cons => cases length
  | cons value rest ih =>
    cases types with
    | nil => cases length
    | cons type types =>
      rw [checkReturned, bind_eq_ok_iff, List.forall₂_cons, ← ih (Nat.succ.inj length)]
      simp only [test_bind_eq_ok_iff, valueType_eq_ok_iff]
      constructor
      · rintro ⟨_, typed, rfl, rest⟩
        exact ⟨typed, rest⟩
      · rintro ⟨typed, rest⟩
        exact ⟨_, typed, rfl, rest⟩

/-- An operand passes if it has the type of its parameter and its producer has a lower position. -/
theorem checkRead_eq_ok_iff {type : ElementType} :
    g.checkRead place n index v type = .ok () ↔
      g.typeOf v = some type ∧
        ∀ m, g.producerOf v = some m → ∃ i, g.positions.find? m = some i ∧ i < place := by
  rw [checkRead, bind_eq_ok_iff]
  simp only [test_bind_eq_ok_iff, valueType_eq_ok_iff]
  constructor
  · rintro ⟨_, typed, rfl, rest⟩
    refine ⟨typed, fun m produced => ?_⟩
    rcases isSome_of_typeOf typed with ⟨info, infoAt⟩
    rw [producer_of_get? infoAt, produced, ok_bind] at rest
    simpa only [bind_eq_ok_iff, test_eq_ok_iff, position, orRefuse_eq_ok_iff] using rest
  · rintro ⟨typed, early⟩
    refine ⟨type, typed, rfl, ?_⟩
    rcases isSome_of_typeOf typed with ⟨info, infoAt⟩
    rw [producer_of_get? infoAt, ok_bind]
    cases produced : g.producerOf v with
    | none => rfl
    | some m =>
      simpa only [bind_eq_ok_iff, test_eq_ok_iff, position, orRefuse_eq_ok_iff] using
        early m produced

/-- Operands pass if each does. -/
theorem checkReads_eq_ok_iff {operands : List ValueId} {params : List ElementType}
    (length : operands.length = params.length) :
    g.checkReads place n index operands params = .ok () ↔
      List.Forall₂ (fun v type => g.typeOf v = some type) operands params ∧
        g.ProducedBefore place operands := by
  unfold ProducedBefore
  induction operands generalizing params index with
  | nil =>
    cases params with
    | nil => simp [checkReads]
    | cons => cases length
  | cons operand rest ih =>
    cases params with
    | nil => cases length
    | cons param params =>
      rw [checkReads, check_bind_eq_ok_iff, checkRead_eq_ok_iff, ih (Nat.succ.inj length),
        List.forall₂_cons, List.forall_mem_cons, and_and_and_comm]

/-- A node passes if it stands where the positions say, agrees with its tables and reads only what is produced before.
-/
theorem checkNode_eq_ok_iff :
    g.checkNode place n = .ok () ↔ ∃ node, g.nodes.get? n = some node ∧
      g.positions.find? n = some place ∧ g.Agrees n node ∧
        g.ProducedBefore place node.kind.operands := by
  rw [checkNode, bind_eq_ok_iff]
  refine exists_congr fun node => ?_
  rw [node_eq_ok_iff]
  refine and_congr_right fun _ => ?_
  rw [test_bind_eq_ok_iff]
  refine and_congr_right fun _ => ?_
  rw [check_bind_eq_ok_iff, checkResults_eq_ok_iff]
  simp only [Nat.zero_add]
  rcases node with ⟨⟨field, type⟩ | ⟨operands, kernel⟩, values⟩
  case load =>
    rw [test_eq_ok_iff]
    constructor
    · rintro ⟨results, length⟩
      exact ⟨⟨results, fun _ => length, .nil, nofun⟩, nofun⟩
    · intro read
      exact ⟨read.1.results, read.1.load rfl⟩
  case apply =>
    dsimp only
    rw [test_bind_eq_ok_iff, check_bind_eq_ok_iff, test_bind_eq_ok_iff]
    constructor
    · rintro ⟨results, length, reads, length', returned⟩
      rcases (checkReads_eq_ok_iff length).mp reads with ⟨typed, early⟩
      have returned := (checkReturned_eq_ok_iff length'.symm).mp returned
      refine ⟨⟨results, nofun, typed, fun kernel' isApply => ?_⟩, early⟩
      rwa [← Option.some.inj isApply]
    · rintro ⟨agrees, early⟩
      have typed := agrees.operands
      have returned := agrees.returned kernel rfl
      exact ⟨agrees.results, typed.length_eq,
        (checkReads_eq_ok_iff typed.length_eq).mpr ⟨typed, early⟩, returned.length_eq.symm,
        (checkReturned_eq_ok_iff returned.length_eq).mpr returned⟩

theorem checkNodes_eq_ok_iff {ns : List NodeId} :
    g.checkNodes place ns = .ok () ↔
      ∀ (i : Nat) (n : NodeId), ns[i]? = some n → g.checkNode (place + i) n = .ok () := by
  induction ns generalizing place with
  | nil => simp [checkNodes]
  | cons n rest ih =>
    rw [checkNodes, check_bind_eq_ok_iff, ih]
    constructor
    · rintro ⟨first, later⟩ i m found
      cases i with
      | zero =>
        cases found
        exact first
      | succ i =>
        rw [← Nat.succ_add_eq_add_succ]
        exact later i m found
    · intro each
      refine ⟨each 0 n rfl, fun i m found => ?_⟩
      rw [Nat.succ_add_eq_add_succ]
      exact each (i + 1) m found

/-- A use list passes if it is a rearrangement of the sites that read the value. -/
theorem checkUses_eq_ok_iff : g.checkUses v = .ok () ↔ (g.usesOf v).Perm (g.sitesReading v) := by
  rw [checkUses, test_eq_ok_iff, List.isPerm_iff]

/-- A value without an entry in the use index that nothing reads has nothing to check. -/
theorem checkUses_of_unread (unbound : v ∉ g.uses.keys) (unread : v ∉ g.allSites.map Prod.fst) :
    g.checkUses v = .ok () := by
  have unused : g.usesOf v = [] := by
    rw [Table.mem_keys_iff, ← Option.ne_none_iff_exists', not_not] at unbound
    rw [usesOf, UseIndex.sites, unbound]
    rfl
  have noSite : g.sitesReading v = [] := by
    rw [List.eq_nil_iff_forall_not_mem]
    intro site member
    exact unread (List.mem_map.mpr ⟨_, mem_sitesReading.mp member, rfl⟩)
  rw [checkUses_eq_ok_iff, unused, noSite]

theorem checkOutputs_eq_ok_iff :
    (g.outputs.forM fun output => do let _ ← g.value output) = .ok () ↔
      ∀ v ∈ g.outputs, ∃ info, g.values.get? v = some info := by
  simp only [forM_eq_ok_iff, bind_eq_ok_iff, value_eq_ok_iff, pure_eq_ok, and_true]

/-- A region passes if its counts agree and all its parts pass; values that nothing reads pass by themselves. -/
theorem verify_eq_ok_iff : g.verify = .ok () ↔
    (g.order.length = g.nodes.size ∧ g.positions.size = g.nodes.size) ∧
      (∀ (i : Nat) (n : NodeId), g.order[i]? = some n → g.checkNode i n = .ok ()) ∧
      (∀ v ∈ g.outputs, ∃ info, g.values.get? v = some info) ∧
      ∀ v, (g.usesOf v).Perm (g.sitesReading v) := by
  have uses : g.uses.keys.forM g.checkUses = .ok () ∧
      (g.allSites.map Prod.fst).forM g.checkUses = .ok () ↔
        ∀ v, (g.usesOf v).Perm (g.sitesReading v) := by
    simp only [forM_eq_ok_iff, ← checkUses_eq_ok_iff]
    constructor
    · rintro ⟨stored, read⟩ v
      by_cases unbound : v ∉ g.uses.keys
      · by_cases unread : v ∉ g.allSites.map Prod.fst
        · exact checkUses_of_unread unbound unread
        · exact read v (not_not.mp unread)
      · exact stored v (not_not.mp unbound)
    · intro each
      exact ⟨fun v _ => each v, fun v _ => each v⟩
  rw [verify, test_bind_eq_ok_iff]
  simp only [check_bind_eq_ok_iff, checkNodes_eq_ok_iff, Nat.zero_add,
    checkOutputs_eq_ok_iff, uses]

/-! ## Well-formed regions -/

/-- What the check of a region is to decide, said of the region as a whole. -/
structure WellFormed (g : Region) : Prop where
  /-- The program order lists the nodes, each once. -/
  order : g.order.Perm (g.nodes.toList.map Prod.fst)
  /-- The positions are those of the nodes in the program order, and of nothing else. -/
  positions : ∀ n i, g.positions.find? n = some i ↔ g.order[i]? = some n
  agrees : ∀ n node, g.nodes.get? n = some node → g.Agrees n node
  ordered : g.Ordered
  outputs : ∀ v ∈ g.outputs, ∃ info, g.values.get? v = some info
  /-- The use list of a value holds the sites that read it, each once and in any order. -/
  uses_nodup : ∀ v, (g.usesOf v).Nodup
  mem_usesOf : ∀ v site, site ∈ g.usesOf v ↔ g.siteValue site = some v

/-- Positions that invert the order have as many nodes. -/
theorem size_positions (nodup : g.order.Nodup)
    (positions : ∀ n i, g.positions.find? n = some i ↔ g.order[i]? = some n) :
    g.positions.size = g.order.length := by
  have keys (n : NodeId) : n ∈ g.positions.keys ↔ n ∈ g.order := by
    rw [Table.mem_keys_iff, List.mem_iff_getElem?]
    exact exists_congr fun i => positions n i
  have perm := (List.perm_ext_iff_of_nodup g.positions.distinct nodup).mpr keys
  rw [← perm.length_eq, List.length_map, Table.size]

/-- The nodes stand in the order each once, and the positions have no other nodes. -/
theorem positions_of_placed (placed : ∀ (i : Nat) n, g.order[i]? = some n → g.positions.find? n = some i)
    (counted : g.positions.size = g.order.length) :
    g.order.Nodup ∧ ∀ n i, g.positions.find? n = some i ↔ g.order[i]? = some n := by
  have nodup : g.order.Nodup := by
    refine List.nodup_iff_injective_getElem.mpr fun ⟨i, lt⟩ ⟨j, lt'⟩ same => ?_
    have first := placed i _ (List.getElem?_eq_getElem lt)
    rw [show g.order[i] = g.order[j] from same, placed j _ (List.getElem?_eq_getElem lt')] at first
    exact Fin.ext (Option.some.inj first).symm
  have known : g.order ⊆ g.positions.keys := by
    intro n member
    rcases List.getElem?_of_mem member with ⟨i, found⟩
    exact Table.mem_keys_iff.mpr ⟨i, placed i n found⟩
  have perm : g.order.Perm g.positions.keys := by
    refine (List.subperm_of_subset nodup known).perm_of_length_le (Nat.le_of_eq ?_)
    rw [← counted, Table.keys, List.length_map, Table.size]
  refine ⟨nodup, fun n i => ⟨fun position => ?_, placed i n⟩⟩
  rcases List.getElem?_of_mem (perm.mem_iff.mpr (Table.mem_keys_iff.mpr ⟨i, position⟩)) with
    ⟨j, found⟩
  rw [placed j n found, Option.some.injEq] at position
  rwa [← position]

/-- The counts are enough to show that no live node is missing from the order: it lists live nodes only, each once. -/
theorem wellFormed_of_verify (counted : g.nodes.Counted)
    (verified : g.verify = .ok ()) : g.WellFormed := by
  rcases verify_eq_ok_iff.mp verified with ⟨⟨ordered, positioned⟩, checked, outputs, uses⟩
  simp only [checkNode_eq_ok_iff] at checked
  have placed (i : Nat) (n : NodeId) (found : g.order[i]? = some n) :
      g.positions.find? n = some i := by
    rcases checked i n found with ⟨-, -, position, -⟩
    exact position
  rcases positions_of_placed placed (positioned.trans ordered.symm) with ⟨nodup, positions⟩
  have order : g.order.Perm (g.nodes.toList.map Prod.fst) := by
    refine (List.subperm_of_subset nodup fun n member => ?_).perm_of_length_le (Nat.le_of_eq ?_)
    · rcases List.getElem?_of_mem member with ⟨i, found⟩
      rcases checked i n found with ⟨node, live, -⟩
      exact Arena.mem_handles_iff.mpr ⟨node, live⟩
    · rw [List.length_map, ordered]
      exact counted.symm
  have listed (n : NodeId) (node : Node) (live : g.nodes.get? n = some node) : n ∈ g.order :=
    order.mem_iff.mpr (Arena.mem_handles_iff.mpr ⟨node, live⟩)
  have nodes (n : NodeId) (node : Node) (live : g.nodes.get? n = some node) :
      g.Agrees n node ∧ g.ProducedBefore (g.order.idxOf n) node.kind.operands := by
    have here := List.getElem?_idxOf (listed n node live)
    rcases checked _ n here with ⟨node', live', -, agrees, early⟩
    rw [live, Option.some.injEq] at live'
    exact live' ▸ ⟨agrees, early⟩
  constructor
  case order => exact order
  case positions => exact positions
  case agrees => exact fun n node live => (nodes n node live).1
  case ordered =>
    rintro n m ⟨node, v, live, member, produced⟩
    rcases (nodes n node live).2 v member m produced with ⟨i, position, lt⟩
    have there := (getElem?_eq_some_iff_of_nodup nodup).mp ((positions m i).mp position)
    exact ⟨listed n node live, there.2 ▸ lt⟩
  case outputs => exact outputs
  case uses_nodup => exact fun v => ((perm_sitesReading_iff nodup listed).mp (uses v)).1
  case mem_usesOf => exact fun v => ((perm_sitesReading_iff nodup listed).mp (uses v)).2

namespace WellFormed

variable (wf : g.WellFormed)

include wf

theorem order_nodup : g.order.Nodup := wf.order.nodup_iff.mpr Arena.nodup_handles

theorem mem_order_iff : n ∈ g.order ↔ ∃ node, g.nodes.get? n = some node :=
  wf.order.mem_iff.trans Arena.mem_handles_iff

/-- A well-formed region passes, part by part. -/
theorem verify (counted : g.nodes.Counted) : g.verify = .ok () := by
  have ordered : g.order.length = g.nodes.size := by
    rw [wf.order.length_eq, List.length_map]
    exact counted.symm
  have positioned := size_positions wf.order_nodup wf.positions
  refine verify_eq_ok_iff.mpr ⟨⟨ordered, positioned.trans ordered⟩, ?_, wf.outputs, ?_⟩
  · intro i n found
    rcases (getElem?_eq_some_iff_of_nodup wf.order_nodup).mp found with ⟨member, rfl⟩
    rcases wf.mem_order_iff.mp member with ⟨node, live⟩
    refine checkNode_eq_ok_iff.mpr ⟨node, live, (wf.positions n _).mpr found, wf.agrees n node live, ?_⟩
    intro v operand m produced
    rcases wf.ordered n m ⟨node, v, live, operand, produced⟩ with before
    exact ⟨_, (wf.positions m _).mpr (List.getElem?_idxOf before.mem_left), before.2⟩
  · intro v
    exact (perm_sitesReading_iff wf.order_nodup fun n node live => wf.mem_order_iff.mpr ⟨node, live⟩).mpr
      ⟨wf.uses_nodup v, wf.mem_usesOf v⟩

end WellFormed

/-! ## Consistent regions -/

namespace Consistent

variable (c : g.Consistent)

include c

theorem perm_order : g.order.Perm (g.nodes.toList.map Prod.fst) :=
  Arena.perm_handles c.order_nodup c.mem_order

theorem counted : g.nodes.Counted := by
  rw [Arena.Counted, ← c.length_order, c.perm_order.length_eq, List.length_map]

/-- Nodes agree with the tables of values. -/
theorem agrees (found : g.nodes.get? n = some node) : g.Agrees n node := by
  have fits := c.fits n node found
  have typed : List.Forall₂ (fun v type => g.typeOf v = some type) node.results
      node.kind.resultTypes := by
    refine forall₂_of_getElem? fits.length_results fun i v type resultAt typeAt => ?_
    rw [c.typeOf_result found resultAt, typeAt]
  rcases node with ⟨⟨field, type⟩ | ⟨operands, kernel⟩, values⟩
  case load =>
    exact ⟨fun _ _ => c.get?_result found, fun _ => typed.length_eq, fits.operands,
      nofun⟩
  case apply =>
    refine ⟨fun _ _ => c.get?_result found, nofun, fits.operands,
      fun kernel' isApply => ?_⟩
    rwa [← Option.some.inj isApply]

/-- The positions are the program order, turned round. -/
theorem find?_positions_iff {i : Nat} :
    g.positions.find? n = some i ↔ g.order[i]? = some n := by
  rw [c.positions, positionIn_eq_some_iff, getElem?_eq_some_iff_of_nodup c.order_nodup]

theorem perm_usesOf (v : ValueId) : (g.usesOf v).Perm (g.sitesReading v) :=
  (perm_sitesReading_iff c.order_nodup fun _ _ => c.mem_order_of_get?).mpr
    ⟨c.uses_nodup v, c.mem_usesOf v⟩

/-- Only the order of production can be wrong with a consistent region. -/
theorem wellFormed (ordered : g.Ordered) : g.WellFormed where
  order := c.perm_order
  positions _ _ := c.find?_positions_iff
  agrees _ _ := c.agrees
  ordered := ordered
  outputs := c.outputs
  uses_nodup := c.uses_nodup
  mem_usesOf := c.mem_usesOf

/-- The check passes exactly when every operand is produced before it is read. -/
theorem verify_eq_ok_iff : g.verify = .ok () ↔ g.Ordered := by
  constructor
  · intro verified
    exact (wellFormed_of_verify c.counted verified).ordered
  · intro ordered
    exact (c.wellFormed ordered).verify c.counted

end Consistent

/-! ## What the check decides -/

/-- The check passes exactly in the well-formed regions, whatever a region holds and however it came about, as long as
its arena has counted the nodes right. -/
theorem verify_iff_wellFormed (g : Region) (counted : g.nodes.Counted) :
    g.verify = .ok () ↔ g.WellFormed := by
  constructor
  · intro verified
    exact wellFormed_of_verify counted verified
  · intro wf
    exact wf.verify counted

/-- The region with a shared load is well formed, and it is not with its order reversed. -/
theorem verify_iff_wellFormed_sharedField :
    sharedField.nodes.Counted ∧ sharedField.WellFormed ∧
      ¬ Region.WellFormed { sharedField with order := sharedField.order.reverse } := by
  have counted : sharedField.nodes.Counted := rfl
  refine ⟨counted, (verify_iff_wellFormed sharedField counted).mp verify_sharedField, ?_⟩
  rw [← verify_iff_wellFormed { sharedField with order := sharedField.order.reverse } counted]
  decide

end KernelFusion.Region
