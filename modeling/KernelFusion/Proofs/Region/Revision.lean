import KernelFusion.Proofs.Region.Replacement

/-!
# Revisions

A rewrite brings in some nodes, takes others away, and has the remaining ones read what they read up to a
renaming of values. `Revision` says so without the order of the single edits: an insertion and a replacement
are revisions, and revisions compose (`Revision.trans`).

When the values that remain visible are renamed to results of the nodes that take over for their producers,
the remaining nodes read the nodes that took over (`Revision.reads_iff`).
-/

namespace KernelFusion.Region

variable {g g' g'' : Region} {n m : NodeId} {v : ValueId} {node : Node} {place : Nat}
  {kind : NodeKind} {results values : List ValueId} {gone made gone' made' : List NodeId}
  {f f' : ValueId → ValueId}

/-- Some nodes went and others came in. The remaining nodes read what they read up to a renaming of values;
it leaves alone the values that do not come from a node that went. -/
structure Revision (g g' : Region) (gone made : List NodeId) (f : ValueId → ValueId) : Prop where
  kept : ∀ n node, g.nodes.get? n = some node → n ∉ gone →
    g'.nodes.get? n = some (node.rename f)
  back : ∀ n node', g'.nodes.get? n = some node' →
    n ∈ made ∨ n ∉ gone ∧ ∃ node, g.nodes.get? n = some node
  fresh : ∀ n ∈ made, g.nodes.get? n = none
  value : ∀ v info, g.values.get? v = some info →
    (∀ n ∈ gone, info.definition.node? ≠ some n) → g'.values.get? v = some info ∧ f v = v
  inputs : g'.inputs = g.inputs
  outputs : g'.outputs = g.outputs.map f
  outputTypes : ∀ v ∈ g.outputs, g'.typeOf (f v) = g.typeOf v
  precedes : ∀ a b, a ∉ gone → b ∉ gone → a ∉ made → b ∉ made →
    (Precedes g'.order a b ↔ Precedes g.order a b)

/-! ## Single edits -/

/-- An insertion makes one node and renames nothing. -/
theorem Inserted.revision (ins : Inserted g g' n place kind results) (c : g.Consistent)
    (le : place ≤ g.order.length) : Revision g g' [] [n] id where
  kept m node found _ := by
    rw [ins.node_of_get? found, Node.rename_id]
  back m node' found := by
    rw [ins.node] at found
    split at found
    case isTrue same => exact .inl (List.mem_singleton.mpr same)
    case isFalse => exact .inr ⟨List.not_mem_nil, node', found⟩
  fresh m member := by
    rw [List.mem_singleton.mp member]
    exact ins.fresh
  value v info found _ := ⟨ins.value_of_get? found, rfl⟩
  inputs := ins.inputs
  outputs := by rw [ins.outputs, List.map_id]
  outputTypes v member := by
    obtain ⟨info, infoAt⟩ := c.outputs v member
    rw [id, typeOf_of_get? infoAt, typeOf_of_get? (ins.value_of_get? infoAt)]
  precedes a b _ _ neA neB := by
    rw [ins.order]
    exact precedes_insertIdx_of_ne (List.ne_of_not_mem_cons neA) (List.ne_of_not_mem_cons neB) le

/-- A replacement takes one node away and renames its results. -/
theorem Replaced.revision (rep : Replaced g g' n node.results values) (c : g.Consistent)
    (found : g.nodes.get? n = some node)
    (typed : List.Forall₂ g.SameType node.results values)
    (apart : ∀ v ∈ values, v ∉ node.results) :
    Revision g g' [n] [] (redirectAll node.results values) where
  kept m other otherAt remains := by
    rw [rep.node, if_neg (List.ne_of_not_mem_cons remains), otherAt, Option.map_some]
  back m node' foundAt := by
    rw [rep.node] at foundAt
    split at foundAt
    case isTrue => cases foundAt
    case isFalse ne =>
      obtain ⟨other, otherAt, -⟩ := Option.map_eq_some_iff.mp foundAt
      exact .inr ⟨by simpa using ne, other, otherAt⟩
  fresh m member := by cases member
  value v info infoAt remains := by
    have absent : v ∉ node.results := by
      intro result
      have produced := (c.mem_results_iff found).mp result
      rw [producerOf_of_get? infoAt] at produced
      exact remains n List.mem_cons_self produced
    exact ⟨by rw [rep.value, if_neg absent, infoAt], redirectAll_of_not_mem absent⟩
  inputs := rep.inputs
  outputs := rep.outputs
  outputTypes v member := by
    have keeps (w : ValueId) (absent : w ∉ node.results) : g'.typeOf w = g.typeOf w := by
      rw [typeOf, rep.value, if_neg absent, typeOf]
    by_cases result : v ∈ node.results
    · obtain ⟨i, resultAt⟩ := List.getElem?_of_mem result
      obtain ⟨w, valueAt, type, resultType, valueType⟩ := exists_right_of_getElem? typed resultAt
      rw [redirectAll_getElem? (c.results_nodup found) resultAt valueAt,
        keeps w (apart w (List.mem_of_getElem? valueAt)), resultType, valueType]
    · rw [redirectAll_of_not_mem result, keeps v result]
  precedes a b goneA goneB _ _ := by
    rw [rep.order]
    exact precedes_erase_of_ne c.order_nodup (List.ne_of_not_mem_cons goneA)
      (List.ne_of_not_mem_cons goneB)

/-- The removal of an unused node takes it away and renames nothing. -/
theorem Removed.revision (rem : Removed g g' n node) (c : g.Consistent)
    (found : g.nodes.get? n = some node) (unused : ∀ v ∈ node.results, g.usesOf v = []) :
    Revision g g' [n] [] id where
  kept m other otherAt remains := by
    rw [rem.node_of_ne (List.ne_of_not_mem_cons remains), otherAt,
      Node.rename_id]
  back m node' foundAt := by
    have ne := rem.ne_of_get? foundAt
    rw [rem.node_of_ne ne] at foundAt
    exact .inr ⟨by simpa using ne, node', foundAt⟩
  fresh m member := by cases member
  value v info infoAt remains := by
    refine ⟨?_, rfl⟩
    rw [rem.value_of_not_mem, infoAt]
    intro result
    have produced := (c.mem_results_iff found).mp result
    rw [producerOf_of_get? infoAt] at produced
    exact remains n List.mem_cons_self produced
  inputs := rem.inputs
  outputs := by rw [rem.outputs, List.map_id]
  outputTypes v member := by
    rw [id, typeOf, rem.value_of_not_mem, typeOf]
    intro result
    obtain ⟨i, outputAt⟩ := List.getElem?_of_mem member
    have used := (c.mem_usesOf v (.output i)).mpr outputAt
    rw [unused v result] at used
    cases used
  precedes a b goneA goneB _ _ := by
    rw [rem.order]
    exact precedes_erase_of_ne c.order_nodup (List.ne_of_not_mem_cons goneA)
      (List.ne_of_not_mem_cons goneB)

namespace Revision

/-! ## One revision after another -/

/-- Two revisions make one, if what the first took away is not made again by the second. -/
theorem trans (first : Revision g g' gone made f) (second : Revision g' g'' gone' made' f')
    (apart : ∀ n ∈ made', n ∉ gone) :
    Revision g g'' (gone ++ gone') (made ++ made') (f' ∘ f) where
  kept n node found remains := by
    rw [List.mem_append, not_or] at remains
    rw [second.kept n _ (first.kept n node found remains.1) remains.2, Node.rename_rename]
  back n node'' found := by
    rcases second.back n node'' found with new | ⟨remains', node', found'⟩
    · exact .inl (List.mem_append_right made new)
    · rcases first.back n node' found' with new | ⟨remains, live⟩
      · exact .inl (List.mem_append_left made' new)
      · refine .inr ⟨?_, live⟩
        rw [List.mem_append, not_or]
        exact ⟨remains, remains'⟩
  fresh n member := by
    rcases List.mem_append.mp member with new | new
    · exact first.fresh n new
    · cases found : g.nodes.get? n with
      | none => rfl
      | some node =>
        have absent := second.fresh n new
        rw [first.kept n node found (apart n new)] at absent
        cases absent
  value v info found remains := by
    obtain ⟨found', same⟩ := first.value v info found fun n member =>
      remains n (List.mem_append_left gone' member)
    obtain ⟨found'', same'⟩ := second.value v info found' fun n member =>
      remains n (List.mem_append_right gone member)
    exact ⟨found'', by rw [Function.comp_apply, same, same']⟩
  inputs := second.inputs.trans first.inputs
  outputs := by rw [second.outputs, first.outputs, List.map_map]
  outputTypes v member := by
    have renamed : f v ∈ g'.outputs := by
      rw [first.outputs]
      exact List.mem_map_of_mem member
    rw [Function.comp_apply, second.outputTypes _ renamed, first.outputTypes v member]
  precedes a b goneA goneB madeA madeB := by
    rw [List.mem_append, not_or] at goneA goneB madeA madeB
    exact (second.precedes a b goneA.2 goneB.2 madeA.2 madeB.2).trans
      (first.precedes a b goneA.1 goneB.1 madeA.1 madeB.1)

end Revision

/-! ## What remains -/

/-- A value that there is, and that none of the given nodes produces. -/
structure Remains (g : Region) (gone : List NodeId) (v : ValueId) : Prop where
  live : ∃ info, g.values.get? v = some info
  produced : ∀ m, g.producerOf v = some m → m ∉ gone

theorem Remains.not_mem_results (remains : g.Remains gone v) (c : g.Consistent)
    (found : g.nodes.get? n = some node) (member : n ∈ gone) : v ∉ node.results :=
  fun result => remains.produced n (c.producerOf_result found result) member

theorem remains_pair {consumer producer : NodeId} {info : ValueInfo}
    (infoAt : g.values.get? v = some info) (notConsumer : g.producerOf v ≠ some consumer)
    (notProducer : g.producerOf v ≠ some producer) : g.Remains [consumer, producer] v where
  live := ⟨info, infoAt⟩
  produced m produced member := by
    rcases List.mem_pair.mp member with rfl | rfl
    · exact notConsumer produced
    · exact notProducer produced

section Pair

variable {consumer producer : NodeId} (c : g.Consistent) (o : g.Ordered)

include c o

/-- What a node reads remains when the node goes together with a reader. -/
theorem Consistent.remains_inner (producerAt : g.nodes.get? producer = some node)
    (reads : g.Reads consumer producer) (operand : v ∈ node.kind.operands) :
    g.Remains [consumer, producer] v where
  live := c.operand_live producerAt operand
  produced m produced := by
    have before := o producer m ⟨node, v, producerAt, operand, produced⟩
    simp [before.ne, (before.trans (o consumer producer reads)).ne]

/-- What the reader reads besides it remains too. -/
theorem Consistent.remains_kept {node' : Node} (consumerAt : g.nodes.get? consumer = some node)
    (producerAt : g.nodes.get? producer = some node') (operand : v ∈ node.kind.operands)
    (other : v ∉ node'.results) : g.Remains [consumer, producer] v where
  live := c.operand_live consumerAt operand
  produced m produced := by
    have before := o consumer m ⟨node, v, consumerAt, operand, produced⟩
    have notProducer : m ≠ producer := fun same =>
      other ((c.mem_results_iff producerAt).mpr (same ▸ produced))
    simp [before.ne, notProducer]

end Pair

namespace Revision

variable (rev : Revision g g' gone made f)

include rev

theorem not_made (found : g.nodes.get? n = some node) : n ∉ made := by
  intro new
  rw [rev.fresh n new] at found
  cases found

/-- What went is not there any more. -/
theorem none_of_gone (found : g.nodes.get? n = some node) (member : n ∈ gone) :
    g'.nodes.get? n = none := by
  cases found' : g'.nodes.get? n with
  | none => rfl
  | some node' =>
    rcases rev.back n node' found' with isNew | ⟨remains, -⟩
    · exact absurd isNew (rev.not_made found)
    · exact absurd member remains

theorem not_gone (found : g.nodes.get? n = some node) (alive : g'.contains n = true) : n ∉ gone := by
  intro went
  rcases contains_eq_true_iff.mp alive with ⟨node', found'⟩
  rw [rev.none_of_gone found went] at found'
  cases found'

/-- A value that remains is what it was, and is not renamed. -/
theorem get?_of_remains (remains : g.Remains gone v) :
    g'.values.get? v = g.values.get? v ∧ f v = v := by
  rcases remains.live with ⟨info, infoAt⟩
  have other : ∀ n ∈ gone, info.definition.node? ≠ some n := by
    intro n member produced
    exact remains.produced n ((producerOf_of_get? infoAt).trans produced) member
  rcases rev.value v info infoAt other with ⟨infoAt', same⟩
  exact ⟨infoAt'.trans infoAt.symm, same⟩

theorem fixed (remains : g.Remains gone v) : f v = v := (rev.get?_of_remains remains).2

theorem producerOf_eq (remains : g.Remains gone v) : g'.producerOf v = g.producerOf v := by
  rw [producerOf, (rev.get?_of_remains remains).1, producerOf]

/-- The nodes that are in both regions keep their order. -/
theorem filter_order (c : g.Consistent) (c' : g'.Consistent) :
    g'.order.filter g.contains = g.order.filter g'.contains := by
  have survives {a : NodeId} (old : g.contains a = true) (new : g'.contains a = true) :
      a ∉ gone ∧ a ∉ made := by
    rcases contains_eq_true_iff.mp old with ⟨node, found⟩
    exact ⟨rev.not_gone found new, rev.not_made found⟩
  have both (a : NodeId) : a ∈ g'.order.filter g.contains ↔ a ∈ g.order.filter g'.contains := by
    rw [List.mem_filter, List.mem_filter, c.mem_order, c'.mem_order, ← contains_eq_true_iff,
      ← contains_eq_true_iff, and_comm]
  refine List.Perm.eq_of_pairwise
    (fun a b _ _ (before : Precedes g'.order a b) after => absurd after before.asymm)
    ((pairwise_precedes c'.order_nodup).filter _) ?_
    ((List.perm_ext_iff_of_nodup (c'.order_nodup.filter _) (c.order_nodup.filter _)).mpr both)
  refine ((pairwise_precedes c.order_nodup).filter _).imp_of_mem fun {a b} memberA memberB before => ?_
  have oldA := (List.mem_filter.mp ((both a).mpr memberA)).2
  have oldB := (List.mem_filter.mp ((both b).mpr memberB)).2
  rcases survives oldA (List.mem_filter.mp memberA).2 with ⟨stayedA, agedA⟩
  rcases survives oldB (List.mem_filter.mp memberB).2 with ⟨stayedB, agedB⟩
  exact (rev.precedes a b stayedA stayedB agedA agedB).mpr before

/-- A value that is there afterwards has remained, or a new node produces it. -/
theorem remains_or_made (c : g.Consistent) (c' : g'.Consistent) {info : ValueInfo}
    (infoAt : g'.values.get? v = some info) :
    g.Remains gone v ∨ ∃ n ∈ made, ∃ node, g'.nodes.get? n = some node ∧ v ∈ node.results := by
  rcases info with ⟨type, definition⟩
  cases definition with
  | input i =>
    have inputAt : g'.inputs[i]? = some v := c'.defines v _ infoAt
    rw [rev.inputs] at inputAt
    rcases c.inputs i v inputAt with ⟨type', oldAt⟩
    refine .inl ⟨⟨_, oldAt⟩, fun m produced => ?_⟩
    rw [producerOf_of_get? oldAt] at produced
    cases produced
  | result n i =>
    rcases c'.defines v _ infoAt with ⟨node', found', resultAt⟩
    rcases rev.back n node' found' with new | ⟨stays, node, found⟩
    · exact .inr ⟨n, new, node', found', List.mem_of_getElem? resultAt⟩
    · rw [rev.kept n node found stays, Option.some.injEq] at found'
      rw [← found'] at resultAt
      rcases c.get?_result found resultAt with ⟨type', oldAt⟩
      refine .inl ⟨⟨_, oldAt⟩, fun m produced => ?_⟩
      rw [producerOf_of_get? oldAt] at produced
      cases produced
      exact stays

end Revision

/-! ## The nodes that take over -/

/-- A value that a node outside of `gone` reads, or that is an output. -/
def Visible (g : Region) (gone : List NodeId) (v : ValueId) : Prop :=
  (∃ n node, g.nodes.get? n = some node ∧ n ∉ gone ∧ v ∈ node.kind.operands) ∨ v ∈ g.outputs

/-- The visible values are renamed to results of the nodes that take over for their producers. -/
def Follows (g g' : Region) (gone : List NodeId) (f : ValueId → ValueId)
    (heir : NodeId → NodeId) : Prop :=
  ∀ v, g.Visible gone v → g'.producerOf (f v) = (g.producerOf v).map heir

namespace Revision

variable (rev : Revision g g' gone made f)

include rev

/-- Nothing reads a value to which no visible one is renamed, unless a new node does. -/
theorem usesOf_eq_nil (c' : g'.Consistent) (old : ∀ u, g.Visible gone u → f u ≠ v)
    (new : ∀ n ∈ made, ∀ node, g'.nodes.get? n = some node → v ∉ node.kind.operands) :
    g'.usesOf v = [] := by
  refine List.eq_nil_iff_forall_not_mem.mpr fun site used => ?_
  have read := (c'.mem_usesOf v site).mp used
  cases site with
  | operand n i =>
    rcases Option.bind_eq_some_iff.mp read with ⟨node', found', operandAt⟩
    have operand := List.mem_of_getElem? operandAt
    rcases rev.back n node' found' with isNew | ⟨remains, node, found⟩
    · exact new n isNew node' found' operand
    · rw [rev.kept n node found remains, Option.some.injEq] at found'
      rw [← found', Node.rename, NodeKind.operands_mapOperands] at operand
      rcases List.mem_map.mp operand with ⟨u, operand, renamed⟩
      exact old u (.inl ⟨n, node, found, remains, operand⟩) renamed
  | output i =>
    rw [siteValue, rev.outputs, List.getElem?_map, Option.map_eq_some_iff] at read
    rcases read with ⟨u, outputAt, renamed⟩
    exact old u (.inr (List.mem_of_getElem? outputAt)) renamed

/-- It is enough to look at the results of the nodes that went. -/
theorem follows_of {heir : NodeId → NodeId} (c : g.Consistent)
    (same : ∀ m, m ∉ gone → heir m = m)
    (taken : ∀ m ∈ gone, ∀ v, g.producerOf v = some m → g.Visible gone v →
      g'.producerOf (f v) = some (heir m)) : Follows g g' gone f heir := by
  intro v visible
  have live : ∃ info, g.values.get? v = some info := by
    rcases visible with ⟨n, node, found, -, member⟩ | member
    · exact c.operand_live found member
    · exact c.outputs v member
  by_cases went : ∃ m ∈ gone, g.producerOf v = some m
  · rcases went with ⟨m, member, produced⟩
    rw [taken m member v produced visible, produced, Option.map_some]
  · have remains : g.Remains gone v := ⟨live, fun m produced member => went ⟨m, member, produced⟩⟩
    rw [rev.fixed remains, rev.producerOf_eq remains]
    cases produced : g.producerOf v with
    | none => rfl
    | some m => rw [Option.map_some, same m (remains.produced m produced)]

/-- A node that remains reads the nodes that took over for those it read. -/
theorem reads_iff {heir : NodeId → NodeId} (follows : Follows g g' gone f heir)
    (found : g.nodes.get? n = some node) (remains : n ∉ gone) :
    g'.Reads n m ↔ ∃ m₀, g.Reads n m₀ ∧ heir m₀ = m := by
  have found' := rev.kept n node found remains
  have visible {v : ValueId} (member : v ∈ node.kind.operands) : g.Visible gone v :=
    .inl ⟨n, node, found, remains, member⟩
  constructor
  · intro reads
    rcases (reads_iff_operand found').mp reads with ⟨w, member, produced⟩
    rw [Node.rename, NodeKind.operands_mapOperands] at member
    rcases List.mem_map.mp member with ⟨v, operand, rfl⟩
    rw [follows v (visible operand), Option.map_eq_some_iff] at produced
    rcases produced with ⟨m₀, produced, rfl⟩
    exact ⟨m₀, (reads_iff_operand found).mpr ⟨v, operand, produced⟩, rfl⟩
  · intro taken
    rcases taken with ⟨m₀, reads, rfl⟩
    rcases (reads_iff_operand found).mp reads with ⟨v, operand, produced⟩
    refine (reads_iff_operand found').mpr ⟨f v, ?_, ?_⟩
    · rw [Node.rename, NodeKind.operands_mapOperands]
      exact List.mem_map_of_mem operand
    · rw [follows v (visible operand), produced, Option.map_some]

/-- The nodes that export are the heirs of those that did. -/
theorem exports_iff {heir : NodeId → NodeId} (follows : Follows g g' gone f heir) :
    g'.Exports m ↔ ∃ m₀, g.Exports m₀ ∧ heir m₀ = m := by
  constructor
  · rintro ⟨w, member, produced⟩
    rw [rev.outputs] at member
    obtain ⟨v, output, rfl⟩ := List.mem_map.mp member
    rw [follows v (.inr output), Option.map_eq_some_iff] at produced
    obtain ⟨m₀, produced, rfl⟩ := produced
    exact ⟨m₀, ⟨v, output, produced⟩, rfl⟩
  · rintro ⟨m₀, ⟨v, member, produced⟩, rfl⟩
    refine ⟨f v, ?_, ?_⟩
    · rw [rev.outputs]
      exact List.mem_map_of_mem member
    · rw [follows v (.inr member), produced, Option.map_some]

/-- A revision of an ordered region is ordered when the new nodes stand behind those that they read, and the
nodes that take over stand before those that read them. -/
theorem ordered {heir : NodeId → NodeId} (follows : Follows g g' gone f heir) (c : g.Consistent)
    (o : g.Ordered) (same : ∀ m, m ∉ gone → heir m = m)
    (taken : ∀ n m, n ∉ gone → m ∈ gone → g.Reads n m → Precedes g'.order (heir m) n)
    (new : ∀ n ∈ made, ∀ m, g'.Reads n m → Precedes g'.order m n) : g'.Ordered := by
  intro n m reads
  obtain ⟨node', v, found', -⟩ := id reads
  rcases rev.back n node' found' with isNew | ⟨remains, node, found⟩
  · exact new n isNew m reads
  · obtain ⟨m₀, reads₀, rfl⟩ := (rev.reads_iff follows found remains).mp reads
    by_cases member : m₀ ∈ gone
    · exact taken n m₀ remains member reads₀
    · obtain ⟨node₀, found₀⟩ := (c.mem_order m₀).mp (c.reads_live reads₀).2
      rw [same m₀ member, rev.precedes m₀ n member remains (rev.not_made found₀)
        (rev.not_made found)]
      exact o n m₀ reads₀

end Revision

end KernelFusion.Region
