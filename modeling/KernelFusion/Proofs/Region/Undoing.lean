import KernelFusion.Proofs.Region.Built

/-!
# Undoing an insertion

A node that was just inserted has no readers, so it can be erased, and erasing it leads back. The insertion has put
sites behind those that were there, and they are the only ones that the erasure takes out, whether an operand is read
once or several times. Consistent regions with the same program order and the same uses have the same positions and
the same table of uses, since the order determines the positions and no value is bound to an empty list; so nothing is
left of the insertion but the generations of the slots that it used (`erase_undoes_insertion`).
-/

namespace KernelFusion

section Lists

variable {α : Type} [DecidableEq α] {l : List α} {c : α} {i : Nat}

theorem erase_insertIdx_self (fresh : c ∉ l) (le : i ≤ l.length) : (l.insertIdx i c).erase c = l := by
  have front : c ∉ l.take i := fun member => fresh (List.mem_of_mem_take member)
  rw [insertIdx_eq_take_drop le, erase_append_cons front, List.take_append_drop]

end Lists

namespace Region

variable {g g' g'' : Region} {n m : NodeId} {v : ValueId} {place : Nat} {kind : NodeKind}
  {results : List ValueId} {point : InsertPoint}

/-! ## Insertions that succeed -/

/-- An insertion of a load that succeeds, taken apart. -/
theorem insertLoad_ok {field : Field} {type : ElementType}
    (ran : (insertLoad point field type).run g = .ok n g') : ∃ place, g.resolve point = .ok place ∧
      n = g.nodes.fresh ∧ g' = g.insertNode place (.load field type) [type] := by
  unfold insertLoad at ran
  rw [run_get_bind] at ran
  rcases run_bind_eq_ok_iff.mp ran with ⟨place, g₁, resolved, rest⟩
  rcases run_lift_eq_ok_iff.mp resolved with ⟨resolved, rfl⟩
  cases rest
  exact ⟨place, resolved, rfl, rfl⟩

/-- An insertion of an apply that succeeds, taken apart; its operands are values of the region. -/
theorem insertApply_ok (c : g.Consistent) {operands : List ValueId} {kernel : Kernel}
    (ran : (insertApply point operands kernel).run g = .ok n g') :
    ∃ place, g.resolve point = .ok place ∧ n = g.nodes.fresh ∧
      g' = g.insertNode place (.apply operands kernel) kernel.resultTypes ∧
      ∀ v ∈ operands, ∃ info, g.values.get? v = some info := by
  unfold insertApply at ran
  rw [run_get_bind] at ran
  rcases run_bind_eq_ok_iff.mp ran with ⟨place, g₁, resolved, rest⟩
  rcases run_lift_eq_ok_iff.mp resolved with ⟨resolved, rfl⟩
  by_cases length : operands.length = kernel.params.length
  · rw [if_pos length] at rest
    rcases run_bind_eq_ok_iff.mp rest with ⟨_, g₂, checked, rest⟩
    rcases run_lift_eq_ok_iff.mp checked with ⟨checked, rfl⟩
    rcases (c.checkOperands_eq_ok_iff length).mp checked with ⟨typed, -⟩
    cases rest
    refine ⟨place, resolved, rfl, rfl, fun v operand => ?_⟩
    rcases exists_right_of_mem typed operand with ⟨type, -, known⟩
    exact isSome_of_typeOf known
  · rw [if_neg length] at rest
    cases rest

/-- An insertion with its arguments. The kernel of an apply was made by a draft. -/
inductive Insertion where
  | load (point : InsertPoint) (field : Field) (type : ElementType)
  | apply (point : InsertPoint) (operands : List ValueId) (kernel : Kernel) (drafted : kernel.Built)
  | copy (point : InsertPoint) (n : NodeId)

namespace Insertion

/-- The edit that makes an insertion. -/
def edit : Insertion → Edit NodeId
  | load point field type => insertLoad point field type
  | apply point operands kernel _ => insertApply point operands kernel
  | copy point n => insertCopy point n

/-- A region stays a built one by an insertion. -/
theorem built (insertion : Insertion) (built : g.Built) (ran : insertion.edit.run g = .ok n g') :
    g'.Built := by
  rw [← stateAfter_ok ran]
  cases insertion with
  | load point field type => exact .insertLoad point field type built
  | apply point operands kernel drafted => exact .insertApply point operands drafted built
  | copy point n => exact .insertCopy point n built

/-- An insertion that succeeds inserts a node that reads values of the region. -/
theorem inserted (insertion : Insertion) (c : g.Consistent)
    (ran : insertion.edit.run g = .ok n g') : ∃ place kind results, place ≤ g.order.length ∧
      Inserted g g' n place kind results ∧ ∀ v ∈ kind.operands, ∃ info, g.values.get? v = some info := by
  have load {point : InsertPoint} {field : Field} {type : ElementType}
      (ran : (insertLoad point field type).run g = .ok n g') : ∃ place kind results,
        place ≤ g.order.length ∧ Inserted g g' n place kind results ∧
          ∀ v ∈ kind.operands, ∃ info, g.values.get? v = some info := by
    rcases insertLoad_ok ran with ⟨place, resolved, rfl, rfl⟩
    exact ⟨place, _, _, c.resolve_le resolved, inserted_insertNode c place _ _, nofun⟩
  have apply {point : InsertPoint} {operands : List ValueId} {kernel : Kernel}
      (ran : (insertApply point operands kernel).run g = .ok n g') : ∃ place kind results,
        place ≤ g.order.length ∧ Inserted g g' n place kind results ∧
          ∀ v ∈ kind.operands, ∃ info, g.values.get? v = some info := by
    rcases insertApply_ok c ran with ⟨place, resolved, rfl, rfl, live⟩
    exact ⟨place, _, _, c.resolve_le resolved, inserted_insertNode c place _ _, live⟩
  cases insertion with
  | load point field type => exact load ran
  | apply point operands kernel drafted => exact apply ran
  | copy point m =>
    unfold edit insertCopy at ran
    rw [run_get_bind] at ran
    rcases run_bind_eq_ok_iff.mp ran with ⟨kind, g₁, answered, rest⟩
    rcases run_lift_eq_ok_iff.mp answered with ⟨-, rfl⟩
    cases kind with
    | load field type => exact load rest
    | apply operands kernel => exact apply rest

end Insertion

/-! ## Erasing what was inserted -/

/-- A region answers as another does: the two have the same program order, inputs and outputs, and the same positions,
uses, nodes and values by all handles. -/
structure Restored (g g' : Region) : Prop where
  order : g'.order = g.order
  inputs : g'.inputs = g.inputs
  outputs : g'.outputs = g.outputs
  positions : ∀ n, g'.positions.find? n = g.positions.find? n
  uses : ∀ v, g'.uses.find? v = g.uses.find? v
  nodes : ∀ n, g'.nodes.get? n = g.nodes.get? n
  values : ∀ v, g'.values.get? v = g.values.get? v

/-- A consistent region has no entry for a value that nothing reads, so use lists say all about the index. -/
theorem Consistent.find?_uses (c : g.Consistent) (v : ValueId) :
    g.uses.find? v = if g.usesOf v = [] then none else some (g.usesOf v) := by
  have bound := c.uses_bound v
  rw [usesOf, UseIndex.sites]
  cases found : g.uses.find? v with
  | none => rfl
  | some sites =>
    rw [found, Ne, Option.some.injEq] at bound
    exact (if_neg bound).symm

theorem Inserted.restored (ins : Inserted g g' n place kind results) (c : g.Consistent)
    (le : place ≤ g.order.length) (rem : Removed g' g'' n ⟨kind, results⟩) (c'' : g''.Consistent) :
    Restored g g'' := by
  have order : g''.order = g.order := by
    rw [rem.order, ins.order, erase_insertIdx_self (ins.fresh_not_mem c) le]
  have usesOf (v : ValueId) : g''.usesOf v = g.usesOf v := by
    -- The sites from before are not those of the new node, which had none.
    have others : ∀ site ∈ g.usesOf v, site ∉ ownSites n 0 kind.operands v := by
      intro site used own
      rcases mem_ownSites.mp own with ⟨i, rfl, -⟩
      have read := (c.mem_usesOf v _).mp used
      rw [siteValue, ins.fresh] at read
      cases read
    rw [rem.uses, ins.uses, List.filter_append,
      List.filter_eq_self.mpr fun site used => decide_eq_true (others site used),
      List.filter_eq_nil_iff.mpr fun site own => by simpa using own, List.append_nil]
  refine ⟨order, rem.inputs.trans ins.inputs, rem.outputs.trans ins.outputs, ?positions, ?uses,
    ?nodes, ?values⟩
  case positions =>
    intro m
    rw [c''.positions, c.positions, order]
  case uses =>
    intro v
    rw [c''.find?_uses, c.find?_uses, usesOf]
  case nodes =>
    intro m
    rw [rem.node]
    split
    case isTrue same => rw [same, ins.fresh]
    case isFalse ne => rw [ins.node, if_neg ne]
  case values =>
    intro v
    rw [rem.value]
    split
    case isTrue new => rw [ins.fresh_results v new]
    case isFalse old => rw [ins.value v old]

/-- Nothing reads the results of a new node, which is not among its own operands either. -/
theorem Inserted.unused (ins : Inserted g g' n place kind results) (c : g.Consistent)
    (live : ∀ v ∈ kind.operands, ∃ info, g.values.get? v = some info) :
    ∀ v ∈ results, g'.usesOf v = [] := by
  intro v result
  have absent := ins.fresh_results v result
  have unread : v ∉ kind.operands := by
    intro operand
    rcases live v operand with ⟨info, infoAt⟩
    rw [absent] at infoAt
    cases infoAt
  rw [ins.uses, c.usesOf_of_none absent, ownSites_of_not_mem unread, List.append_nil]

/-- Erasing a node right after its insertion leads back to a region that answers as the one before, whatever was
inserted and wherever. The node and its results are stale then. -/
theorem erase_undoes_insertion (built : g.Built) (insertion : Insertion)
    (ran : insertion.edit.run g = .ok n g') :
    ∃ g'', (eraseNode n).run g' = .ok () g'' ∧ Restored g g'' ∧
      g''.node n = .error (.staleNode n) ∧
      ∃ results, g'.results n = .ok results ∧ ∀ v ∈ results, g''.value v = .error (.staleValue v) := by
  have c := built.consistent
  have c' := (insertion.built built ran).consistent
  rcases insertion.inserted c ran with ⟨place, kind, results, le, ins, live⟩
  have unused := ins.unused c live
  have rem : Removed g' (g'.removeNode (g'.order.idxOf n) n ⟨kind, results⟩) n ⟨kind, results⟩ :=
    removed_removeNode c'
  refine ⟨_, eraseNode_run c' ins.node_self unused, ?restored, ?node, results, ?results,
    fun v result => ?value⟩
  case restored =>
    exact ins.restored c le rem (consistent_removeNode c' ins.node_self unused)
  case node => rw [node, rem.node, if_pos rfl, orRefuse_none]
  case results => exact results_of_get? ins.node_self
  case value => rw [value, rem.value, if_pos result, orRefuse_none]

theorem erase_undoes_insertion_sharedField :
    ∃ g' g'', sharedField.Built ∧
      (Insertion.copy (.before ⟨2, 0⟩) ⟨1, 0⟩).edit.run sharedField = .ok ⟨3, 0⟩ g' ∧
      (eraseNode ⟨3, 0⟩).run g' = .ok () g'' ∧ Restored sharedField g'' := by
  rcases erase_undoes_insertion built_sharedField (.copy (.before ⟨2, 0⟩) ⟨1, 0⟩) rfl with
    ⟨g'', erased, restored, -⟩
  exact ⟨_, g'', built_sharedField, rfl, erased, restored⟩

end Region

end KernelFusion
