import KernelFusion.Proofs.Region.Revision
import KernelFusion.Proofs.Region.Verification

/-!
# Sequences of calls

A region is made by calls, one after another, with any arguments, stale handles included; a call that is refused
leaves what it has changed so far. Whatever the calls are, the region is consistent, and the check can find nothing
wrong with it but an operand that is produced too late (`made_consistent`).

Only redirecting uses can bring that about. A new node is put behind the producers of its operands, and a node that
is erased is not read, so the calls that do not redirect keep an ordered region ordered (`Call.ordered`).
-/

namespace KernelFusion.Region

variable {g g' : Region} {n m : NodeId} {v : ValueId} {node : Node} {place index : Nat}
  {kind : NodeKind} {results : List ValueId} {type : ElementType}

/-! ## Calls -/

/-- A call with its arguments. The kernel of an apply was made by a draft. -/
inductive Call where
  | addInput (type : ElementType)
  | addOutput (value : ValueId)
  | insertLoad (point : InsertPoint) (field : Field) (type : ElementType)
  | insertApply (point : InsertPoint) (operands : List ValueId) (kernel : Kernel)
    (drafted : kernel.Built)
  | insertCopy (point : InsertPoint) (n : NodeId)
  | redirectUses (source target : ValueId)
  | replaceNode (n : NodeId) (values : List ValueId)
  | eraseNode (n : NodeId)

namespace Call

/-- The region that a call leaves, whether it succeeds or is refused. -/
def leaves (g : Region) : Call → Region
  | addInput type => stateAfter (Region.addInput type) g
  | addOutput value => stateAfter (Region.addOutput value) g
  | insertLoad point field type => stateAfter (Region.insertLoad point field type) g
  | insertApply point operands kernel _ => stateAfter (Region.insertApply point operands kernel) g
  | insertCopy point n => stateAfter (Region.insertCopy point n) g
  | redirectUses source target => stateAfter (Region.redirectUses source target) g
  | replaceNode n values => stateAfter (Region.replaceNode n values) g
  | eraseNode n => stateAfter (Region.eraseNode n) g

/-- Whether a call redirects uses. -/
def redirects : Call → Bool
  | redirectUses .. => true
  | replaceNode .. => true
  | _ => false

theorem built (call : Call) (built : g.Built) : (call.leaves g).Built := by
  cases call with
  | addInput type => exact .addInput type built
  | addOutput value => exact .addOutput value built
  | insertLoad point field type => exact .insertLoad point field type built
  | insertApply point operands kernel drafted => exact .insertApply point operands drafted built
  | insertCopy point n => exact .insertCopy point n built
  | redirectUses source target => exact .redirectUses source target built
  | replaceNode n values => exact .replaceNode n values built
  | eraseNode n => exact .eraseNode n built

end Call

/-- The region that a sequence of calls makes. -/
def made (calls : List Call) : Region := calls.foldl Call.leaves .empty

theorem made_concat (calls : List Call) (call : Call) :
    made (calls ++ [call]) = call.leaves (made calls) := by
  rw [made, List.foldl_append]
  rfl

/-- The regions that calls make are those that edits build. -/
theorem built_iff : g.Built ↔ ∃ calls, made calls = g := by
  constructor
  · intro built
    have next {g : Region} (call : Call) (before : ∃ calls, made calls = g) :
        ∃ calls, made calls = call.leaves g := by
      rcases before with ⟨calls, rfl⟩
      exact ⟨calls ++ [call], made_concat calls call⟩
    induction built with
    | empty => exact ⟨[], rfl⟩
    | addInput type _ ih => exact next (.addInput type) ih
    | addOutput value _ ih => exact next (.addOutput value) ih
    | insertLoad point field type _ ih => exact next (.insertLoad point field type) ih
    | insertApply point operands drafted _ ih =>
      exact next (.insertApply point operands _ drafted) ih
    | insertCopy point n _ ih => exact next (.insertCopy point n) ih
    | redirectUses source target _ ih => exact next (.redirectUses source target) ih
    | replaceNode n values _ ih => exact next (.replaceNode n values) ih
    | eraseNode n _ ih => exact next (.eraseNode n) ih
  · rintro ⟨calls, rfl⟩
    induction calls using List.reverseRecOn with
    | nil => exact .empty
    | append_singleton calls call ih =>
      rw [made_concat]
      exact call.built ih

/-! ## Calls that keep the order of production -/

theorem ordered_withInput (c : g.Consistent) (o : g.Ordered) (type : ElementType) :
    (g.withInput type).Ordered := by
  have produced (v : ValueId) : (g.withInput type).producerOf v = g.producerOf v := by
    rw [producerOf, value_withInput c]
    split
    case isTrue new => rw [new, producerOf, Arena.get?_fresh c.values]; rfl
    case isFalse => rfl
  rintro n m ⟨node, v, found, operand, producedNow⟩
  exact o n m ⟨node, v, found, operand, (produced v).symm.trans producedNow⟩

/-- A node may be inserted behind the producers of its operands. -/
theorem Inserted.ordered (ins : Inserted g g' n place kind results) (c : g.Consistent)
    (o : g.Ordered) (le : place ≤ g.order.length)
    (live : ∀ v ∈ kind.operands, ∃ info, g.values.get? v = some info)
    (early : ∀ v ∈ kind.operands, ∀ m, g.producerOf v = some m → g.order.idxOf m < place) :
    g'.Ordered := by
  have rev := ins.revision c le
  have follows : Follows g g' [] id id := rev.follows_of c (fun _ _ => rfl) nofun
  refine rev.ordered follows c o (fun _ _ => rfl) nofun fun n' isNew m reads => ?_
  cases List.mem_singleton.mp isNew
  rcases (reads_iff_operand ins.node_self).mp reads with ⟨v, operand, produced⟩
  rcases live v operand with ⟨info, infoAt⟩
  have same : g'.producerOf v = g.producerOf v := by
    rw [producerOf_of_get? infoAt, producerOf_of_get? (ins.value_of_get? infoAt)]
  rw [same] at produced
  rcases c.producer_live produced with ⟨node, found, -⟩
  exact (ins.precedes_new_iff c le found).mpr (early v operand m produced)

/-- What reads a result of the node that goes reads nothing afterwards. -/
theorem Removed.ordered (rem : Removed g g' n node) (c : g.Consistent) (o : g.Ordered)
    (found : g.nodes.get? n = some node) : g'.Ordered := by
  rintro reader m ⟨other, v, otherAt, operand, produced⟩
  have readerNe := rem.ne_of_get? otherAt
  rw [rem.node_of_ne readerNe] at otherAt
  have kept : v ∉ node.results := by
    intro erased
    rw [producerOf, rem.value, if_pos erased] at produced
    cases produced
  rw [producerOf, rem.value_of_not_mem kept, ← producerOf] at produced
  have producerNe : m ≠ n := by
    rintro rfl
    exact kept ((c.mem_results_iff found).mpr produced)
  rw [rem.order, precedes_erase_of_ne c.order_nodup producerNe readerNe]
  exact o reader m ⟨other, v, otherAt, operand, produced⟩

/-- A load reads nothing, and nothing reads it yet. -/
theorem ordered_insertLoad (c : g.Consistent) (o : g.Ordered) (point : InsertPoint) (field : Field)
    (type : ElementType) : (stateAfter (insertLoad point field type) g).Ordered := by
  rw [insertLoad, stateAfter_get_bind]
  refine stateAfter_lift_bind Ordered o fun place resolved => ?_
  have ins := inserted_insertNode c place (.load field type) [type]
  exact ins.ordered c o (c.resolve_le resolved) (fun v operand => by cases operand)
    (fun v operand => by cases operand)

/-- An apply is inserted only behind the producers of its operands. -/
theorem ordered_insertApply (c : g.Consistent) (o : g.Ordered) (point : InsertPoint)
    (operands : List ValueId) (kernel : Kernel) :
    (stateAfter (insertApply point operands kernel) g).Ordered := by
  rw [insertApply, stateAfter_get_bind]
  refine stateAfter_lift_bind Ordered o fun place resolved => ?_
  by_cases length : operands.length = kernel.params.length
  · rw [if_pos length]
    refine stateAfter_lift_bind Ordered o fun _ checked => ?_
    rcases (c.checkOperands_eq_ok_iff length).mp checked with ⟨typed, early⟩
    have live (v : ValueId) (operand : v ∈ operands) : ∃ info, g.values.get? v = some info := by
      rcases exists_right_of_mem typed operand with ⟨type, -, known⟩
      exact isSome_of_typeOf known
    have ins := inserted_insertNode c place (.apply operands kernel) kernel.resultTypes
    exact ins.ordered c o (c.resolve_le resolved) live early
  · rw [if_neg length]
    exact o

/-- A copy is inserted only behind the producers of what it reads, as an apply is. -/
theorem ordered_insertCopy (c : g.Consistent) (o : g.Ordered) (point : InsertPoint) (n : NodeId) :
    (stateAfter (insertCopy point n) g).Ordered := by
  rw [insertCopy, stateAfter_get_bind]
  refine stateAfter_lift_bind Ordered o fun kind _ => ?_
  cases kind with
  | load field type => exact ordered_insertLoad c o point field type
  | apply operands kernel => exact ordered_insertApply c o point operands kernel

theorem ordered_eraseNode (c : g.Consistent) (o : g.Ordered) (n : NodeId) :
    (stateAfter (eraseNode n) g).Ordered := by
  rw [eraseNode, stateAfter_get_bind]
  refine stateAfter_lift_bind Ordered o fun node found => ?_
  refine stateAfter_lift_bind Ordered o fun _ _ => ?_
  refine stateAfter_lift_bind Ordered o fun place positionEq => ?_
  rcases c.position_eq_ok_iff.mp positionEq with ⟨-, rfl⟩
  exact (removed_removeNode c).ordered c o (node_eq_ok_iff.mp found)

/-- The calls that do not redirect uses keep a region ordered. -/
theorem Call.ordered (call : Call) (still : call.redirects = false) (c : g.Consistent)
    (o : g.Ordered) : (call.leaves g).Ordered := by
  cases call with
  | addInput type => exact ordered_withInput c o type
  | addOutput value =>
    change (stateAfter (Region.addOutput value) g).Ordered
    rw [Region.addOutput, stateAfter_get_bind]
    exact stateAfter_lift_bind Ordered o fun _ _ => o
  | insertLoad point field type => exact ordered_insertLoad c o point field type
  | insertApply point operands kernel => exact ordered_insertApply c o point operands kernel
  | insertCopy point n => exact ordered_insertCopy c o point n
  | redirectUses => cases still
  | replaceNode => cases still
  | eraseNode n => exact ordered_eraseNode c o n

/-- Calls that redirect nothing lead to ordered regions only. -/
theorem ordered_made {calls : List Call} (still : ∀ call ∈ calls, call.redirects = false) :
    (made calls).Ordered := by
  induction calls using List.reverseRecOn with
  | nil =>
    rintro n m ⟨node, v, found, -⟩
    cases found
  | append_singleton calls call ih =>
    rw [List.forall_mem_append, List.forall_mem_singleton] at still
    rw [made_concat]
    have built : (made calls).Built := built_iff.mpr ⟨calls, rfl⟩
    exact call.ordered still.2 built.consistent (ih still.1)

/-! ## The only thing that can be wrong -/

/-- A check that is refused, if at all, at an operand that is produced too late. -/
def RefusesLate (check : Except Error Unit) : Prop :=
  check = .ok () ∨ ∃ n v m, check = .error (.useBeforeDef n v m)

/-- Checks in a row find nothing but late operands if each of them does not. -/
theorem RefusesLate.bind {check : Except Error Unit} {next : Unit → Except Error Unit}
    (first : RefusesLate check) (rest : RefusesLate (next ())) : RefusesLate (check >>= next) := by
  rcases first with passed | ⟨n, v, m, refused⟩
  · rwa [passed, ok_bind]
  · exact .inr ⟨n, v, m, by rw [refused, error_bind]⟩

namespace Consistent

variable (c : g.Consistent)

include c

/-- The check of an operand with the right type can only find it late. -/
theorem checkRead_refusesLate (typed : g.typeOf v = some type) :
    RefusesLate (g.checkRead place n index v type) := by
  rcases isSome_of_typeOf typed with ⟨info, infoAt⟩
  rw [checkRead, valueType_eq_ok_iff.mpr typed, ok_bind, if_pos rfl, producer_of_get? infoAt, ok_bind]
  cases produced : g.producerOf v with
  | none => exact .inl rfl
  | some m =>
    rcases c.producer_live produced with ⟨node, found, -⟩
    dsimp only
    rw [c.position_of_get? found, ok_bind]
    split
    case isTrue => exact .inl rfl
    case isFalse => exact .inr ⟨n, v, m, rfl⟩

theorem checkReads_refusesLate {operands : List ValueId} {params : List ElementType}
    (typed : List.Forall₂ (fun v type => g.typeOf v = some type) operands params) :
    RefusesLate (g.checkReads place n index operands params) := by
  induction typed generalizing index with
  | nil => exact .inl rfl
  | cons head _ ih => exact (c.checkRead_refusesLate head).bind ih

/-- All that is checked of a node holds in a consistent region, but for the order of its operands. -/
theorem checkNode_refusesLate (found : g.nodes.get? n = some node) :
    RefusesLate (g.checkNode (g.order.idxOf n) n) := by
  have agrees := c.agrees found
  have placed : g.positions.find? n = some (g.order.idxOf n) := by
    rw [c.positions, positionIn_of_mem (c.mem_order_of_get? found)]
  have defined : g.checkResults n 0 node.results = .ok () := by
    refine checkResults_eq_ok_iff.mpr fun i v resultAt => ?_
    rw [Nat.zero_add]
    exact agrees.results i v resultAt
  rw [checkNode, node_of_get? found, ok_bind, if_pos placed, defined, ok_bind]
  rcases node with ⟨⟨field, type⟩ | ⟨operands, kernel⟩, values⟩
  case load => exact .inl (test_eq_ok_iff.mpr (agrees.load rfl))
  case apply =>
    have length : operands.length = kernel.params.length := agrees.operands.length_eq
    have returned : List.Forall₂ (fun v type => g.typeOf v = some type) values kernel.resultTypes :=
      agrees.returned kernel rfl
    dsimp only
    rw [if_pos length, if_pos returned.length_eq.symm]
    exact (c.checkReads_refusesLate agrees.operands).bind
      (.inl ((checkReturned_eq_ok_iff returned.length_eq).mpr returned))

theorem checkNodes_refusesLate {ns : List NodeId} (rest : g.order.drop place = ns) :
    RefusesLate (g.checkNodes place ns) := by
  induction ns generalizing place with
  | nil => exact .inl rfl
  | cons n ns ih =>
    have later : g.order.drop (place + 1) = ns := by
      rw [← List.drop_drop, rest, List.drop_succ_cons, List.drop_zero]
    have here : g.order[place]? = some n := by
      rw [← List.head?_drop, rest, List.head?_cons]
    rcases (getElem?_eq_some_iff_of_nodup c.order_nodup).mp here with ⟨member, rfl⟩
    rcases (c.mem_order n).mp member with ⟨node, found⟩
    exact (c.checkNode_refusesLate found).bind (ih later)

/-- The check of a consistent region is refused, if at all, at an operand that is produced too late. -/
theorem verify_refusesLate : RefusesLate g.verify := by
  have positioned := size_positions c.order_nodup fun _ _ => c.find?_positions_iff
  have uses (values : List ValueId) : values.forM g.checkUses = .ok () :=
    forM_eq_ok_iff.mpr fun v _ => checkUses_eq_ok_iff.mpr (c.perm_usesOf v)
  rw [verify, if_pos ⟨c.length_order, positioned.trans c.length_order⟩]
  refine (c.checkNodes_refusesLate List.drop_zero).bind ?_
  exact .bind (.inl (checkOutputs_eq_ok_iff.mpr c.outputs)) (.bind (.inl (uses _)) (.inl (uses _)))

end Consistent

/-! ## What calls make -/

/-- Whatever the calls are, the places where the region keeps the same facts agree. The check can be refused only at
an operand that is produced too late, and it passes if no call redirects uses. -/
theorem made_consistent (calls : List Call) :
    (made calls).Consistent ∧
    ((made calls).verify = .ok () ∨ ∃ n v m, (made calls).verify = .error (.useBeforeDef n v m)) ∧
    ((∀ call ∈ calls, call.redirects = false) → (made calls).verify = .ok ()) := by
  have built : (made calls).Built := built_iff.mpr ⟨calls, rfl⟩
  have c := built.consistent
  refine ⟨c, c.verify_refusesLate, fun still => ?_⟩
  exact c.verify_eq_ok_iff.mpr (ordered_made still)

/-- A load and two applies in a row; then the last one takes the place of the load. -/
def circle : List Call :=
  [.insertLoad .last ⟨"u"⟩ .float64,
    .insertApply .last [⟨0, 0⟩] (.identity .float64) (.identity .float64),
    .insertApply .last [⟨1, 0⟩] (.identity .float64) (.identity .float64),
    .replaceNode ⟨0, 0⟩ [⟨2, 0⟩]]

/-- Redirecting can make a node read what is produced behind it, and nothing else goes wrong. -/
theorem made_consistent_circle :
    (made (circle.take 3)).verify = .ok () ∧ (made circle).Consistent ∧
      (made circle).verify = .error (.useBeforeDef ⟨1, 0⟩ ⟨2, 0⟩ ⟨2, 0⟩) := by
  have still : ∀ call ∈ circle.take 3, call.redirects = false := by
    simp [circle, Call.redirects]
  exact ⟨(made_consistent (circle.take 3)).2.2 still, (made_consistent circle).1, rfl⟩

end KernelFusion.Region
