import KernelFusion.Proofs.Region.Revision
import KernelFusion.Proofs.Rewrite.Matching

/-!
# What root introduction does

At a shared load the rule always succeeds. `Rooted` says what it leaves: the load is replaced by a copy, which
the root alone reads, and all that read the load read the root, which stands before the first of them. Elsewhere
the rule changes nothing.

`Planted` is the graph in which the copy and the root stand beside the load, before the reads are rerouted.
-/

namespace KernelFusion

/-- The nodes and values that a root introduction is about. -/
structure Rooting where
  load : NodeId
  copy : NodeId
  root : NodeId
  field : Field
  type : ElementType
  /-- The result of the load. -/
  loaded : ValueId
  /-- The result of the copy. -/
  copied : ValueId
  /-- The result of the root. -/
  passed : ValueId

namespace Rooting

/-- What the remaining nodes read in place of what they read. -/
def substitution (r : Rooting) : ValueId → ValueId := redirectAll [r.loaded] [r.passed]

theorem substitution_loaded (r : Rooting) : r.substitution r.loaded = r.passed := by
  rw [substitution, redirectAll_cons, if_pos rfl]

/-- The node that takes over for another. -/
def heir (r : Rooting) (m : NodeId) : NodeId := if m = r.load then r.root else m

end Rooting

namespace Region

variable {g g' : Region} {n m load : NodeId} {node : Node} {results : List ValueId} {r : Rooting}

/-- The program order falls apart at the load and at the first node that reads it. -/
structure Anchored (g : Region) (load anchor : NodeId) (front mid back : List NodeId) : Prop where
  order : g.order = front ++ load :: (mid ++ anchor :: back)
  reads : g.Reads anchor load
  first : ∀ m ∈ front ++ load :: mid, ¬ g.Reads m load

/-- A shared load is replaced by a copy and a root that passes the copy on. -/
structure Rooted (g g' : Region) (r : Rooting) : Prop where
  consistent : g'.Consistent
  loadAt : g.nodes.get? r.load = some ⟨.load r.field r.type, [r.loaded]⟩
  isShared : g.Shared r.load
  revision : Revision g g' [r.load] [r.copy, r.root] r.substitution
  copyAt : g'.nodes.get? r.copy = some ⟨.load r.field r.type, [r.copied]⟩
  rootAt : g'.nodes.get? r.root = some ⟨.apply [r.copied] (.identity r.type), [r.passed]⟩
  between : Precedes g'.order r.copy r.root
  behind : ∀ m, g.Reads m r.load → Precedes g'.order r.root m
  order : ∃ anchor front mid back, g.Anchored r.load anchor front mid back ∧
    g'.order = front ++ r.copy :: (mid ++ r.root :: anchor :: back)
  uses_copied : g'.usesOf r.copied = [.operand r.root 0]
  uses_passed : g'.usesOf r.passed = g.usesOf r.loaded

/-! ## The rule at a load -/

section Load

variable {field : Field} {type : ElementType} {loaded : ValueId}

/-- The result of a load. -/
theorem Consistent.exists_loaded (c : g.Consistent)
    (found : g.nodes.get? load = some ⟨.load field type, results⟩) :
    ∃ loaded, results = [loaded] :=
  List.length_eq_one_iff.mp (c.fits load _ found).length_results

/-- A node reads a load if it is among the readers of its result. -/
theorem Consistent.reads_load_iff (c : g.Consistent)
    (found : g.nodes.get? load = some ⟨.load field type, [loaded]⟩) :
    g.Reads n load ↔ n ∈ g.readers loaded := by
  rw [c.reads_iff found, mem_readers]
  simp

/-- A load is shared if the list of its readers has a second element. -/
theorem Consistent.shared_iff (c : g.Consistent)
    (found : g.nodes.get? load = some ⟨.load field type, [loaded]⟩) :
    g.Shared load ↔ ∃ a b rest, g.readers loaded = a :: b :: rest := by
  have nodup : (g.readers loaded).Nodup := nodup_eraseDups _
  rw [← exists_two_iff nodup, Shared]
  simp only [c.reads_load_iff found]

/-- The copy of the load and the root are in their places. -/
structure Planted (g g' : Region) (r : Rooting) : Prop where
  consistent : g'.Consistent
  revision : Revision g g' [] [r.copy, r.root] id
  copyAt : g'.nodes.get? r.copy = some ⟨.load r.field r.type, [r.copied]⟩
  rootAt : g'.nodes.get? r.root = some ⟨.apply [r.copied] (.identity r.type), [r.passed]⟩
  between : Precedes g'.order r.copy r.root
  behind : ∀ m, g.Reads m r.load → Precedes g'.order r.root m
  order : ∃ anchor front mid back, g.Anchored r.load anchor front mid back ∧
    g'.order = front ++ r.copy :: r.load :: (mid ++ r.root :: anchor :: back)
  fresh : g.values.get? r.copied = none ∧ g.values.get? r.passed = none
  uses : ∀ v, g'.usesOf v = g.usesOf v ++ ownSites r.root 0 [r.copied] v

/-- The first reader stands behind the load. -/
theorem exists_anchored (c : g.Consistent) (o : g.Ordered) {anchor : NodeId}
    (isReader : g.Reads anchor load)
    (least : ∀ m, g.Reads m load → g.order.idxOf anchor ≤ g.order.idxOf m) :
    ∃ front mid back, g.Anchored load anchor front mid back := by
  rcases (o anchor load isReader).split with ⟨front, mid, back, split⟩
  refine ⟨front, mid, back, split, isReader, fun m member reads => ?_⟩
  have nodup := c.order_nodup
  have early := least m reads
  rw [split, ← List.cons_append, ← List.append_assoc] at nodup early
  exact Nat.not_lt.mpr early (precedes_append_cons (not_mem_front nodup) member).2

/-- The split of the order at the load and at the anchor is at their only places. -/
theorem Anchored.absent {anchor : NodeId} {front mid back : List NodeId}
    (anchored : g.Anchored load anchor front mid back) (c : g.Consistent) :
    load ∉ front ∧ anchor ∉ front ++ load :: mid := by
  exact ⟨not_mem_front (anchored.order ▸ c.order_nodup), fun inFront =>
    anchored.first anchor inFront anchored.reads⟩

/-- The order after the copy is inserted before the load and the root before the first reader. -/
theorem Anchored.order_planted {g₁ g₂ : Region} {anchor copy root : NodeId}
    {front mid back : List NodeId} {kind kind' : NodeKind} {copies roots : List ValueId}
    (anchored : g.Anchored load anchor front mid back) (c : g.Consistent)
    (first : Inserted g g₁ copy (g.order.idxOf load) kind copies)
    (second : Inserted g₁ g₂ root (g₁.order.idxOf anchor) kind' roots)
    (anchorAt : g.nodes.get? anchor = some node) :
    g₂.order = front ++ copy :: load :: (mid ++ root :: anchor :: back) := by
  rcases anchored.absent c with ⟨notLoad, notAnchor⟩
  have order₁ : g₁.order = (front ++ copy :: load :: mid) ++ anchor :: back := by
    rw [first.order, anchored.order, insertIdx_idxOf notLoad]
    simp
  have absent : anchor ∉ front ++ copy :: load :: mid := by
    have old : anchor ≠ copy := first.ne_of_get? anchorAt
    simp only [List.mem_append, List.mem_cons, not_or] at notAnchor ⊢
    exact ⟨notAnchor.1, old, notAnchor.2⟩
  rw [second.order, order₁, insertIdx_idxOf absent]
  simp

/-- A node that stands nowhere before `anchor` stands behind the node that the second of two insertions puts
before `anchor`. -/
theorem Inserted.precedes_of_le {g₁ g₂ : Region} {anchor new new' : NodeId} {place : Nat}
    {kind kind' : NodeKind} {results' : List ValueId} {node' : Node}
    (first : Inserted g g₁ new place kind results) (c : g.Consistent)
    (le : place ≤ g.order.length) (c₁ : g₁.Consistent)
    (second : Inserted g₁ g₂ new' (g₁.order.idxOf anchor) kind' results')
    (anchorAt : g.nodes.get? anchor = some node) (nodeAt : g.nodes.get? m = some node')
    (notBefore : g.order.idxOf anchor ≤ g.order.idxOf m) : Precedes g₂.order new' m := by
  have rev := first.revision c le
  have live : anchor ∈ g.order := (c.mem_order anchor).mpr ⟨node, anchorAt⟩
  refine (second.new_precedes_iff c₁ List.idxOf_le_length (first.node_of_get? nodeAt)).mpr ?_
  rcases eq_or_ne anchor m with rfl | ne
  · exact Nat.le_refl _
  · have lt : g.order.idxOf anchor < g.order.idxOf m :=
      Nat.lt_of_le_of_ne notBefore fun equal => ne ((List.idxOf_inj live).mp equal)
    have before : Precedes g.order anchor m := ⟨(c.mem_order m).mpr ⟨node', nodeAt⟩, lt⟩
    exact Nat.le_of_lt ((rev.precedes anchor m (by simp) (by simp) (rev.not_made anchorAt)
      (rev.not_made nodeAt)).mpr before).2

/-- The copy goes where the load stands, and the root before the earliest reader of the load. -/
theorem exists_planted (c : g.Consistent) (o : g.Ordered)
    (found : g.nodes.get? load = some ⟨.load field type, [loaded]⟩) {anchor : NodeId}
    (isReader : g.Reads anchor load)
    (least : ∀ m, g.Reads m load → g.order.idxOf anchor ≤ g.order.idxOf m) :
    ∃ copy copied root passed g₁ g₂,
      (insertCopy (.before load) load).run g = .ok copy g₁ ∧
      g₁.result copy 0 = .ok copied ∧
      (insertApply (.before anchor) [copied] (.identity type)).run g₁ = .ok root g₂ ∧
      g₂.result root 0 = .ok passed ∧
      g.Planted g₂ ⟨load, copy, root, field, type, loaded, copied, passed⟩ := by
  rcases (c.mem_order anchor).mp (c.reads_live isReader).1 with ⟨anchorNode, anchorAt⟩
  rcases insertCopy_spec c found (c.resolve_before found) (by simp [NodeKind.operands]) with
    ⟨g₁, copy, copies, ran₁, c₁, ins₁⟩
  rcases c₁.exists_loaded ins₁.node_self with ⟨copied, rfl⟩
  have anchorAt₁ := ins₁.node_of_get? anchorAt
  have copyFirst : Precedes g₁.order copy anchor :=
    (ins₁.new_precedes_iff c List.idxOf_le_length anchorAt).mpr
      (Nat.le_of_lt (o anchor load isReader).2)
  have copiedType : g₁.typeOf copied = some type :=
    c₁.typeOf_result (i := 0) ins₁.node_self rfl
  have before₂ : ∀ v ∈ [copied], ∀ m, g₁.producerOf v = some m →
      g₁.order.idxOf m < g₁.order.idxOf anchor := by
    intro v member m produced
    rw [List.mem_singleton.mp member,
      c₁.producerOf_result ins₁.node_self List.mem_cons_self] at produced
    exact Option.some.inj produced ▸ copyFirst.2
  rcases insertApply_spec c₁ (Kernel.wellFormed_identity type) (c₁.resolve_before anchorAt₁)
    (.cons copiedType .nil) before₂ with ⟨g₂, root, roots, ran₂, c₂, ins₂⟩
  have single : roots.length = 1 := (c₂.fits root _ ins₂.node_self).length_results
  rcases List.length_eq_one_iff.mp single with ⟨passed, rfl⟩
  have rev₁ := ins₁.revision c List.idxOf_le_length
  have rev₂ := ins₂.revision c₁ List.idxOf_le_length
  refine ⟨copy, copied, root, passed, g₁, g₂, ran₁, result_of_get? ins₁.node_self rfl, ran₂,
    result_of_get? ins₂.node_self rfl, c₂, rev₁.trans rev₂ (by simp),
    ins₂.node_of_get? ins₁.node_self, ins₂.node_self, ?between, fun m reads => ?behind, ?order,
    ?fresh, fun v => ?uses⟩
  case between =>
    exact (ins₂.precedes_new_iff c₁ List.idxOf_le_length ins₁.node_self).mpr copyFirst.2
  case behind =>
    rcases (c.mem_order m).mp (c.reads_live reads).1 with ⟨node, nodeAt⟩
    exact ins₁.precedes_of_le c List.idxOf_le_length c₁ ins₂ anchorAt nodeAt (least m reads)
  case order =>
    rcases exists_anchored c o isReader least with ⟨front, mid, back, anchored⟩
    exact ⟨anchor, front, mid, back, anchored, anchored.order_planted c ins₁ ins₂ anchorAt⟩
  case fresh =>
    exact ⟨ins₁.fresh_results copied List.mem_cons_self,
      ins₁.none_of_none (ins₂.fresh_results passed List.mem_cons_self)⟩
  case uses =>
    rw [ins₂.uses, ins₁.uses, NodeKind.operands, ownSites_of_not_mem List.not_mem_nil, List.append_nil,
      NodeKind.operands]

namespace Planted

variable {g₂ g₃ : Region} (planted : g.Planted g₂ r)
  (loadAt : g.nodes.get? r.load = some ⟨.load r.field r.type, [r.loaded]⟩)

include planted loadAt

/-- The load is still there when the copy and the root have been inserted. -/
theorem load_kept : g₂.nodes.get? r.load = some ⟨.load r.field r.type, [r.loaded]⟩ := by
  rw [planted.revision.kept _ _ loadAt (by simp), Node.rename_id]

theorem copy_ne_load : r.copy ≠ r.load := fun same =>
  planted.revision.not_made loadAt (by simp [← same])

theorem root_ne_load : r.root ≠ r.load := fun same =>
  planted.revision.not_made loadAt (by simp [← same])

theorem sameType : List.Forall₂ g₂.SameType [r.loaded] [r.passed] :=
  have ofLoad := planted.consistent.typeOf_result (i := 0) (planted.load_kept loadAt) rfl
  have ofRoot := planted.consistent.typeOf_result (i := 0) planted.rootAt rfl
  .cons ⟨r.type, ofLoad, ofRoot⟩ .nil

theorem passed_apart : ∀ v ∈ [r.passed], v ∉ [r.loaded] := fun _ ofRoot =>
  planted.consistent.not_mem_results planted.rootAt (planted.load_kept loadAt)
    (planted.root_ne_load loadAt) ofRoot

theorem copied_apart : r.copied ∉ [r.loaded] :=
  planted.consistent.not_mem_results planted.copyAt (planted.load_kept loadAt)
    (planted.copy_ne_load loadAt) List.mem_cons_self

theorem loaded_apart : r.loaded ∉ [r.copied] :=
  planted.consistent.not_mem_results (planted.load_kept loadAt) planted.copyAt
    (planted.copy_ne_load loadAt).symm List.mem_cons_self

variable (c : g.Consistent) (replaced : Replaced g₂ g₃ r.load [r.loaded] [r.passed])

include c replaced

/-- The root alone reads the copy. -/
theorem uses_copied : g₃.usesOf r.copied = [.operand r.root 0] := by
  have c₂ := planted.consistent
  have notPassed : r.copied ∉ [r.passed] := c₂.not_mem_results planted.copyAt planted.rootAt
    planted.between.ne List.mem_cons_self
  rw [replaced.uses _ (planted.copied_apart loadAt), takenOver_of_not_mem notPassed,
    List.append_nil, c₂.filter_usesOf (planted.load_kept loadAt) List.not_mem_nil, planted.uses,
    c.usesOf_of_none planted.fresh.1, ownSites_cons, if_pos rfl]
  rfl

/-- The root takes over the uses of the load. -/
theorem uses_passed : g₃.usesOf r.passed = g.usesOf r.loaded := by
  have c₂ := planted.consistent
  have loadAt₂ := planted.load_kept loadAt
  have notCopied : r.passed ∉ [r.copied] := c₂.not_mem_results planted.rootAt planted.copyAt
    planted.between.ne.symm List.mem_cons_self
  rw [replaced.uses _ (planted.passed_apart loadAt _ List.mem_cons_self),
    takenOver_getElem? (List.nodup_singleton _) (i := 0) rfl rfl, planted.uses r.passed,
    c.usesOf_of_none planted.fresh.2, ownSites_of_not_mem notCopied, List.nil_append,
    List.nil_append, c₂.filter_usesOf loadAt₂ List.not_mem_nil, planted.uses,
    ownSites_of_not_mem (planted.loaded_apart loadAt), List.append_nil]

/-- The copy stands where the load stood. -/
theorem order_rooted : ∃ anchor front mid back, g.Anchored r.load anchor front mid back ∧
    g₃.order = front ++ r.copy :: (mid ++ r.root :: anchor :: back) := by
  rcases planted.order with ⟨anchor, front, mid, back, anchored, order⟩
  have absent : r.load ∉ front ++ [r.copy] := by
    simpa using ⟨(anchored.absent c).1, (planted.copy_ne_load loadAt).symm⟩
  refine ⟨anchor, front, mid, back, anchored, ?_⟩
  rw [replaced.order, order, List.append_cons, erase_append_cons absent, ← List.append_cons]

omit replaced in
/-- The load is replaced by the root. -/
theorem exists_rooted (o : g.Ordered) (shared : g.Shared r.load) :
    ∃ g₃, (replaceNode r.load [r.passed]).run g₂ = .ok () g₃ ∧ g.Rooted g₃ r := by
  have c₂ := planted.consistent
  have loadAt₂ := planted.load_kept loadAt
  have sameType := planted.sameType loadAt
  have apart := planted.passed_apart loadAt
  have copyRemains : r.copy ∉ [r.load] := by simpa using planted.copy_ne_load loadAt
  have rootRemains : r.root ∉ [r.load] := by simpa using planted.root_ne_load loadAt
  rcases replaceNode_run c₂ loadAt₂ sameType apart with ⟨g₃, ran₃, c₃, replaced⟩
  have rev₃ := replaced.revision c₂ loadAt₂ sameType apart
  refine ⟨g₃, ran₃, c₃, loadAt, shared, planted.revision.trans rev₃ (by simp),
    rev₃.kept _ _ planted.copyAt copyRemains, ?rootAt, ?between, fun m reads => ?behind,
    planted.order_rooted loadAt c replaced, planted.uses_copied loadAt c replaced,
    planted.uses_passed loadAt c replaced⟩
  case rootAt =>
    rw [rev₃.kept _ _ planted.rootAt rootRemains, Node.rename_of_fixed]
    intro v operand
    rw [List.mem_singleton.mp operand]
    exact redirectAll_of_not_mem (planted.copied_apart loadAt)
  case between =>
    rw [rev₃.precedes _ _ copyRemains rootRemains (by simp) (by simp)]
    exact planted.between
  case behind =>
    have remains : m ∉ [r.load] := by simpa using (o m r.load reads).ne.symm
    rw [rev₃.precedes _ m rootRemains remains (by simp) (by simp)]
    exact planted.behind m reads

end Planted

end Load

/-! ## The whole rule -/

namespace Rooted

variable (rooted : g.Rooted g' r)

include rooted

/-- The copy reads nothing. -/
theorem not_reads_copy : ¬ g'.Reads r.copy m := by
  intro reads
  rcases reads with ⟨node, v, found, operand, -⟩
  rw [rooted.copyAt, Option.some.injEq] at found
  rw [← found] at operand
  cases operand

/-- The root reads the copy only. -/
theorem reads_root_iff : g'.Reads r.root m ↔ m = r.copy := by
  have produced := rooted.consistent.producerOf_result rooted.copyAt List.mem_cons_self
  constructor
  · intro reads
    rcases reads with ⟨node, v, found, operand, produced'⟩
    rw [rooted.rootAt, Option.some.injEq] at found
    rw [← found] at operand
    rw [List.mem_singleton.mp operand, produced, Option.some.injEq] at produced'
    exact produced'.symm
  · intro same
    rw [same]
    exact ⟨_, r.copied, rooted.rootAt, List.mem_cons_self, produced⟩

theorem follows (c : g.Consistent) : Follows g g' [r.load] r.substitution r.heir := by
  refine rooted.revision.follows_of c (fun m remains => if_neg (by simpa using remains)) ?_
  intro m member v produced _
  rw [List.mem_singleton] at member
  subst member
  have result := (c.mem_results_iff rooted.loadAt).mpr produced
  rw [List.mem_singleton.mp result, r.substitution_loaded, Rooting.heir, if_pos rfl]
  exact rooted.consistent.producerOf_result rooted.rootAt List.mem_cons_self

theorem ordered (c : g.Consistent) (o : g.Ordered) : g'.Ordered := by
  refine rooted.revision.ordered (rooted.follows c) c o
    (fun m remains => if_neg (by simpa using remains)) ?taken ?new
  case taken =>
    intro n m _ member reads
    rw [List.mem_singleton] at member
    rw [Rooting.heir, if_pos member]
    exact rooted.behind n (member ▸ reads)
  case new =>
    intro n member m reads
    rcases List.mem_cons.mp member with same | member
    · exact absurd (same ▸ reads) rooted.not_reads_copy
    · rw [List.mem_singleton.mp member] at reads ⊢
      rw [rooted.reads_root_iff.mp reads]
      exact rooted.between

end Rooted

/-- Where the rule matches, it rewrites. -/
theorem introduceRoot_rewrites (c : g.Consistent) (o : g.Ordered)
    (isMatch : Rule.Matches g .rootIntroduction n) :
    ∃ g' r, r.load = n ∧ (introduceRoot n).run g = .ok (.rewritten [r.copy, r.root]) g' ∧
      g.Rooted g' r := by
  rcases isMatch with ⟨isLoad, shared⟩
  rcases Option.map_eq_some_iff.mp isLoad with ⟨⟨kind, results⟩, found, kindTag⟩
  cases kind with
  | apply => cases kindTag
  | load field type =>
  rcases c.exists_loaded found with ⟨loaded, rfl⟩
  rcases (c.shared_iff found).mp shared with ⟨first, second, rest, readersEq⟩
  have reader {m : NodeId} : g.Reads m n ↔ m ∈ first :: second :: rest := by
    rw [c.reads_load_iff found, readersEq]
  have live {m : NodeId} (member : m ∈ first :: second :: rest) : m ∈ g.order :=
    (c.reads_live (reader.mpr member)).1
  rcases c.earliest_eq_ok (live List.mem_cons_self) fun m member =>
    live (List.mem_cons_of_mem first member) with ⟨anchor, answered, isReader, least⟩
  rcases exists_planted c o found (reader.mpr isReader) fun m reads => least m (reader.mp reads) with
    ⟨copy, copied, root, passed, g₁, g₂, ran₁, copiedEq, ran₂, passedEq, planted⟩
  rcases planted.exists_rooted found c o shared with ⟨g₃, ran₃, rooted⟩
  refine ⟨g₃, _, rfl, ?_, rooted⟩
  unfold introduceRoot
  rw [run_get_bind, kind_of_get? found, run_lift_ok_bind]
  dsimp only
  rw [results_of_get? found, run_lift_ok_bind]
  dsimp only
  rw [readersEq]
  dsimp only
  rw [answered, run_lift_ok_bind, run_bind_ok ran₁, run_get_bind, copiedEq, run_lift_ok_bind,
    run_bind_ok ran₂, run_get_bind, passedEq, run_lift_ok_bind, run_bind_ok ran₃]
  rfl

/-- Where the rule does not match, it answers so and changes nothing. -/
theorem introduceRoot_refuses (c : g.Consistent) (found : g.nodes.get? n = some node)
    (mismatch : ¬ Rule.Matches g .rootIntroduction n) :
    (introduceRoot n).run g = .ok .noMatch g := by
  rcases node with ⟨kind, results⟩
  unfold introduceRoot
  rw [run_get_bind, kind_of_get? found, run_lift_ok_bind]
  cases kind with
  | apply => rfl
  | load field type =>
    rcases c.exists_loaded found with ⟨loaded, rfl⟩
    have unshared : ¬ g.Shared n := fun shared => mismatch ⟨tagOf_of_get? found, shared⟩
    rw [c.shared_iff found] at unshared
    dsimp only
    rw [results_of_get? found, run_lift_ok_bind]
    dsimp only
    split
    case h_1 first second rest readers => exact absurd ⟨first, second, rest, readers⟩ unshared
    case h_2 => rfl

end Region

end KernelFusion
