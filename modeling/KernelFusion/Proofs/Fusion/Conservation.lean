import KernelFusion.Proofs.Fusion.Accounting
import KernelFusion.Proofs.Fusion.Fixpoint

/-!
# What fusion keeps

The loads of a region outlive every rewrite. Root introduction puts a clone in the place of a load, and the other
rules leave loads alone, so a sequence of rewrites says which load of the new region stands for which of the old
one (`Region.Traced`). The two have the same field and type, and the new one is not read by more nodes: the clone
is read by the root only, inlining makes one reader of two, and rerouting has two new readers stand for two old ones
(`Region.Carries`).

A root is introduced only where a load has two readers, and its clone has one. So there are no more introductions
than loads with several readers at the start (`fuse_conserves`).
-/

namespace KernelFusion

/-- The field and the type of a load. -/
def NodeKind.load? : NodeKind → Option (Field × ElementType)
  | .load field type => some (field, type)
  | .apply .. => none

/-- The node that stands for a load after a rule has rewritten at a node: root introduction puts the first of the
nodes that it creates in the place of the load. -/
def Rule.follow : Rule → NodeId → List NodeId → NodeId → NodeId
  | .rootIntroduction, n, clone :: _, m => if m = n then clone else m
  | _, _, _, m => m

theorem Rule.follow_root (n clone root m : NodeId) :
    Rule.rootIntroduction.follow n [clone, root] m = if m = n then clone else m := rfl

/-- No two of the nodes that were there before are followed to the same node. -/
theorem Rule.follow_root_inj {n clone root m₁ m₂ : NodeId} (old₁ : m₁ ≠ clone) (old₂ : m₂ ≠ clone)
    (equal : Rule.rootIntroduction.follow n [clone, root] m₁ =
      Rule.rootIntroduction.follow n [clone, root] m₂) : m₁ = m₂ := by
  rw [follow_root, follow_root] at equal
  split at equal
  case isTrue same₁ =>
    split at equal
    case isTrue same₂ => exact same₁.trans same₂.symm
    case isFalse => exact absurd equal.symm old₂
  case isFalse =>
    split at equal
    case isTrue => exact absurd equal old₁
    case isFalse => exact equal

namespace Region

variable {g g' : Region} {n m : NodeId} {rule : Rule} {gone made created : List NodeId}
  {f : ValueId → ValueId} {heir φ : NodeId → NodeId}

open scoped Classical

/-! ## Loads -/

/-- The fields and types of the loads. -/
def loads (g : Region) : List (Field × ElementType) :=
  g.nodes.toList.filterMap fun e => e.2.kind.load?

/-- The field and the type of a node, if it is a load. -/
def loadAt? (g : Region) (m : NodeId) : Option (Field × ElementType) :=
  (g.nodes.get? m).bind fun node => node.kind.load?

theorem tagOf_eq_load_iff : g.tagOf m = some .load ↔ ∃ x, g.loadAt? m = some x := by
  rw [tagOf, loadAt?]
  cases g.nodes.get? m with
  | none => simp
  | some node =>
    rcases node with ⟨_ | _, results⟩
    · simp [NodeKind.tag, NodeKind.load?]
    · simp [NodeKind.tag, NodeKind.load?]

/-- The loads of a region, by the nodes that are loads. -/
theorem loads_eq : g.loads = (g.nodesOf .load).filterMap g.loadAt? := by
  have each (e : NodeId × Node) (member : e ∈ g.nodes.toList) :
      e.2.kind.load? = if e.2.kind.tag == .load then g.loadAt? e.1 else none := by
    rw [loadAt?, Arena.mem_toList_iff.mp member, Option.bind_some]
    rcases e with ⟨n, ⟨_ | _, results⟩⟩
    · rfl
    · rfl
  rw [loads, List.filterMap_congr each, nodesOf, List.filterMap_map, List.filterMap_filter]
  rfl

/-- A node that is neither a new load nor one that went is a load as before. -/
theorem Reshaped.loadAt?_eq (reshaped : g.Reshaped g' gone made f heir) {node : Node}
    (found : g.nodes.get? m = some node) (remains : m ∉ gone) : g'.loadAt? m = g.loadAt? m := by
  rw [loadAt?, loadAt?, found, reshaped.revision.kept m node found remains]
  rcases node with ⟨_ | _, results⟩
  · rfl
  · rfl

/-- A load is no new node. -/
theorem Reshaped.not_made_of_load (reshaped : g.Reshaped g' gone made f heir)
    (isLoad : g.tagOf m = some .load) : m ∉ made := by
  rcases Option.map_eq_some_iff.mp isLoad with ⟨node, found, -⟩
  exact reshaped.revision.not_made found

/-- A load that stays loads the same field. -/
theorem Reshaped.loadAt?_kept (reshaped : g.Reshaped g' gone made f heir) {x : Field × ElementType}
    (found : g.loadAt? m = some x) (remains : m ∉ gone) : g'.loadAt? m = some x := by
  rcases Option.bind_eq_some_iff.mp found with ⟨node, foundNode, -⟩
  exact (reshaped.loadAt?_eq foundNode remains).trans found

/-- A load that is not new was a load before. -/
theorem Reshaped.load_of_old (reshaped : g.Reshaped g' gone made f heir) (sound' : g'.Sound)
    (isLoad : g'.tagOf m = some .load) (old : m ∉ made) : m ∉ gone ∧ g.tagOf m = some .load := by
  rcases Option.map_eq_some_iff.mp isLoad with ⟨node', found', -⟩
  rcases reshaped.exists_old (sound'.consistent.mem_order_of_get? found') sound'.consistent old with
    ⟨remains, node, found⟩
  exact ⟨remains, (reshaped.tagOf_eq found remains).symm.trans isLoad⟩

/-! ## Readers -/

/-- How many nodes read a node; only applies do. -/
noncomputable def fanout (g : Region) (m : NodeId) : Nat :=
  g.total fun n => if g.Reads n m then 1 else 0

theorem fanout_eq : g.fanout m = (g.order.filter fun n => g.Reads n m).length := by
  rw [length_filter_eq_sum]
  rfl

/-- A load is shared if more than one node reads it. -/
theorem Consistent.shared_iff_fanout (c : g.Consistent) : g.Shared m ↔ 1 < g.fanout m := by
  have two := exists_two_iff (c.order_nodup.filter fun n => g.Reads n m)
  have readers (n : NodeId) : n ∈ g.order.filter (fun n => g.Reads n m) ↔ g.Reads n m := by
    rw [List.mem_filter, decide_eq_true_iff, and_iff_right_iff_imp]
    exact fun reads => (c.reads_live reads).1
  simp only [readers] at two
  rw [Shared, two, fanout_eq]
  constructor
  · intro split
    rcases split with ⟨a, b, rest, split⟩
    rw [split, List.length_cons, List.length_cons]
    omega
  · intro several
    cases split : g.order.filter fun n => g.Reads n m with
    | nil => simp [split] at several
    | cons a others =>
      cases others with
      | nil => simp [split] at several
      | cons b rest => exact ⟨a, b, rest, rfl⟩

/-- A rewrite that brings in two nodes at most does not give an old node more readers. -/
theorem Reshaped.fanout_le (reshaped : g.Reshaped g' gone made f heir) (sound : g.Sound)
    (sound' : g'.Sound) (pair : made.length ≤ 2) (remains : m ∉ gone) (old : m ∉ made) :
    g'.fanout m ≤ g.fanout m := by
  have others : ((g.others gone).map fun n => if g'.Reads n m then 1 else 0) =
      (g.others gone).map fun n => if g.Reads n m then 1 else 0 := by
    refine List.map_congr_left fun n other => ?_
    rcases mem_others.mp other with ⟨live, remains'⟩
    rcases (sound.consistent.mem_order n).mp live with ⟨node, found⟩
    rw [reshaped.reads_old_iff found remains' remains old]
  have came (n : NodeId) : n ∈ made.filter (fun n => g'.Reads n m) ↔ n ∈ made ∧ g'.Reads n m := by
    rw [List.mem_filter, decide_eq_true_iff]
  have went (n : NodeId) : n ∈ gone.filter (fun n => g.Reads n m) ↔ n ∈ gone ∧ g.Reads n m := by
    rw [List.mem_filter, decide_eq_true_iff]
  have countMade := length_filter_eq_sum (fun n => g'.Reads n m) made
  have countGone := length_filter_eq_sum (fun n => g.Reads n m) gone
  rw [fanout, fanout, reshaped.total_eq' sound sound', reshaped.total_eq sound, others, ← countMade,
    ← countGone]
  -- At most two new nodes read it, and each stands for a reader of its own that went.
  refine Nat.add_le_add_right ?_ _
  match split : made.filter fun n => g'.Reads n m with
  | [] => exact Nat.zero_le _
  | [a] =>
    rcases (came a).mp (split ▸ List.mem_cons_self) with ⟨isMade, reads⟩
    rcases reshaped.source a isMade m old reads with ⟨a₀, isGone, former⟩
    exact List.length_pos_of_mem ((went a₀).mpr ⟨isGone, former⟩)
  | x :: y :: rest =>
    rcases (exists_two_iff (reshaped.nodup_made.filter fun n => g'.Reads n m)).mpr
      ⟨x, y, rest, split⟩ with ⟨a, b, ne, memberA, memberB⟩
    rcases (came a).mp memberA with ⟨madeA, readsA⟩
    rcases (came b).mp memberB with ⟨madeB, readsB⟩
    rcases reshaped.sources a madeA b madeB ne m old readsA readsB with
      ⟨a₀, goneA, b₀, goneB, ne₀, formerA, formerB⟩
    rcases (exists_two_iff (reshaped.nodup_gone.filter fun n => g.Reads n m)).mp
      ⟨a₀, b₀, ne₀, (went a₀).mpr ⟨goneA, formerA⟩, (went b₀).mpr ⟨goneB, formerB⟩⟩ with
      ⟨a₁, b₁, rest₁, split₁⟩
    calc (x :: y :: rest).length
        = (made.filter fun n => g'.Reads n m).length := by rw [split]
      _ ≤ made.length := List.length_filter_le _ _
      _ ≤ 2 := pair
      _ ≤ (gone.filter fun n => g.Reads n m).length := by
        rw [split₁, List.length_cons, List.length_cons]
        omega

/-! ## Loads that live on -/

/-- The loads of a region live on in another, each with its field and type, and none has more readers. -/
structure Carries (g g' : Region) (φ : NodeId → NodeId) : Prop where
  same : ∀ m x, g.loadAt? m = some x → g'.loadAt? (φ m) = some x
  injective : ∀ m₁ m₂, g.tagOf m₁ = some .load → g.tagOf m₂ = some .load → φ m₁ = φ m₂ → m₁ = m₂
  surjective : ∀ m', g'.tagOf m' = some .load → ∃ m, g.tagOf m = some .load ∧ φ m = m'
  fanout : ∀ m, g.tagOf m = some .load → g'.fanout (φ m) ≤ g.fanout m

namespace Carries

theorem refl : Carries g g id :=
  ⟨fun _ _ found => found, fun _ _ _ _ same => same, fun m isLoad => ⟨m, isLoad, rfl⟩,
    fun _ _ => Nat.le_refl _⟩

theorem isLoad (carries : Carries g g' φ) (isLoad : g.tagOf m = some .load) :
    g'.tagOf (φ m) = some .load := by
  rcases tagOf_eq_load_iff.mp isLoad with ⟨x, found⟩
  exact tagOf_eq_load_iff.mpr ⟨x, carries.same m x found⟩

theorem trans {g'' : Region} {ψ : NodeId → NodeId} (first : Carries g g' φ)
    (second : Carries g' g'' ψ) : Carries g g'' (ψ ∘ φ) where
  same m x found := second.same _ x (first.same m x found)
  injective m₁ m₂ isLoad₁ isLoad₂ equal :=
    first.injective m₁ m₂ isLoad₁ isLoad₂
      (second.injective _ _ (first.isLoad isLoad₁) (first.isLoad isLoad₂) equal)
  surjective m'' isLoad'' := by
    rcases second.surjective m'' isLoad'' with ⟨m', isLoad', rfl⟩
    rcases first.surjective m' isLoad' with ⟨m, isLoad, rfl⟩
    exact ⟨m, isLoad, rfl⟩
  fanout m isLoad := (second.fanout _ (first.isLoad isLoad)).trans (first.fanout m isLoad)

/-- The fields and types of the loads stay, each as often. -/
theorem perm_loads (carries : Carries g g' φ) : g'.loads.Perm g.loads := by
  have nodup : ((g.nodesOf .load).map φ).Nodup := by
    refine nodup_nodesOf.map_on fun m₁ member₁ m₂ member₂ equal => ?_
    exact carries.injective m₁ m₂ (mem_nodesOf.mp member₁) (mem_nodesOf.mp member₂) equal
  have perm : (g'.nodesOf .load).Perm ((g.nodesOf .load).map φ) := by
    refine (List.perm_ext_iff_of_nodup nodup_nodesOf nodup).mpr fun m' => ?_
    simp only [List.mem_map, mem_nodesOf]
    constructor
    · exact carries.surjective m'
    · intro former
      rcases former with ⟨m, isLoad, rfl⟩
      exact carries.isLoad isLoad
  have labels : ((g.nodesOf .load).map φ).filterMap g'.loadAt? = g.loads := by
    rw [loads_eq, List.filterMap_map]
    refine List.filterMap_congr fun m member => ?_
    rcases tagOf_eq_load_iff.mp (mem_nodesOf.mp member) with ⟨x, found⟩
    rw [Function.comp_apply, carries.same m x found, found]
  rw [loads_eq (g := g'), ← labels]
  exact perm.filterMap _

end Carries

/-- A rewrite among applies leaves the loads where they are. -/
theorem Reshaped.carries (reshaped : g.Reshaped g' gone made f heir) (sound : g.Sound)
    (sound' : g'.Sound) (pair : made.length ≤ 2) (went : ∀ m ∈ gone, g.tagOf m = some .apply)
    (came : ∀ m ∈ made, g'.tagOf m = some .apply) : Carries g g' id := by
  have remains {m : NodeId} (isLoad : g.tagOf m = some .load) : m ∉ gone := fun member => by
    cases isLoad.symm.trans (went m member)
  refine ⟨fun m x found => ?same, fun _ _ _ _ equal => equal, fun m' isLoad => ?surjective,
    fun m isLoad => ?fanout⟩
  case same => exact reshaped.loadAt?_kept found (remains (tagOf_eq_load_iff.mpr ⟨x, found⟩))
  case surjective =>
    have old : m' ∉ made := fun member => by cases isLoad.symm.trans (came m' member)
    exact ⟨m', (reshaped.load_of_old sound' isLoad old).2, rfl⟩
  case fanout =>
    exact reshaped.fanout_le sound sound' pair (remains isLoad) (reshaped.not_made_of_load isLoad)

/-- The clone has one reader, and the load had two at least. -/
theorem Rooted.fanout_le {r : Rooting} (rooted : g.Rooted g' r) (sound : g.Sound)
    (sound' : g'.Sound) : g'.fanout r.copy ≤ g.fanout r.load := by
  have unshared : ¬ g'.Shared r.copy := by
    intro shared
    rcases shared with ⟨a, b, ne, readsA, readsB⟩
    exact ne ((rooted.reads_copy sound sound' readsA).trans
      (rooted.reads_copy sound sound' readsB).symm)
  rw [sound'.consistent.shared_iff_fanout] at unshared
  have shared := sound.consistent.shared_iff_fanout.mp rooted.isShared
  omega

/-- Root introduction puts the clone in the place of the load. -/
theorem Rooted.carries {r : Rooting} (rooted : g.Rooted g' r) (sound : g.Sound) (sound' : g'.Sound) :
    Carries g g' (Rule.rootIntroduction.follow r.load [r.copy, r.root]) := by
  have reshaped := rooted.reshaped sound
  have loaded : g.loadAt? r.load = some (r.field, r.type) := by
    rw [loadAt?, rooted.loadAt]
    rfl
  have cloned : g'.loadAt? r.copy = some (r.field, r.type) := by
    rw [loadAt?, rooted.copyAt]
    rfl
  have old {m : NodeId} (isLoad : g.tagOf m = some .load) : m ≠ r.copy :=
    List.ne_of_not_mem_cons (reshaped.not_made_of_load isLoad)
  refine ⟨fun m x found => ?same, fun m₁ m₂ isLoad₁ isLoad₂ => ?injective,
    fun m' isLoad => ?surjective, fun m isLoad => ?fanout⟩
  case same =>
    rw [Rule.follow_root]
    split
    case isTrue same => rwa [cloned, ← loaded, ← same]
    case isFalse other => exact reshaped.loadAt?_kept found (by simpa using other)
  case injective => exact Rule.follow_root_inj (old isLoad₁) (old isLoad₂)
  case surjective =>
    by_cases clone : m' = r.copy
    · exact ⟨r.load, tagOf_of_get? rooted.loadAt, by rw [Rule.follow_root, if_pos rfl, clone]⟩
    · have notRoot : m' ≠ r.root := by
        intro same
        rw [same, tagOf_of_get? rooted.rootAt] at isLoad
        cases isLoad
      rcases reshaped.load_of_old sound' isLoad (by simp [clone, notRoot]) with ⟨remains, former⟩
      exact ⟨m', former, by rw [Rule.follow_root, if_neg (by simpa using remains)]⟩
  case fanout =>
    rw [Rule.follow_root]
    split
    case isTrue same => exact same ▸ rooted.fanout_le sound sound'
    case isFalse other =>
      exact reshaped.fanout_le sound sound' (Nat.le_refl 2) (by simpa using other)
        (reshaped.not_made_of_load isLoad)

/-- What every rewrite does to the loads. -/
theorem Rewrote.carries (rewrote : g.Rewrote g' rule n created) (sound : g.Sound) :
    Carries g g' (rule.follow n created) := by
  have sound' := rewrote.sound sound
  cases rewrote with
  | rooted rooted => exact rooted.carries sound sound'
  | @rerouted r rerouted =>
    have able := rerouted.reroutable
    exact (rerouted.reshaped sound).carries sound sound' (Nat.le_refl 2)
      (List.forall_mem_cons.mpr ⟨tagOf_of_get? able.consumerAt,
        List.forall_mem_singleton.mpr (tagOf_of_get? able.producerAt)⟩)
      (List.forall_mem_cons.mpr ⟨tagOf_of_get? rerouted.copyAt,
        List.forall_mem_singleton.mpr (tagOf_of_get? rerouted.rebuiltAt)⟩)
  | @merged r merged =>
    have able := merged.inlinable
    exact (merged.reshaped sound).carries sound sound' (Nat.le_succ 1)
      (List.forall_mem_cons.mpr ⟨tagOf_of_get? able.consumerAt,
        List.forall_mem_singleton.mpr (tagOf_of_get? able.producerAt)⟩)
      (List.forall_mem_singleton.mpr (tagOf_of_get? merged.mergedAt))

/-! ## Sequences of rewrites -/

/-- A region turns into another by rewrites; each node of the first is followed through the clones that are put in
its place. -/
inductive Traced (g : Region) : Region → (NodeId → NodeId) → Prop
  | refl : Traced g g id
  | rewrite {g₁ g' : Region} {φ : NodeId → NodeId} {rule : Rule} {n : NodeId}
    {created : List NodeId} : Traced g g₁ φ →
    (rule.apply n).run g₁ = .ok (.rewritten created) g' → Traced g g' (rule.follow n created ∘ φ)

/-- A trace carries the loads, by induction on its rewrites. -/
theorem Traced.carries (traced : Traced g g' φ) (sound : g.Sound) : g'.Sound ∧ Carries g g' φ := by
  induction traced with
  | refl => exact ⟨sound, .refl⟩
  | rewrite _ ran ih =>
    rcases ih with ⟨sound₁, carries⟩
    rcases sound₁.rewrote ran with ⟨noMatch, -⟩ | ⟨created', same, rewrote⟩
    · cases noMatch
    · cases same
      exact ⟨rewrote.sound sound₁, carries.trans (rewrote.carries sound₁)⟩

/-- A root is introduced at a load with several readers, and no rule makes another such load. -/
theorem Rewrote.roots (rewrote : g.Rewrote g' rule n created) (sound : g.Sound) (tally : Tally) :
    g'.sharedLoads + (tally.record rule).roots ≤ g.sharedLoads + tally.roots := by
  have sound' := rewrote.sound sound
  cases rewrote with
  | rooted rooted =>
    have fewer := (rooted.counts sound sound').1
    dsimp only [Tally.record]
    omega
  | rerouted rerouted =>
    have atMost := (rerouted.counts sound sound').1
    dsimp only [Tally.record]
    omega
  | merged merged =>
    have atMost := (merged.counts sound sound').1
    dsimp only [Tally.record]
    omega

/-- The shared loads, counted by their readers. -/
theorem Consistent.sharedLoads_eq (c : g.Consistent) :
    g.sharedLoads = (g.nodesOf .load).countP fun m => 1 < g.fanout m := by
  have perm : (g.order.filter fun n => g.tagOf n = some .load ∧ g.Shared n).Perm
      ((g.nodesOf .load).filter fun m => 1 < g.fanout m) := by
    refine (List.perm_ext_iff_of_nodup (c.order_nodup.filter _) (nodup_nodesOf.filter _)).mpr
      fun n => ?_
    rw [List.mem_filter, List.mem_filter, mem_nodesOf, decide_eq_true_iff, decide_eq_true_iff,
      c.shared_iff_fanout]
    refine and_iff_right_of_imp fun both => ?_
    rcases Option.map_eq_some_iff.mp both.1 with ⟨node, found, -⟩
    exact c.mem_order_of_get? found
  rw [List.countP_eq_length_filter, ← perm.length_eq, length_filter_eq_sum]
  rfl

end Region

/-! ## Runs -/

namespace Driver

variable {σ : Type} {d : Driver σ} {s s' : Session σ} {rules : List Rule} {g : Region} {bound : Nat}

theorem Stepped.traced {moved : Bool} (stepped : Stepped rules s (.ok (some moved) s'))
    (traced : ∃ φ, Region.Traced g s.region φ) : ∃ φ, Region.Traced g s'.region φ := by
  cases stepped with
  | passed => exact traced
  | unmatched => exact traced
  | rewritten _ _ _ _ _ applied =>
    rcases traced with ⟨φ, traced⟩
    exact ⟨_, .rewrite traced applied⟩

theorem Steps.traced (steps : d.Steps s s') (runs : d.Runs rules) (sound : s.region.Sound) :
    ∃ φ, Region.Traced s.region s'.region φ :=
  (steps.keeps runs (fun s' => ∃ φ, Region.Traced s.region s'.region φ)
    (fun _ _ _ _ traced step => step.traced traced) sound ⟨id, .refl⟩).2

theorem Course.traced (course : d.Course s s') (runs : d.Runs rules) (sound : s.region.Sound) :
    ∃ φ, Region.Traced s.region s'.region φ :=
  (course.keeps runs (fun s' => ∃ φ, Region.Traced s.region s'.region φ)
    (fun _ _ _ _ traced step => step.traced traced) (fun _ traced => traced) sound ⟨id, .refl⟩).2

/-- What is left to introduce, with what was introduced, does not grow. -/
theorem Stepped.roots {moved : Bool} (stepped : Stepped rules s (.ok (some moved) s'))
    (sound : s.region.Sound) (within : s.region.sharedLoads + s.tally.roots ≤ bound) :
    s'.region.sharedLoads + s'.tally.roots ≤ bound := by
  cases stepped with
  | passed => exact within
  | unmatched => exact within
  | rewritten _ _ _ rewrote _ _ => exact (rewrote.roots sound (counted s.tally)).trans within

/-- Every root that is introduced is paid with a shared load. -/
theorem Course.roots (course : d.Course s s') (runs : d.Runs rules) (sound : s.region.Sound) :
    s'.region.sharedLoads + s'.tally.roots ≤ s.region.sharedLoads + s.tally.roots :=
  (course.keeps runs (fun s' => s'.region.sharedLoads + s'.tally.roots ≤
      s.region.sharedLoads + s.tally.roots)
    (fun _ _ _ sound within step => step.roots sound within) (fun _ within => within) sound
    (Nat.le_refl _)).2

end Driver

/-- What fusion does to the loads. -/
theorem Fused.conserves {settings : Settings} {g g' : Region} {tally : Tally}
    (fused : Fused settings g (.ok tally g')) (sound : g.Sound) :
    (∃ φ, Region.Traced g g' φ) ∧ tally.roots ≤ g.sharedLoads := by
  cases fused with
  | noop => exact ⟨⟨id, .refl⟩, Nat.zero_le _⟩
  | done _ course =>
    have within := course.roots settings.runs_driver (s := startOf g) sound
    exact ⟨course.traced settings.runs_driver (s := startOf g) sound,
      (Nat.le_add_left _ _).trans within⟩

/-- Fusion that ends with a result keeps the fields and types of the loads, and its tally accounts for the applies.
At every point of the run the loads are those of the start, each with its field and type and with no more readers,
and from each point to a later one as well. So no more roots are introduced than there are loads that several nodes
read at the start. -/
theorem fuse_conserves {g : Region} (built : g.Built) (verified : g.verify = .ok ())
    (settings : Settings) {tally : Tally} {g' : Region}
    (ran : (fuse settings).run g = .ok tally g') :
    g'.loads.Perm g.loads ∧
      g'.count .apply + tally.inlined = g.count .apply + tally.roots ∧
      (∃ φ, Region.Traced g g' φ ∧ Region.Carries g g' φ) ∧
      (∀ s s₁ s₂ : Session Unit, settings.driver.Course (startOf g) s →
        settings.driver.Steps (Driver.seeded s) s₁ → settings.driver.Steps s₁ s₂ →
        (∃ φ, Region.Traced g s₁.region φ ∧ Region.Carries g s₁.region φ) ∧
          ∃ φ, Region.Traced s₁.region s₂.region φ ∧ Region.Carries s₁.region s₂.region φ) ∧
      tally.roots ≤ (g.nodesOf .load).countP fun m => 1 < g.fanout m := by
  have sound : g.Sound := built.consistent.sound_iff.mpr verified
  have runs := settings.runs_driver
  have fused := fused sound settings
  rw [ran] at fused
  rcases fused.conserves sound with ⟨⟨φ, traced⟩, roots⟩
  have carries := (traced.carries sound).2
  refine ⟨carries.perm_loads, (fused.accounts sound).2, ⟨φ, traced, carries⟩,
    fun s s₁ s₂ course steps later => ?_, sound.consistent.sharedLoads_eq ▸ roots⟩
  have course₁ : settings.driver.Course (startOf g) s₁ := .sweep course steps
  rcases course₁.traced runs sound with ⟨φ₁, traced₁⟩
  rcases traced₁.carries sound with ⟨sound₁, carries₁⟩
  rcases later.traced runs sound₁ with ⟨φ₂, traced₂⟩
  exact ⟨⟨φ₁, traced₁, carries₁⟩, φ₂, traced₂, (traced₂.carries sound₁).2⟩

/-- One root for the shared load, and two inlinings: of two applies one is left. -/
theorem fuse_conserves_sharedField :
    Region.sharedField.Built ∧ Region.sharedField.verify = .ok () ∧
      ∃ g', (fuse {}).run Region.sharedField = .ok ⟨1, 2, 2, 11, 2⟩ g' ∧
        g'.loads.Perm Region.sharedField.loads ∧
        g'.count .apply + 2 = Region.sharedField.count .apply + 1 := by
  rcases exists_fuse_sharedField with ⟨g', ran⟩
  have kept := fuse_conserves Region.built_sharedField Region.verify_sharedField {} ran
  exact ⟨Region.built_sharedField, Region.verify_sharedField, g', ran, kept.1, kept.2.1⟩

end KernelFusion
