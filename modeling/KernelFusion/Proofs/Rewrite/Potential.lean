import Mathlib.Algebra.Group.Action.Defs
import Mathlib.Algebra.Order.BigOperators.Group.List
import Mathlib.Algebra.Order.Group.Nat
import Mathlib.Data.Finset.Card
import Mathlib.Data.Nat.Find
import Mathlib.Tactic.Ring
import KernelFusion.Proofs.Rewrite.Reshaping

/-!
# Why rewriting comes to an end

Root introduction adds an apply and rerouting keeps the number of nodes, so no size goes down with every rewrite.
What goes down is a potential of three parts. Root introduction takes away a shared load, of which no rule makes
another, and adds an apply; inlining takes away an apply; rerouting moves the readers of a producer, other than
the consumer, up to the rebuilt consumer. A tower of applies over a node is a chain of reads that ends there, and
the room over a node says how much higher its towers could be. A read of an apply weighs as much as there is room
over it. So rerouting makes reads lighter, and does not touch the other two parts (`Rewrote.potential_lt`).
-/

namespace KernelFusion.Region

variable {g g' : Region} {n m p : NodeId} {rule : Rule} {gone made created : List NodeId}
  {f : ValueId → ValueId} {heir : NodeId → NodeId} {bound k : Nat}

open scoped Classical

/-! ## Sums over the nodes -/

/-- A sum over the nodes of a region. -/
def total (g : Region) (weight : NodeId → Nat) : Nat := (g.order.map weight).sum

/-- The nodes of a region other than the given ones. -/
def others (g : Region) (gone : List NodeId) : List NodeId := g.order.filter fun n => n ∉ gone

theorem mem_others : n ∈ g.others gone ↔ n ∈ g.order ∧ n ∉ gone := by
  rw [others, List.mem_filter, decide_eq_true_iff]

/-- The nodes before a rewrite: those that go, and the others. -/
theorem Reshaped.perm_order (reshaped : g.Reshaped g' gone made f heir) (sound : g.Sound) :
    List.Perm g.order (gone ++ g.others gone) := by
  have apart : List.Disjoint gone (g.others gone) := fun n member other =>
    (mem_others.mp other).2 member
  refine (List.perm_ext_iff_of_nodup sound.consistent.order_nodup ?_).mpr fun n => ?_
  · exact List.Nodup.append reshaped.nodup_gone (sound.consistent.order_nodup.filter _) apart
  · rw [List.mem_append, mem_others]
    constructor
    · intro live
      by_cases member : n ∈ gone
      · exact .inl member
      · exact .inr ⟨live, member⟩
    · intro member
      rcases member with member | other
      · exact (sound.consistent.mem_order n).mpr (reshaped.lived n member)
      · exact other.1

/-- The nodes after it: those that came in, and the same others. -/
theorem Reshaped.perm_order' (reshaped : g.Reshaped g' gone made f heir) (sound : g.Sound)
    (sound' : g'.Sound) : List.Perm g'.order (made ++ g.others gone) := by
  have old {n : NodeId} (other : n ∈ g.others gone) : n ∉ made := by
    rcases (sound.consistent.mem_order n).mp (mem_others.mp other).1 with ⟨node, found⟩
    exact reshaped.revision.not_made found
  refine (List.perm_ext_iff_of_nodup sound'.consistent.order_nodup ?_).mpr fun n => ?_
  · exact List.Nodup.append reshaped.nodup_made (sound.consistent.order_nodup.filter _)
      fun n member other => old other member
  · rw [List.mem_append, mem_others]
    constructor
    · intro live
      by_cases member : n ∈ made
      · exact .inl member
      · rcases reshaped.exists_old live sound'.consistent member with ⟨remains, found⟩
        exact .inr ⟨(sound.consistent.mem_order n).mpr found, remains⟩
    · intro member
      rcases member with member | ⟨live, remains⟩
      · exact (sound'.consistent.mem_order n).mpr (reshaped.live n member)
      · rcases (sound.consistent.mem_order n).mp live with ⟨node, found⟩
        exact sound'.consistent.mem_order_of_get? (reshaped.revision.kept n node found remains)

theorem Reshaped.total_eq (reshaped : g.Reshaped g' gone made f heir) (sound : g.Sound)
    (weight : NodeId → Nat) :
    g.total weight = (gone.map weight).sum + ((g.others gone).map weight).sum := by
  rw [total, ((reshaped.perm_order sound).map weight).sum_eq, List.map_append, List.sum_append]

theorem Reshaped.total_eq' (reshaped : g.Reshaped g' gone made f heir) (sound : g.Sound)
    (sound' : g'.Sound) (weight : NodeId → Nat) :
    g'.total weight = (made.map weight).sum + ((g.others gone).map weight).sum := by
  rw [total, ((reshaped.perm_order' sound sound').map weight).sum_eq, List.map_append,
    List.sum_append]

/-! ## Towers -/

/-- A chain of so many reads of applies ends at a node. -/
inductive Tower (g : Region) : Nat → NodeId → Prop
  | base {n : NodeId} : Tower g 0 n
  | step {k : Nat} {p n : NodeId} : Tower g k p → g.Feeds p n → Tower g (k + 1) n

/-- A tower can be cut at its foot. -/
theorem Tower.lower (tower : g.Tower (k + 1) n) : g.Tower k n := by
  induction k generalizing n with
  | zero => exact .base
  | succ k ih =>
    cases tower with
    | step below feeds => exact .step (ih below) feeds

/-- Every read goes back in program order, so a tower is no higher than the position of its top. -/
theorem Tower.le_idxOf (tower : g.Tower k n) (o : g.Ordered) : k ≤ g.order.idxOf n := by
  induction tower with
  | base => exact Nat.zero_le _
  | step _ feeds ih =>
    have before := (o _ _ feeds.2).2
    omega

theorem Tower.lt_length (tower : g.Tower k n) (o : g.Ordered) (live : n ∈ g.order) :
    k < g.order.length :=
  Nat.lt_of_le_of_lt (tower.le_idxOf o) (List.idxOf_lt_length_of_mem live)

/-- How many heights up to a bound the towers over a node do not have. -/
noncomputable def room (g : Region) (bound : Nat) (n : NodeId) : Nat :=
  ((Finset.range bound).filter fun k => ¬ g.Tower k n).card

theorem room_le_bound : g.room bound n ≤ bound := by
  rw [room]
  exact (Finset.card_filter_le _ _).trans (Nat.le_of_eq (Finset.card_range bound))

/-- There is less room over a node whose towers are higher. -/
theorem room_le (higher : ∀ k, g.Tower k n → g'.Tower k m) :
    g'.room bound m ≤ g.room bound n := by
  rw [room, room]
  refine Finset.card_le_card fun k member => ?_
  rw [Finset.mem_filter] at member ⊢
  exact ⟨member.1, fun tower => member.2 (higher k tower)⟩

/-- A node over which all towers have grown by one has less room. -/
theorem room_lt (higher : ∀ k, g.Tower k n → g'.Tower (k + 1) m) (o : g.Ordered)
    (live : n ∈ g.order) (o' : g'.Ordered) (live' : m ∈ g'.order)
    (within : g'.order.length ≤ bound) : g'.room bound m < g.room bound n := by
  -- A height that the towers over `n` do not have, and those over `m` do.
  have missing : ∃ k, ¬ g.Tower k n :=
    ⟨g.order.length, fun tower => Nat.lt_irrefl _ (tower.lt_length o live)⟩
  have absent := Nat.find_spec missing
  have least := fun k lt => not_not.mp (Nat.find_min (m := k) missing lt)
  generalize Nat.find missing = k at absent least
  cases k with
  | zero => exact absurd .base absent
  | succ k =>
  have tower := higher k (least k (Nat.lt_succ_self k))
  have small : k + 1 < bound := Nat.lt_of_lt_of_le (tower.lt_length o' live') within
  rw [room, room]
  refine Finset.card_lt_card ⟨fun j member => ?_, fun all => ?_⟩
  · rw [Finset.mem_filter] at member ⊢
    exact ⟨member.1, fun below => member.2 (higher j below).lower⟩
  · have inside := all (Finset.mem_filter.mpr ⟨Finset.mem_range.mpr small, absent⟩)
    exact (Finset.mem_filter.mp inside).2 tower

/-! ## The potential -/

/-- The number of loads that several nodes read. -/
noncomputable def sharedLoads (g : Region) : Nat :=
  g.total fun n => if g.tagOf n = some .load ∧ g.Shared n then 1 else 0

/-- The number of applies. -/
noncomputable def applies (g : Region) : Nat :=
  g.total fun n => if g.tagOf n = some .apply then 1 else 0

/-- What the nodes of a set weigh, each as much as there is room over it. -/
noncomputable def weigh (g : Region) (bound : Nat) (chosen : NodeId → Prop) : Nat :=
  g.total fun p => if chosen p then g.room bound p else 0

/-- What the reads of applies by a node weigh. -/
noncomputable def pull (g : Region) (bound : Nat) (n : NodeId) : Nat :=
  g.weigh bound fun p => g.Feeds p n

/-- What the applies weigh that have outputs among their results. -/
noncomputable def draw (g : Region) (bound : Nat) : Nat :=
  g.weigh bound fun p => g.tagOf p = some .apply ∧ g.Exports p

/-- What all reads of applies weigh. -/
noncomputable def slack (g : Region) (bound : Nat) : Nat := g.total (g.pull bound) + g.draw bound

/-- More than the reads can weigh in a region of so many nodes. -/
def stride (bound : Nat) : Nat := bound * (bound * bound) + bound * bound + 1

/-- The potential of a region whose size stays within a bound. -/
noncomputable def potential (g : Region) (bound : Nat) : Nat :=
  (2 * g.sharedLoads + g.applies) * stride bound + g.slack bound

/-- What the size of a region can become: each shared load may turn into two nodes. -/
noncomputable def reach (g : Region) : Nat := g.order.length + g.sharedLoads

theorem total_le {weight : NodeId → Nat} {m : Nat} (le : ∀ n, weight n ≤ m) :
    g.total weight ≤ g.order.length * m := by
  have each : ∀ x ∈ g.order.map weight, x ≤ m := by
    intro x member
    rcases List.mem_map.mp member with ⟨n, -, rfl⟩
    exact le n
  have sum := List.sum_le_card_nsmul _ m each
  rwa [List.length_map, smul_eq_mul] at sum

/-- No node has more room than the bound, and there are no more nodes. -/
theorem weigh_le (within : g.order.length ≤ bound) (chosen : NodeId → Prop) :
    g.weigh bound chosen ≤ bound * bound := by
  have each (p : NodeId) : (if chosen p then g.room bound p else 0) ≤ bound := by
    split
    case isTrue => exact room_le_bound
    case isFalse => exact Nat.zero_le _
  exact (total_le each).trans (Nat.mul_le_mul_right bound within)

/-- All reads together weigh less than one unit of the first part of the potential. -/
theorem slack_lt_stride (within : g.order.length ≤ bound) : g.slack bound < stride bound := by
  have pulls : g.total (g.pull bound) ≤ bound * (bound * bound) :=
    (total_le fun n => weigh_le within _).trans (Nat.mul_le_mul_right _ within)
  have drawn : g.draw bound ≤ bound * bound := weigh_le within _
  rw [slack, stride]
  omega

/-! ## How large it is -/

theorem sharedLoads_le : g.sharedLoads ≤ g.order.length := by
  refine (total_le (m := 1) fun n => ?_).trans (Nat.le_of_eq (Nat.mul_one _))
  split
  case isTrue => exact Nat.le_refl 1
  case isFalse => exact Nat.zero_le 1

theorem applies_le : g.applies ≤ g.order.length := by
  refine (total_le (m := 1) fun n => ?_).trans (Nat.le_of_eq (Nat.mul_one _))
  split
  case isTrue => exact Nat.le_refl 1
  case isFalse => exact Nat.zero_le 1

theorem stride_mono {size : Nat} (le : bound ≤ size) : stride bound ≤ stride size := by
  have square := Nat.mul_le_mul le le
  have cube := Nat.mul_le_mul le square
  unfold stride
  omega

/-- The stride is a cubic in the number of nodes, which bounds the potential in turn. -/
theorem stride_le_pow (size : Nat) : stride (2 * size) ≤ 8 * (size + 1) ^ 3 := by
  calc stride (2 * size)
      ≤ stride (2 * size) + (20 * (size * size) + 24 * size + 7) := Nat.le_add_right _ _
    _ = 8 * (size + 1) ^ 3 := by
        unfold stride
        ring

/-- The potential is of the fourth power of the number of nodes at most. -/
theorem potential_lt_pow : g.potential g.reach < 24 * (g.order.length + 1) ^ 4 := by
  have loads : g.sharedLoads ≤ g.order.length := sharedLoads_le
  have applies : g.applies ≤ g.order.length := applies_le
  have reach : g.reach ≤ 2 * g.order.length := by
    unfold Region.reach
    omega
  have light : g.slack g.reach < stride g.reach := slack_lt_stride (Nat.le_add_right _ _)
  calc g.potential g.reach
      < (2 * g.sharedLoads + g.applies) * stride g.reach + stride g.reach := by
        unfold potential
        omega
    _ = (2 * g.sharedLoads + g.applies + 1) * stride g.reach := (Nat.succ_mul _ _).symm
    _ ≤ (3 * (g.order.length + 1)) * (8 * (g.order.length + 1) ^ 3) :=
        Nat.mul_le_mul (by omega) ((stride_mono reach).trans (stride_le_pow _))
    _ = 24 * (g.order.length + 1) ^ 4 := by ring

/-! ## Loads and applies -/

/-- A rewrite does not make an old load a shared one. -/
theorem Reshaped.sharedLoads_others (reshaped : g.Reshaped g' gone made f heir) (sound : g.Sound)
    (sound' : g'.Sound) :
    ((g.others gone).map fun n => if g'.tagOf n = some .load ∧ g'.Shared n then 1 else 0).sum ≤
      ((g.others gone).map fun n => if g.tagOf n = some .load ∧ g.Shared n then 1 else 0).sum := by
  refine List.sum_le_sum fun n other => ?_
  rcases mem_others.mp other with ⟨live, remains⟩
  rcases (sound.consistent.mem_order n).mp live with ⟨node, found⟩
  have old := reshaped.revision.not_made found
  rw [reshaped.tagOf_eq found remains]
  split
  case isTrue both =>
    rw [if_pos ⟨both.1, reshaped.shared_of_shared sound' remains old both.2⟩]
  case isFalse => exact Nat.zero_le _

/-- The others stay what they are, applies or loads. -/
theorem Reshaped.applies_others (reshaped : g.Reshaped g' gone made f heir) (sound : g.Sound) :
    ((g.others gone).map fun n => if g'.tagOf n = some .apply then 1 else 0).sum =
      ((g.others gone).map fun n => if g.tagOf n = some .apply then 1 else 0).sum := by
  refine congrArg List.sum (List.map_congr_left fun n other => ?_)
  rcases mem_others.mp other with ⟨live, remains⟩
  rcases (sound.consistent.mem_order n).mp live with ⟨node, found⟩
  rw [reshaped.tagOf_eq found remains]

theorem Reshaped.length_order (reshaped : g.Reshaped g' gone made f heir) (sound : g.Sound)
    (sound' : g'.Sound) : g'.order.length + gone.length = g.order.length + made.length := by
  have before := (reshaped.perm_order sound).length_eq
  have after := (reshaped.perm_order' sound sound').length_eq
  rw [List.length_append] at before after
  omega

/-- Only the root reads the copy of the load. -/
theorem Rooted.reads_copy {r : Rooting} (rooted : g.Rooted g' r) (sound : g.Sound) (sound' : g'.Sound)
    (reads : g'.Reads n r.copy) : n = r.root := by
  have reshaped := rooted.reshaped sound
  rcases sound'.consistent.reads_live reads with ⟨live, -⟩
  by_cases member : n ∈ [r.copy, r.root]
  · rcases List.mem_pair.mp member with rfl | rfl
    · exact absurd reads rooted.not_reads_copy
    · rfl
  · rcases reshaped.exists_old live sound'.consistent member with ⟨remains, node, found⟩
    rcases (rooted.revision.reads_iff reshaped.follows found remains).mp reads with
      ⟨m, former, taken⟩
    rcases (sound.consistent.mem_order m).mp (sound.consistent.reads_live former).2 with
      ⟨nodeM, foundM⟩
    have old := rooted.revision.not_made foundM
    rw [Rooting.heir] at taken
    split at taken
    case isTrue => exact absurd taken.symm rooted.between.ne
    case isFalse => simp [taken] at old

/-- Root introduction pays for the apply that it adds: one shared load counts twice as much. -/
theorem Rooted.counts {r : Rooting} (rooted : g.Rooted g' r) (sound : g.Sound) (sound' : g'.Sound) :
    g'.sharedLoads + 1 ≤ g.sharedLoads ∧ g'.applies = g.applies + 1 ∧
      g'.order.length = g.order.length + 1 := by
  have reshaped := rooted.reshaped sound
  have loadTag : g.tagOf r.load = some .load := tagOf_of_get? rooted.loadAt
  have copyTag : g'.tagOf r.copy = some .load := tagOf_of_get? rooted.copyAt
  have rootTag : g'.tagOf r.root = some .apply := tagOf_of_get? rooted.rootAt
  have unshared : ¬ g'.Shared r.copy := by
    intro shared
    rcases shared with ⟨a, b, ne, readsA, readsB⟩
    exact ne ((rooted.reads_copy sound sound' readsA).trans
      (rooted.reads_copy sound sound' readsB).symm)
  have shares := reshaped.sharedLoads_others sound sound'
  have same := reshaped.applies_others sound
  have lengths := reshaped.length_order sound sound'
  rw [sharedLoads, sharedLoads, applies, applies, reshaped.total_eq sound,
    reshaped.total_eq' sound sound', reshaped.total_eq sound, reshaped.total_eq' sound sound']
  simp only [List.map_cons, List.map_nil, List.sum_cons, List.sum_nil, loadTag, copyTag, rootTag,
    unshared, rooted.isShared, List.length_cons, List.length_nil] at lengths ⊢
  simp
  omega

/-- Inlining saves an apply, and no load becomes shared. -/
theorem Merged.counts {r : Inlining} (merged : g.Merged g' r) (sound : g.Sound) (sound' : g'.Sound) :
    g'.sharedLoads ≤ g.sharedLoads ∧ g'.applies + 1 = g.applies ∧
      g'.order.length + 1 = g.order.length := by
  have reshaped := merged.reshaped sound
  have consumerTag : g.tagOf r.consumer = some .apply := tagOf_of_get? merged.inlinable.consumerAt
  have producerTag : g.tagOf r.producer = some .apply := tagOf_of_get? merged.inlinable.producerAt
  have mergedTag : g'.tagOf r.merged = some .apply := tagOf_of_get? merged.mergedAt
  have shares := reshaped.sharedLoads_others sound sound'
  have same := reshaped.applies_others sound
  have lengths := reshaped.length_order sound sound'
  rw [sharedLoads, sharedLoads, applies, applies, reshaped.total_eq sound,
    reshaped.total_eq' sound sound', reshaped.total_eq sound, reshaped.total_eq' sound sound']
  simp only [List.map_cons, List.map_nil, List.sum_cons, List.sum_nil, consumerTag, producerTag,
    mergedTag, List.length_cons, List.length_nil] at lengths ⊢
  simp
  omega

/-- Rerouting changes no number, so the reads have to weigh less afterwards. -/
theorem Rerouted.counts {r : Rerouting} (rerouted : g.Rerouted g' r) (sound : g.Sound)
    (sound' : g'.Sound) :
    g'.sharedLoads ≤ g.sharedLoads ∧ g'.applies = g.applies ∧
      g'.order.length = g.order.length := by
  have reshaped := rerouted.reshaped sound
  have able := rerouted.reroutable
  have consumerTag : g.tagOf r.consumer = some .apply := tagOf_of_get? able.consumerAt
  have producerTag : g.tagOf r.producer = some .apply := tagOf_of_get? able.producerAt
  have copyTag : g'.tagOf r.copy = some .apply := tagOf_of_get? rerouted.copyAt
  have rebuiltTag : g'.tagOf r.rebuilt = some .apply := tagOf_of_get? rerouted.rebuiltAt
  have shares := reshaped.sharedLoads_others sound sound'
  have same := reshaped.applies_others sound
  have lengths := reshaped.length_order sound sound'
  rw [sharedLoads, sharedLoads, applies, applies, reshaped.total_eq sound,
    reshaped.total_eq' sound sound', reshaped.total_eq sound, reshaped.total_eq' sound sound']
  simp only [List.map_cons, List.map_nil, List.sum_cons, List.sum_nil, consumerTag, producerTag,
    copyTag, rebuiltTag, List.length_cons, List.length_nil] at lengths ⊢
  simp
  omega

/-! ## Rerouting makes reads lighter -/

namespace Rerouted

variable {r : Rerouting} (rerouted : g.Rerouted g' r) (sound : g.Sound)

include rerouted

/-- The nodes that take over are the rebuilt consumer and the nodes that remain. -/
theorem heir_cases (sound : g.Sound) (live : n ∈ g.order) (taken : r.heir n = m) :
    m ≠ r.copy ∧ (m = r.rebuilt → n = r.consumer ∨ n = r.producer) ∧
      (m ∈ g.others [r.consumer, r.producer] → n = m) := by
  have absent {p : NodeId} (member : p ∈ [r.copy, r.rebuilt]) : p ∉ g.order := by
    intro live
    rcases (sound.consistent.mem_order p).mp live with ⟨node, found⟩
    exact rerouted.revision.not_made found member
  rw [Rerouting.heir] at taken
  split at taken
  case isTrue gone =>
    rw [← taken]
    refine ⟨rerouted.between.ne.symm, fun _ => gone, fun other => ?_⟩
    exact absurd (mem_others.mp other).1 (absent (by simp))
  case isFalse =>
    rw [← taken]
    refine ⟨fun same => ?_, fun same => ?_, fun _ => rfl⟩
    · exact absurd live (absent (by simp [same]))
    · exact absurd live (absent (by simp [same]))

include sound

/-- A node that remains reads the rebuilt consumer where it read the consumer or the producer. -/
theorem feeds_cases (remains : n ∈ g.others [r.consumer, r.producer]) (feeds : g'.Feeds m n) :
    m ≠ r.copy ∧ (m = r.rebuilt → g.Feeds r.consumer n ∨ g.Feeds r.producer n) ∧
      (m ∈ g.others [r.consumer, r.producer] → g.Feeds m n) := by
  have able := rerouted.reroutable
  have follows := rerouted.follows sound.consistent
  rcases mem_others.mp remains with ⟨live, remains⟩
  rcases (sound.consistent.mem_order n).mp live with ⟨node, found⟩
  rcases (rerouted.revision.reads_iff follows found remains).mp feeds.2 with ⟨m₀, reads, taken⟩
  rcases rerouted.heir_cases sound (sound.consistent.reads_live reads).2 taken with
    ⟨notCopy, ofRebuilt, ofOther⟩
  refine ⟨notCopy, fun same => ?_, fun other => ?_⟩
  · rcases ofRebuilt same with rfl | rfl
    · exact .inl ⟨tagOf_of_get? able.consumerAt, reads⟩
    · exact .inr ⟨tagOf_of_get? able.producerAt, reads⟩
  · rcases (sound.consistent.mem_order m).mp (mem_others.mp other).1 with ⟨nodeM, foundM⟩
    have tag := feeds.1
    rw [(rerouted.reshaped sound).tagOf_eq foundM (mem_others.mp other).2] at tag
    exact ⟨tag, ofOther other ▸ reads⟩

/-- Every tower is still there: over the copy if it was over the producer, and over the rebuilt consumer if it was
over the consumer. -/
theorem tower_of_tower (live : n ∈ g.order) (tower : g.Tower k n) :
    (n ∉ [r.consumer, r.producer] → g'.Tower k n) ∧ (n = r.producer → g'.Tower k r.copy) ∧
      (n = r.consumer → g'.Tower k r.rebuilt) := by
  have c := sound.consistent
  have able := rerouted.reroutable
  have follows := rerouted.follows c
  have rebuiltTag : g'.tagOf r.rebuilt = some .apply := tagOf_of_get? rerouted.rebuiltAt
  have copyTag : g'.tagOf r.copy = some .apply := tagOf_of_get? rerouted.copyAt
  have copyFeeds : g'.Feeds r.copy r.rebuilt :=
    ⟨copyTag, (rerouted.reads_rebuilt_iff c sound.ordered).mpr (.inl rfl)⟩
  induction tower with
  | base => exact ⟨fun _ => .base, fun _ => .base, fun _ => .base⟩
  | @step k p n below feeds ih =>
    have liveP := (c.reads_live feeds.2).2
    rcases ih liveP with ⟨kept, copied, rebuilt⟩
    refine ⟨fun remains => ?other, fun same => ?producer, fun same => ?consumer⟩
    case other =>
      rcases (c.mem_order n).mp live with ⟨node, found⟩
      have reads : g'.Reads n (r.heir p) :=
        (rerouted.revision.reads_iff follows found remains).mpr ⟨p, feeds.2, rfl⟩
      by_cases member : p ∈ [r.consumer, r.producer]
      · have taken : r.heir p = r.rebuilt := if_pos (by simpa using member)
        rw [taken] at reads
        refine .step ?_ ⟨rebuiltTag, reads⟩
        rcases List.mem_pair.mp member with isConsumer | isProducer
        · exact rebuilt isConsumer
        · -- Over the copy stands what stood over the producer, and the rebuilt consumer reads the copy.
          exact (Tower.step (copied isProducer) copyFeeds).lower
      · have taken : r.heir p = p := if_neg (by simpa using member)
        rw [taken] at reads
        rcases (c.mem_order p).mp liveP with ⟨nodeP, foundP⟩
        refine .step (kept member) ⟨?_, reads⟩
        rw [(rerouted.reshaped sound).tagOf_eq foundP member]
        exact feeds.1
    case producer =>
      rw [same] at feeds
      have first := sound.ordered _ _ feeds.2
      have remains : p ∉ [r.consumer, r.producer] := by
        simp [first.ne, (first.trans (sound.ordered _ _ able.reads)).ne]
      rcases (c.mem_order p).mp liveP with ⟨nodeP, foundP⟩
      refine .step (kept remains) ⟨?_, (rerouted.reads_copy_iff c sound.ordered).mpr feeds.2⟩
      rw [(rerouted.reshaped sound).tagOf_eq foundP remains]
      exact feeds.1
    case consumer =>
      rw [same] at feeds
      exact .step (copied ((able.feeds p).mp feeds)) copyFeeds

/-- A node that stays has no more room than before, as its towers are still there. -/
theorem room_others (other : n ∈ g.others [r.consumer, r.producer]) :
    g'.room bound n ≤ g.room bound n :=
  room_le fun _ tower =>
    (rerouted.tower_of_tower sound (mem_others.mp other).1 tower).1 (mem_others.mp other).2

theorem room_copy : g'.room bound r.copy ≤ g.room bound r.producer :=
  room_le fun _ tower => (rerouted.tower_of_tower sound
    (sound.consistent.mem_order_of_get? rerouted.reroutable.producerAt) tower).2.1 rfl

theorem room_rebuilt : g'.room bound r.rebuilt ≤ g.room bound r.consumer :=
  room_le fun _ tower => (rerouted.tower_of_tower sound
    (sound.consistent.mem_order_of_get? rerouted.reroutable.consumerAt) tower).2.2 rfl

variable (sound' : g'.Sound) (within : g'.order.length ≤ bound)

include sound' within

/-- The rebuilt consumer stands over the copy, so there is less room over it than over the producer. -/
theorem room_rebuilt_lt : g'.room bound r.rebuilt < g.room bound r.producer := by
  have c := sound.consistent
  have live := c.mem_order_of_get? rerouted.reroutable.producerAt
  have live' := sound'.consistent.mem_order_of_get? rerouted.rebuiltAt
  refine room_lt (fun k tower => ?_) sound.ordered live sound'.ordered live' within
  refine .step ((rerouted.tower_of_tower sound live tower).2.1 rfl) ⟨?_, ?_⟩
  · exact tagOf_of_get? rerouted.copyAt
  · exact (rerouted.reads_rebuilt_iff c sound.ordered).mpr (.inl rfl)

/-- Sets of applies weigh no more when the rebuilt consumer is in the place of the consumer or the producer, and
less when it is in the place of the producer. -/
theorem weigh_le (chosen chosen' : NodeId → Prop)
    (kept : ∀ p ∈ g.others [r.consumer, r.producer], chosen' p → chosen p)
    (copied : chosen' r.copy → chosen r.producer ∧ ¬ chosen' r.rebuilt)
    (rebuilt : chosen' r.rebuilt → chosen r.consumer ∨ chosen r.producer) :
    g'.weigh bound chosen' ≤ g.weigh bound chosen ∧
      (chosen r.producer → ¬ chosen' r.copy → g'.weigh bound chosen' < g.weigh bound chosen) := by
  have reshaped := rerouted.reshaped sound
  have others : ((g.others [r.consumer, r.producer]).map fun p =>
        if chosen' p then g'.room bound p else 0).sum ≤
      ((g.others [r.consumer, r.producer]).map fun p =>
        if chosen p then g.room bound p else 0).sum := by
    refine List.sum_le_sum fun p other => ?_
    split
    case isTrue isChosen =>
      rw [if_pos (kept p other isChosen)]
      exact rerouted.room_others sound other
    case isFalse => exact Nat.zero_le _
  have ofCopy : g'.room bound r.copy ≤ g.room bound r.producer := rerouted.room_copy sound
  have ofRebuilt : g'.room bound r.rebuilt ≤ g.room bound r.consumer := rerouted.room_rebuilt sound
  have less := rerouted.room_rebuilt_lt sound sound' within
  rw [weigh, weigh, reshaped.total_eq sound, reshaped.total_eq' sound sound']
  simp only [List.map_cons, List.map_nil, List.sum_cons, List.sum_nil]
  -- The copy is in the place of the producer; the rebuilt consumer may be in the place of either.
  by_cases isCopy : chosen' r.copy
  · rcases copied isCopy with ⟨isProducer, notRebuilt⟩
    rw [if_pos isCopy, if_pos isProducer, if_neg notRebuilt]
    exact ⟨by omega, fun _ absent => absurd isCopy absent⟩
  · rw [if_neg isCopy]
    by_cases isRebuilt : chosen' r.rebuilt
    · rw [if_pos isRebuilt]
      rcases rebuilt isRebuilt with isConsumer | isProducer
      · rw [if_pos isConsumer]
        refine ⟨by omega, fun isProducer _ => ?_⟩
        rw [if_pos isProducer]
        omega
      · rw [if_pos isProducer]
        exact ⟨by omega, fun _ _ => by omega⟩
    · rw [if_neg isRebuilt]
      refine ⟨by omega, fun isProducer _ => ?_⟩
      rw [if_pos isProducer]
      omega

/-- What another node reads weighs no more than before, and less if it read the producer, in whose place it now reads
the rebuilt consumer. -/
theorem pull_others (other : n ∈ g.others [r.consumer, r.producer]) :
    g'.pull bound n ≤ g.pull bound n ∧
      (g.Reads n r.producer → g'.pull bound n < g.pull bound n) := by
  have cases' {p : NodeId} (feeds : g'.Feeds p n) := rerouted.feeds_cases sound other feeds
  have lighter := rerouted.weigh_le sound sound' within (g.Feeds · n) (g'.Feeds · n)
    (fun p inOthers feeds => (cases' feeds).2.2 inOthers)
    (fun feeds => absurd rfl (cases' feeds).1) (fun feeds => (cases' feeds).2.1 rfl)
  refine ⟨lighter.1, fun reads => lighter.2 ⟨?_, reads⟩ fun feeds => (cases' feeds).1 rfl⟩
  exact tagOf_of_get? rerouted.reroutable.producerAt

theorem pull_copy : g'.pull bound r.copy ≤ g.pull bound r.producer := by
  have c := sound.consistent
  have first {p : NodeId} (feeds : g'.Feeds p r.copy) : Precedes g'.order p r.copy :=
    sound'.ordered _ _ feeds.2
  refine (rerouted.weigh_le sound sound' within (g.Feeds · r.producer) (g'.Feeds · r.copy)
    (fun p inOthers feeds => ?_) (fun feeds => absurd rfl (first feeds).ne)
    (fun feeds => absurd rerouted.between (first feeds).asymm)).1
  rcases mem_others.mp inOthers with ⟨live, remains⟩
  rcases (c.mem_order p).mp live with ⟨node, found⟩
  have tag := feeds.1
  rw [(rerouted.reshaped sound).tagOf_eq found remains] at tag
  exact ⟨tag, (rerouted.reads_copy_iff c sound.ordered).mp feeds.2⟩

theorem pull_rebuilt : g'.pull bound r.rebuilt ≤ g.pull bound r.consumer := by
  have c := sound.consistent
  have able := rerouted.reroutable
  have notSelf : ¬ g'.Feeds r.rebuilt r.rebuilt := fun feeds => (sound'.ordered _ _ feeds.2).ne rfl
  refine (rerouted.weigh_le sound sound' within (g.Feeds · r.consumer) (g'.Feeds · r.rebuilt)
    (fun p inOthers feeds => ?_) (fun _ => ⟨(able.feeds _).mpr rfl, notSelf⟩)
    (fun feeds => absurd feeds notSelf)).1
  rcases mem_others.mp inOthers with ⟨live, remains⟩
  rcases (c.mem_order p).mp live with ⟨node, found⟩
  have tag := feeds.1
  rw [(rerouted.reshaped sound).tagOf_eq found remains] at tag
  rcases (rerouted.reads_rebuilt_iff c sound.ordered).mp feeds.2 with isCopy | former
  · exact absurd isCopy fun same => rerouted.revision.not_made found (by simp [same])
  · exact ⟨tag, former.1⟩

/-- The outputs draw no more than before, and less if the producer had one. -/
theorem draw_le :
    g'.draw bound ≤ g.draw bound ∧
      (g.Exports r.producer → g'.draw bound < g.draw bound) := by
  have c := sound.consistent
  have able := rerouted.reroutable
  have consumerTag : g.tagOf r.consumer = some .apply := tagOf_of_get? able.consumerAt
  have producerTag : g.tagOf r.producer = some .apply := tagOf_of_get? able.producerAt
  -- No output reads the copy, so what is exported now stands for something that was exported.
  have cases' {p : NodeId} (exported : g'.Exports p) : ∃ m, g.Exports m ∧ p ≠ r.copy ∧
      (p = r.rebuilt → m = r.consumer ∨ m = r.producer) ∧
      (p ∈ g.others [r.consumer, r.producer] → m = p) := by
    rcases (rerouted.revision.exports_iff (rerouted.follows c)).mp exported with
      ⟨m, exported, taken⟩
    rcases id exported with ⟨v, -, produced⟩
    rcases c.producer_live produced with ⟨node, found, -⟩
    exact ⟨m, exported, rerouted.heir_cases sound (c.mem_order_of_get? found) taken⟩
  have lighter := rerouted.weigh_le sound sound' within
    (fun p => g.tagOf p = some .apply ∧ g.Exports p)
    (fun p => g'.tagOf p = some .apply ∧ g'.Exports p) ?kept ?copied ?rebuilt
  case kept =>
    intro p other both
    rcases cases' both.2 with ⟨m, exported, -, -, ofOther⟩
    rcases (c.mem_order p).mp (mem_others.mp other).1 with ⟨node, found⟩
    have tag := both.1
    rw [(rerouted.reshaped sound).tagOf_eq found (mem_others.mp other).2] at tag
    exact ⟨tag, ofOther other ▸ exported⟩
  case copied =>
    intro both
    rcases cases' both.2 with ⟨m, -, notCopy, -⟩
    exact absurd rfl notCopy
  case rebuilt =>
    intro both
    rcases cases' both.2 with ⟨m, exported, -, ofRebuilt, -⟩
    rcases ofRebuilt rfl with rfl | rfl
    · exact .inl ⟨consumerTag, exported⟩
    · exact .inr ⟨producerTag, exported⟩
  refine ⟨lighter.1, fun exported => lighter.2 ⟨producerTag, exported⟩ fun both => ?_⟩
  rcases cases' both.2 with ⟨m, -, notCopy, -⟩
  exact notCopy rfl

/-- Some node, or an output, read the producer and now reads the rebuilt consumer. -/
theorem slack_lt : g'.slack bound < g.slack bound := by
  have able := rerouted.reroutable
  have reshaped := rerouted.reshaped sound
  have c := sound.consistent
  have ofCopy : g'.pull bound r.copy ≤ g.pull bound r.producer :=
    rerouted.pull_copy sound sound' within
  have ofRebuilt : g'.pull bound r.rebuilt ≤ g.pull bound r.consumer :=
    rerouted.pull_rebuilt sound sound' within
  have each : ∀ n ∈ g.others [r.consumer, r.producer], g'.pull bound n ≤ g.pull bound n :=
    fun n other => (rerouted.pull_others sound sound' within other).1
  have drawn : g'.draw bound ≤ g.draw bound := (rerouted.draw_le sound sound' within).1
  rw [slack, slack, reshaped.total_eq sound, reshaped.total_eq' sound sound']
  simp only [List.map_cons, List.map_nil, List.sum_cons, List.sum_nil]
  have others : ((g.others [r.consumer, r.producer]).map (g'.pull bound)).sum ≤
      ((g.others [r.consumer, r.producer]).map (g.pull bound)).sum := List.sum_le_sum each
  -- The producer escaped to another node, whose pull goes down, or to an output, and the draw goes down.
  rcases able.escaped with ⟨n, ne, reads⟩ | exported
  · have other : n ∈ g.others [r.consumer, r.producer] := by
      have behind := sound.ordered _ _ reads
      exact mem_others.mpr ⟨(c.reads_live reads).1, by simp [ne, behind.ne.symm]⟩
    have less : ((g.others [r.consumer, r.producer]).map (g'.pull bound)).sum <
        ((g.others [r.consumer, r.producer]).map (g.pull bound)).sum :=
      List.sum_lt_sum _ _ each
        ⟨n, other, (rerouted.pull_others sound sound' within other).2 reads⟩
    omega
  · have less := (rerouted.draw_le sound sound' within).2 exported
    omega

end Rerouted

/-! ## The potential goes down -/

/-- A rewrite does not let a region reach further. -/
theorem Rewrote.reach_le (rewrote : g.Rewrote g' rule n created) (sound : g.Sound) :
    g'.reach ≤ g.reach := by
  have sound' := rewrote.sound sound
  unfold reach
  cases rewrote with
  | rooted rooted =>
    have counts := rooted.counts sound sound'
    omega
  | rerouted rerouted =>
    have counts := rerouted.counts sound sound'
    omega
  | merged merged =>
    have counts := merged.counts sound sound'
    omega

/-- If loads and applies count less, the weight of the reads does not matter. -/
theorem potential_lt_of_lt (within : g'.order.length ≤ bound)
    (less : 2 * g'.sharedLoads + g'.applies < 2 * g.sharedLoads + g.applies) :
    g'.potential bound < g.potential bound := by
  have light : g'.slack bound < stride bound := slack_lt_stride within
  calc (2 * g'.sharedLoads + g'.applies) * stride bound + g'.slack bound
      < (2 * g'.sharedLoads + g'.applies) * stride bound + stride bound := by omega
    _ = (2 * g'.sharedLoads + g'.applies + 1) * stride bound := (Nat.succ_mul _ _).symm
    _ ≤ (2 * g.sharedLoads + g.applies) * stride bound := Nat.mul_le_mul_right _ less
    _ ≤ g.potential bound := Nat.le_add_right _ _

/-- Every rewrite lowers the potential. -/
theorem Rewrote.potential_lt (rewrote : g.Rewrote g' rule n created) (sound : g.Sound)
    (within : g.reach ≤ bound) : g'.potential bound < g.potential bound := by
  have sound' := rewrote.sound sound
  have small : g'.order.length ≤ bound :=
    ((Nat.le_add_right _ _).trans (rewrote.reach_le sound)).trans within
  cases rewrote with
  | rooted rooted =>
    have counts := rooted.counts sound sound'
    exact potential_lt_of_lt small (by omega)
  | merged merged =>
    have counts := merged.counts sound sound'
    exact potential_lt_of_lt small (by omega)
  | rerouted rerouted =>
    have counts := rerouted.counts sound sound'
    have lighter : g'.slack bound < g.slack bound := rerouted.slack_lt sound sound' small
    have kept : (2 * g'.sharedLoads + g'.applies) * stride bound ≤
        (2 * g.sharedLoads + g.applies) * stride bound :=
      Nat.mul_le_mul_right _ (by omega)
    rw [potential, potential]
    omega

end KernelFusion.Region
