import KernelFusion.Proofs.Rewrite.Placement

/-!
# The agenda keeps what is put on it

A node that is put on the agenda is in its queue until it is taken off: the set of waiting nodes, which decides
whether a node is added, has no node that the queue does not have (`Agenda.Proper`). The queue grows by at most
one node for each that is put on it.
-/

namespace KernelFusion.Agenda

variable {a : Agenda} {n m : NodeId} {ns : List NodeId} {g : Region}

/-- The nodes that count as waiting are in the queue. -/
structure Proper (a : Agenda) : Prop where
  nodup : a.waiting.Nodup
  queued : ∀ n ∈ a.waiting, n ∈ a.queue

theorem proper_empty : empty.Proper := ⟨List.nodup_nil, fun n member => by cases member⟩

/-- The nodes that count as waiting are the nodes in the queue, and each is in the queue once. -/
structure Exact (a : Agenda) : Prop where
  nodup : a.queue.Nodup
  nodup_waiting : a.waiting.Nodup
  mem_waiting : ∀ n, n ∈ a.waiting ↔ n ∈ a.queue

theorem Exact.proper (exact : a.Exact) : a.Proper :=
  ⟨exact.nodup_waiting, fun n => (exact.mem_waiting n).mp⟩

theorem exact_empty : empty.Exact := ⟨List.nodup_nil, List.nodup_nil, fun _ => Iff.rfl⟩

/-! ## Putting nodes on the agenda -/

/-- Putting a node on the agenda makes it wait, and takes nobody off. -/
theorem mem_queue_mark (proper : a.Proper) : m ∈ (a.mark n).queue ↔ m ∈ a.queue ∨ m = n := by
  unfold mark
  split
  case isTrue waits =>
    constructor
    · exact .inl
    · intro member
      rcases member with queued | same
      · exact queued
      · exact same ▸ proper.queued n waits
  case isFalse => rw [List.mem_append, List.mem_singleton]

/-- A node that is not in the set of waiting nodes comes to stand in the queue as well. -/
theorem Proper.mark (proper : a.Proper) (n : NodeId) : (a.mark n).Proper := by
  unfold Agenda.mark
  split
  case isTrue => exact proper
  case isFalse absent =>
    refine ⟨List.nodup_cons.mpr ⟨absent, proper.nodup⟩, fun m member => ?_⟩
    rcases List.mem_cons.mp member with same | waits
    · exact List.mem_append_right a.queue (List.mem_singleton.mpr same)
    · exact List.mem_append_left [n] (proper.queued m waits)

/-- A node is added to the queue and to the set together, or to neither. -/
theorem Exact.mark (exact : a.Exact) (n : NodeId) : (a.mark n).Exact := by
  unfold Agenda.mark
  split
  case isTrue => exact exact
  case isFalse absent =>
    refine ⟨?_, List.nodup_cons.mpr ⟨absent, exact.nodup_waiting⟩, fun m => ?_⟩
    · rw [exact.mem_waiting] at absent
      exact List.nodup_append.mpr ⟨exact.nodup, List.nodup_singleton n, fun m queued m' member =>
        List.mem_singleton.mp member ▸ fun same => absent (same ▸ queued)⟩
    · rw [List.mem_cons, List.mem_append, List.mem_singleton, exact.mem_waiting, or_comm]

theorem length_queue_mark : (a.mark n).queue.length ≤ a.queue.length + 1 := by
  unfold mark
  split
  case isTrue => exact Nat.le_succ _
  case isFalse => exact Nat.le_of_eq List.length_append

theorem Proper.markEach (proper : a.Proper) (ns : List NodeId) : (a.markEach ns).Proper := by
  induction ns generalizing a with
  | nil => exact proper
  | cons n rest ih => exact ih (proper.mark n)

theorem Exact.markEach (exact : a.Exact) (ns : List NodeId) : (a.markEach ns).Exact := by
  induction ns generalizing a with
  | nil => exact exact
  | cons n rest ih => exact ih (exact.mark n)

/-- Several nodes wait after they are put on the agenda, and no others besides those that did. -/
theorem mem_queue_markEach (proper : a.Proper) :
    m ∈ (a.markEach ns).queue ↔ m ∈ a.queue ∨ m ∈ ns := by
  induction ns generalizing a with
  | nil => simp [markEach]
  | cons n rest ih =>
    have later := ih (proper.mark n)
    rw [markEach] at later ⊢
    rw [List.foldl_cons, later, mem_queue_mark proper, List.mem_cons, or_assoc]

/-- The queue grows by no more than the nodes that are put on it. -/
theorem length_queue_markEach : (a.markEach ns).queue.length ≤ a.queue.length + ns.length := by
  induction ns generalizing a with
  | nil => exact Nat.le_refl _
  | cons n rest ih =>
    have later : (a.markEach (n :: rest)).queue.length ≤ (a.mark n).queue.length + rest.length := ih
    have first : (a.mark n).queue.length ≤ a.queue.length + 1 := length_queue_mark
    rw [List.length_cons]
    omega

/-- Of different nodes, those that do not wait yet go to the end of the queue in the given order. -/
theorem markEach_eq (nodup : ns.Nodup) : a.markEach ns =
    ⟨a.queue ++ ns.filter (· ∉ a.waiting), (ns.filter (· ∉ a.waiting)).reverse ++ a.waiting⟩ := by
  induction ns generalizing a with
  | nil => rw [markEach, List.foldl_nil, List.filter_nil, List.append_nil]; rfl
  | cons n rest ih =>
    rw [List.nodup_cons] at nodup
    have later := ih (a := a.mark n) nodup.2
    rw [markEach] at later ⊢
    rw [List.foldl_cons, later]
    by_cases waits : n ∈ a.waiting
    · have same : a.mark n = a := if_pos waits
      rw [same, List.filter_cons_of_neg (by simpa using waits)]
    · have added : a.mark n = ⟨a.queue ++ [n], n :: a.waiting⟩ := if_neg waits
      -- The node that is added now is not among the others.
      have others : rest.filter (· ∉ n :: a.waiting) = rest.filter (· ∉ a.waiting) := by
        refine List.filter_congr fun m member => decide_eq_decide.mpr ?_
        have ne : m ≠ n := fun same => nodup.1 (same ▸ member)
        rw [List.mem_cons, or_iff_right ne]
      rw [added, others, List.filter_cons_of_pos (by simpa using waits), List.reverse_cons,
        List.append_assoc, List.append_assoc]
      rfl

/-- Nodes that do not wait yet go to the end of the queue in the given order. -/
theorem queue_markEach_of_fresh (nodup : ns.Nodup) (fresh : ∀ n ∈ ns, n ∉ a.waiting) :
    (a.markEach ns).queue = a.queue ++ ns := by
  rw [markEach_eq nodup, List.filter_eq_self.mpr fun n member => decide_eq_true (fresh n member)]

/-- All nodes of a region, put on the empty agenda, wait in program order. -/
theorem queue_markAll_order (nodup : g.order.Nodup) : (empty.markAll g g.order).queue = g.order := by
  have all : (g.order.filter fun n => n ∈ g.order) = g.order :=
    List.filter_eq_self.mpr fun n member => decide_eq_true member
  rw [markAll, all, queue_markEach_of_fresh nodup fun n _ waits => by cases waits]
  rfl

theorem Proper.markAll (proper : a.Proper) (g : Region) (ns : List NodeId) :
    (a.markAll g ns).Proper :=
  proper.markEach _

/-- Of the given nodes those of the region wait. -/
theorem mem_queue_markAll (proper : a.Proper) :
    m ∈ (a.markAll g ns).queue ↔ m ∈ a.queue ∨ m ∈ g.order ∧ m ∈ ns := by
  rw [markAll, mem_queue_markEach proper, List.mem_filter, decide_eq_true_iff]

/-- However many nodes are given, the queue grows by no more than the region has. -/
theorem length_queue_markAll : (a.markAll g ns).queue.length ≤ a.queue.length + g.order.length := by
  have marked : (a.markAll g ns).queue.length ≤
      a.queue.length + (g.order.filter fun n => n ∈ ns).length := length_queue_markEach
  have kept := List.length_filter_le (fun n => decide (n ∈ ns)) g.order
  omega

/-- On a consistent region the positions agree with the program order. -/
theorem markLive_eq (c : g.Consistent) (a : Agenda) (ns : List NodeId) :
    a.markLive g ns = .ok (a.markAll g ns) := by
  rw [markLive, c.inProgramOrder_eq, ok_bind, pure_eq_ok, markAll]

/-! ## Taking a node off -/

/-- Nothing is taken off exactly when nothing waits. -/
theorem next?_eq_none_iff : a.next? = none ↔ a.queue = [] := by
  unfold next?
  split
  case h_1 empty => simp [empty]
  case h_2 n rest queue => simp [queue]

/-- The node taken off is the first in the queue, and it leaves the set of waiting nodes with it. -/
theorem next?_eq_some_iff {a' : Agenda} :
    a.next? = some (n, a') ↔ a.queue = n :: a'.queue ∧ a'.waiting = a.waiting.erase n := by
  unfold next?
  split
  case h_1 empty => simp [empty]
  case h_2 first rest queue =>
    rw [queue, Option.some.injEq, Prod.mk.injEq, List.cons.injEq, Agenda.ext_iff]
    constructor
    · intro same
      rcases same with ⟨rfl, rfl, waiting⟩
      exact ⟨⟨rfl, rfl⟩, waiting.symm⟩
    · intro same
      rcases same with ⟨⟨rfl, rest⟩, waiting⟩
      exact ⟨rfl, rest, waiting.symm⟩

theorem Proper.next {a' : Agenda} (proper : a.Proper) (taken : a.next? = some (n, a')) :
    a'.Proper := by
  rcases next?_eq_some_iff.mp taken with ⟨queue, waiting⟩
  refine ⟨waiting ▸ proper.nodup.erase n, fun m member => ?_⟩
  rw [waiting, proper.nodup.mem_erase_iff] at member
  have queued := proper.queued m member.2
  rw [queue] at queued
  exact (List.mem_cons.mp queued).resolve_left member.1

/-- The first node of an exact agenda is in the queue once, so it is gone from both. -/
theorem Exact.next {a' : Agenda} (exact : a.Exact) (taken : a.next? = some (n, a')) : a'.Exact := by
  rcases next?_eq_some_iff.mp taken with ⟨queue, waiting⟩
  have nodup := exact.nodup
  rw [queue, List.nodup_cons] at nodup
  refine ⟨nodup.2, waiting ▸ exact.nodup_waiting.erase n, fun m => ?_⟩
  rw [waiting, exact.nodup_waiting.mem_erase_iff, exact.mem_waiting, queue, List.mem_cons]
  constructor
  · intro other
    exact other.2.resolve_left other.1
  · intro behind
    exact ⟨fun same => nodup.1 (same ▸ behind), .inr behind⟩

end KernelFusion.Agenda
