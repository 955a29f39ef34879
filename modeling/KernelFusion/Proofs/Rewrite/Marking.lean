import KernelFusion.Proofs.Region.Built
import KernelFusion.Proofs.Rewrite.Agenda

/-!
# Putting many nodes on the agenda

Of the nodes that are given, the agenda takes those that the region has and that do not wait yet. The positions of a
built region agree with its program order, so these come behind what waits in program order, each once, and nothing
depends on how they were given: not on their order, not on repetitions, not on handles of nodes that are gone or never
were (`Agenda.markLive_congruent`).
-/

namespace KernelFusion.Agenda

variable {g : Region} {a : Agenda} {ns ns' : List NodeId}

/-- What `markLive` adds to the queue. -/
def added (a : Agenda) (g : Region) (ns : List NodeId) : List NodeId :=
  (g.order.filter fun n => n ∈ ns).filter (· ∉ a.waiting)

/-- What is added are nodes of the region, out of those that were given and did not wait. -/
theorem mem_added {n : NodeId} : n ∈ a.added g ns ↔ (n ∈ g.order ∧ n ∈ ns) ∧ n ∉ a.waiting := by
  simp only [added, List.mem_filter, decide_eq_true_iff]

theorem added_sublist : (a.added g ns).Sublist g.order :=
  List.filter_sublist.trans List.filter_sublist

/-- The nodes that are added go to the end of the queue in program order. -/
theorem markAll_eq (nodup : g.order.Nodup) : a.markAll g ns =
    ⟨a.queue ++ a.added g ns, (a.added g ns).reverse ++ a.waiting⟩ :=
  markEach_eq (nodup.filter _)

/-- Only which nodes of the region are given matters. -/
theorem markAll_congr (same : ∀ n ∈ g.order, n ∈ ns ↔ n ∈ ns') : a.markAll g ns = a.markAll g ns' := by
  have filtered : (g.order.filter fun n => n ∈ ns) = g.order.filter fun n => n ∈ ns' :=
    List.filter_congr fun n member => decide_eq_decide.mpr (same n member)
  rw [markAll, filtered, markAll]

/-- Handles with the same nodes of the region among them leave the same agenda: behind what waits, the nodes that do
not wait yet, in program order. -/
theorem markLive_congruent (built : g.Built) (a : Agenda)
    (same : ∀ n, g.contains n = true → (n ∈ ns ↔ n ∈ ns')) :
    ∃ (a' : Agenda) (fresh : List NodeId),
      a.markLive g ns = .ok a' ∧ a.markLive g ns' = .ok a' ∧ a'.queue = a.queue ++ fresh ∧
      (∀ n, n ∈ fresh ↔ g.contains n = true ∧ n ∈ ns ∧ n ∉ a.waiting) ∧ fresh.Nodup ∧
      fresh.Pairwise (fun n m => g.isBefore n m = .ok true) ∧
      (∀ n, n ∈ a'.waiting ↔ n ∈ a.waiting ∨ n ∈ fresh) ∧ (a.Exact → a'.Exact) := by
  have c := built.consistent
  have same' : a.markAll g ns = a.markAll g ns' :=
    markAll_congr fun n member => same n (c.contains_iff_mem_order.mpr member)
  have marked : a.markAll g ns = ⟨a.queue ++ a.added g ns, (a.added g ns).reverse ++ a.waiting⟩ :=
    markAll_eq c.order_nodup
  refine ⟨a.markAll g ns, a.added g ns, markLive_eq c a ns, ?congruent, ?queue, ?mem_fresh, ?nodup,
    ?rising, ?waiting, ?exact⟩
  case congruent => rw [markLive_eq c, same']
  case queue => rw [marked]
  case mem_fresh =>
    intro n
    rw [mem_added, c.contains_iff_mem_order, and_assoc]
  case nodup => exact c.order_nodup.sublist added_sublist
  case rising =>
    exact ((pairwise_precedes c.order_nodup).sublist added_sublist).imp c.isBefore_of_precedes
  case waiting =>
    intro n
    rw [marked, List.mem_append, List.mem_reverse, or_comm]
  case exact => exact fun exact => exact.markEach _

/-- The same two nodes, given once with repetitions and handles that do not resolve. -/
theorem markLive_congruent_sharedField :
    Region.sharedField.Built ∧
    (∀ n, Region.sharedField.contains n = true →
      (n ∈ [⟨2, 0⟩, ⟨0, 7⟩, ⟨0, 0⟩, ⟨2, 0⟩, ⟨9, 0⟩] ↔ n ∈ [⟨0, 0⟩, ⟨2, 0⟩])) ∧
    ∃ a' : Agenda,
      (empty.mark ⟨1, 0⟩).markLive Region.sharedField [⟨2, 0⟩, ⟨0, 7⟩, ⟨0, 0⟩, ⟨2, 0⟩, ⟨9, 0⟩] = .ok a' ∧
      (empty.mark ⟨1, 0⟩).markLive Region.sharedField [⟨0, 0⟩, ⟨2, 0⟩] = .ok a' ∧ a'.Exact := by
  have same : ∀ n, Region.sharedField.contains n = true →
      (n ∈ [⟨2, 0⟩, ⟨0, 7⟩, ⟨0, 0⟩, ⟨2, 0⟩, ⟨9, 0⟩] ↔ n ∈ [⟨0, 0⟩, ⟨2, 0⟩]) := by
    intro n live
    rw [Region.built_sharedField.consistent.contains_iff_mem_order] at live
    revert n
    decide
  rcases markLive_congruent Region.built_sharedField (empty.mark ⟨1, 0⟩) same with
    ⟨a', -, first, second, -, -, -, -, -, exact⟩
  exact ⟨Region.built_sharedField, same, a', first, second, exact (exact_empty.mark _)⟩

end KernelFusion.Agenda
