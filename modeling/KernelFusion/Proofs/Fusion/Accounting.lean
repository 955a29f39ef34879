import KernelFusion.Proofs.Fusion.Rewriting

/-!
# What fusion counts

A rewrite takes a load away only to put a copy in its place, so the number of loads stays. Root introduction adds an
apply, inlining takes one away, and rerouting makes two of two. So the tally of a run accounts for the applies: those
there are and those that were inlined are those there were and the roots (`Fused.accounts`).
-/

namespace KernelFusion

namespace Region

variable {g g' : Region} {n m : NodeId} {tag : NodeTag} {rule : Rule} {created : List NodeId}

/-! ## The nodes of a kind -/

/-- The nodes of a kind, each once. -/
def nodesOf (g : Region) (tag : NodeTag) : List NodeId :=
  (g.nodes.toList.filter fun e => e.2.kind.tag == tag).map Prod.fst

theorem length_nodesOf : (g.nodesOf tag).length = g.count tag := by
  rw [nodesOf, List.length_map, count, List.countP_eq_length_filter]

theorem nodup_nodesOf : (g.nodesOf tag).Nodup :=
  Arena.nodup_handles.sublist (List.filter_sublist.map Prod.fst)

/-- The nodes of a kind are listed under it. -/
theorem mem_nodesOf : n ∈ g.nodesOf tag ↔ g.tagOf n = some tag := by
  simp [nodesOf, tagOf, Arena.mem_toList_iff]

theorem count_pos_iff : 0 < g.count tag ↔ ∃ n, g.tagOf n = some tag := by
  simp only [← length_nodesOf, List.length_pos_iff_exists_mem, mem_nodesOf]

/-- A kind counts at most one if no two nodes have it. -/
theorem count_le_one_iff :
    g.count tag ≤ 1 ↔ ∀ n m, g.tagOf n = some tag → g.tagOf m = some tag → n = m := by
  have two := exists_two_iff (nodup_nodesOf : (g.nodesOf tag).Nodup)
  rw [← length_nodesOf]
  constructor
  · intro small n m tagN tagM
    refine not_not.mp fun ne => ?_
    rcases two.mp ⟨n, m, ne, mem_nodesOf.mpr tagN, mem_nodesOf.mpr tagM⟩ with ⟨a, b, rest, split⟩
    rw [split, List.length_cons, List.length_cons] at small
    omega
  · intro same
    match split : g.nodesOf tag with
    | [] => exact Nat.zero_le 1
    | [_] => exact Nat.le_refl 1
    | a :: b :: rest =>
      rcases two.mpr ⟨a, b, rest, split⟩ with ⟨n, m, ne, memberN, memberM⟩
      exact absurd (same n m (mem_nodesOf.mp memberN) (mem_nodesOf.mp memberM)) ne

/-- A node is a load or an apply. -/
theorem tagOf_cases (live : ∃ node, g.nodes.get? n = some node) :
    g.tagOf n = some .load ∨ g.tagOf n = some .apply := by
  rcases live with ⟨node, found⟩
  rw [tagOf_of_get? found]
  cases node.kind.tag with
  | load => exact .inl rfl
  | apply => exact .inr rfl

/-- Every node is a load or an apply. -/
theorem Consistent.length_order_eq (c : g.Consistent) :
    g.order.length = g.count .load + g.count .apply := by
  have complement (e : NodeId × Node) :
      (!(e.2.kind.tag == NodeTag.load)) = (e.2.kind.tag == NodeTag.apply) := by
    cases e.2.kind.tag <;> rfl
  rw [c.length_order, c.counted, count, count,
    List.length_eq_countP_add_countP fun e => e.2.kind.tag == .load]
  simp only [decide_not, Bool.decide_eq_true, complement]

theorem length_filter_eq_sum (p : NodeId → Prop) [DecidablePred p] (ns : List NodeId) :
    (ns.filter p).length = (ns.map fun n => if p n then 1 else 0).sum := by
  induction ns with
  | nil => rfl
  | cons n rest ih =>
    rw [List.map_cons, List.sum_cons, ← ih, List.filter_cons]
    by_cases here : p n
    · rw [if_pos (decide_eq_true here), if_pos here, List.length_cons, Nat.add_comm]
    · rw [if_neg (by simpa using here), if_neg here, Nat.zero_add]

/-- The count of applies is the sum that the potential is made of. -/
theorem Consistent.count_apply (c : g.Consistent) : g.count .apply = g.applies := by
  have perm : (g.nodesOf .apply).Perm (g.order.filter fun n => g.tagOf n = some .apply) := by
    refine (List.perm_ext_iff_of_nodup nodup_nodesOf (c.order_nodup.filter _)).mpr fun n => ?_
    rw [mem_nodesOf, List.mem_filter, decide_eq_true_iff, iff_and_self]
    intro isApply
    rcases Option.map_eq_some_iff.mp isApply with ⟨node, found, -⟩
    exact c.mem_order_of_get? found
  rw [← length_nodesOf, perm.length_eq, length_filter_eq_sum]
  rfl

/-! ## What a rewrite does to the numbers -/

/-- No rule changes the number of loads, and each changes the number of applies as it is tallied. -/
theorem Rewrote.accounts (rewrote : g.Rewrote g' rule n created) (sound : g.Sound) (tally : Tally) :
    g'.count .load = g.count .load ∧
      g'.count .apply + (tally.record rule).inlined + tally.roots =
        g.count .apply + tally.inlined + (tally.record rule).roots := by
  have sound' := rewrote.sound sound
  have before := sound.consistent.length_order_eq
  have after := sound'.consistent.length_order_eq
  have applies := sound.consistent.count_apply
  have applies' := sound'.consistent.count_apply
  cases rewrote with
  | rooted rooted =>
    rcases rooted.counts sound sound' with ⟨-, more, longer⟩
    dsimp only [Tally.record]
    omega
  | rerouted rerouted =>
    rcases rerouted.counts sound sound' with ⟨-, same, asLong⟩
    dsimp only [Tally.record]
    omega
  | merged merged =>
    rcases merged.counts sound sound' with ⟨-, fewer, shorter⟩
    dsimp only [Tally.record]
    omega

end Region

/-! ## What a run does to them -/

namespace Driver

variable {σ : Type} {d : Driver σ} {s s' : Session σ} {rules : List Rule} {loads applies : Nat}

/-- The loads of a session are still so many, and the tally accounts for its applies when there were so many. -/
def Accounts (loads applies : Nat) (s : Session σ) : Prop :=
  s.region.count .load = loads ∧ s.region.count .apply + s.tally.inlined = applies + s.tally.roots

/-- A visit keeps the accounts: a root adds an apply, and an inlining saves one. -/
theorem Stepped.accounts {moved : Bool} (stepped : Stepped rules s (.ok (some moved) s'))
    (sound : s.region.Sound) (accounts : Accounts loads applies s) : Accounts loads applies s' := by
  cases stepped with
  | passed => exact accounts
  | unmatched => exact accounts
  | rewritten _ _ _ rewrote _ _ =>
    rcases rewrote.accounts sound (counted s.tally) with ⟨same, balance⟩
    rcases accounts with ⟨loads, applies⟩
    refine ⟨same.trans loads, ?_⟩
    dsimp only [counted] at balance ⊢
    omega

theorem Course.accounts (course : d.Course s s') (runs : d.Runs rules) (sound : s.region.Sound)
    (start : Accounts loads applies s) : Accounts loads applies s' :=
  (course.keeps runs (Accounts loads applies)
    (fun _ _ _ sound accounts step => step.accounts sound accounts) (fun _ accounts => accounts)
    sound start).2

end Driver

/-- Fusion changes the number of applies by its roots and inlinings, and never that of loads. -/
theorem Fused.accounts {settings : Settings} {g g' : Region} {tally : Tally}
    (fused : Fused settings g (.ok tally g')) (sound : g.Sound) :
    g'.count .load = g.count .load ∧
      g'.count .apply + tally.inlined = g.count .apply + tally.roots := by
  cases fused with
  | noop => exact ⟨rfl, rfl⟩
  | done _ course => exact course.accounts settings.runs_driver sound ⟨rfl, rfl⟩

end KernelFusion
