import KernelFusion.Proofs.Region.Editing
import KernelFusion.Rewrite.Pattern

/-!
# When a rule matches

The rules look at use lists, operands and positions. In a consistent region what they find there can be said
with `Region.Reads`, `Region.Exports` and the program order: a load is shared when two nodes read it, and a
producer escapes from a consumer when something else reads it or one of its results is an output.
`Rule.Matches` has the conditions of the three rules.
-/

namespace KernelFusion

theorem nodup_eraseDups {α : Type} [DecidableEq α] : ∀ l : List α, l.eraseDups.Nodup
  | [] => List.nodup_nil
  | a :: rest => by
    rw [List.eraseDups_cons, List.nodup_cons, List.mem_eraseDups]
    exact ⟨by simp, nodup_eraseDups _⟩
termination_by l => l.length
decreasing_by exact Nat.lt_succ_of_le (List.length_filter_le _ _)

/-- A list without repetitions that has two elements begins with two different ones, and vice versa. -/
theorem exists_two_iff {α : Type} {l : List α} (nodup : l.Nodup) :
    (∃ a b, a ≠ b ∧ a ∈ l ∧ b ∈ l) ↔ ∃ a b rest, l = a :: b :: rest := by
  constructor
  · rintro ⟨a, b, ne, memberA, memberB⟩
    match l with
    | [] => cases memberA
    | [x] => exact absurd ((List.mem_singleton.mp memberA).trans
        (List.mem_singleton.mp memberB).symm) ne
    | x :: y :: rest => exact ⟨x, y, rest, rfl⟩
  · rintro ⟨a, b, rest, rfl⟩
    have absent := (List.nodup_cons.mp nodup).1
    refine ⟨a, b, fun same => absent (same ▸ List.mem_cons_self), List.mem_cons_self, ?_⟩
    exact List.mem_cons_of_mem _ List.mem_cons_self

namespace Region

variable {g : Region} {n m p : NodeId} {v : ValueId} {node : Node} {operands : List ValueId}

/-! ## Conditions -/

/-- Two nodes read a node. -/
def Shared (g : Region) (m : NodeId) : Prop := ∃ a b, a ≠ b ∧ g.Reads a m ∧ g.Reads b m

/-- A node is read by others than `n`; an output counts. -/
def Escapes (g : Region) (m n : NodeId) : Prop := (∃ a, a ≠ n ∧ g.Reads a m) ∨ g.Exports m

/-- A node reads an apply. -/
def Feeds (g : Region) (p n : NodeId) : Prop := g.tagOf p = some .apply ∧ g.Reads n p

/-- An operand leads to an apply, and the operands before it lead to no apply but those that escape. -/
def Chosen (g : Region) (operands : List ValueId) (n p : NodeId) : Prop :=
  ∃ front v back, operands = front ++ v :: back ∧ g.applyProducerOf v = some p ∧
    ∀ u ∈ front, ∀ q, g.applyProducerOf u = some q → g.Escapes q n

/-! ## What the rules ask -/

/-- An operand whose producer is used elsewhere is passed over. -/
theorem Chosen.cons {operand : ValueId} (chosen : g.Chosen operands n p)
    (escapes : ∀ q, g.applyProducerOf operand = some q → g.Escapes q n) :
    g.Chosen (operand :: operands) n p := by
  rcases chosen with ⟨front, v, back, split, produced, earlier⟩
  exact ⟨operand :: front, v, back, congrArg _ split, produced,
    List.forall_mem_cons.mpr ⟨escapes, earlier⟩⟩

/-- The apply that an operand list chooses is the only one, when it does not escape. -/
theorem Chosen.unique {q : NodeId} (chosen : g.Chosen operands n p) (chosen' : g.Chosen operands n q)
    (confined : ¬ g.Escapes p n) (confined' : ¬ g.Escapes q n) : p = q := by
  rcases chosen with ⟨front, v, back, split, produced, earlier⟩
  rcases chosen' with ⟨front', v', back', split', produced', earlier'⟩
  rw [split] at split'
  rcases List.append_eq_append_iff.mp split' with ⟨mid, frontEq, backEq⟩ | ⟨mid, frontEq, backEq⟩
  · cases mid with
    | nil =>
      cases backEq
      exact Option.some.inj (produced.symm.trans produced')
    | cons u mid =>
      cases backEq
      exact absurd (earlier' v (by simp [frontEq]) p produced) confined
  · cases mid with
    | nil =>
      cases backEq
      exact Option.some.inj (produced.symm.trans produced')
    | cons u mid =>
      cases backEq
      exact absurd (earlier v' (by simp [frontEq]) q produced') confined'

theorem mem_readers : n ∈ g.readers v ↔ ∃ i, Use.operand n i ∈ g.usesOf v := by
  rw [readers, List.mem_eraseDups, List.mem_filterMap]
  constructor
  · rintro ⟨site, used, isNode⟩
    cases site with
    | operand m i =>
      rw [← Option.some.inj isNode]
      exact ⟨i, used⟩
    | output i => cases isNode
  · rintro ⟨i, used⟩
    exact ⟨_, used, rfl⟩

/-- A value is used outside a node if another node or an output reads it. -/
theorem usedOutside_eq_true_iff :
    g.usedOutside v n = true ↔
      (∃ m i, m ≠ n ∧ Use.operand m i ∈ g.usesOf v) ∨ ∃ i, Use.output i ∈ g.usesOf v := by
  rw [usedOutside, List.any_eq_true]
  constructor
  · rintro ⟨site, used, outside⟩
    cases site with
    | operand m i =>
      refine .inl ⟨m, i, ?_, used⟩
      rintro rfl
      simp [Use.node?] at outside
    | output i => exact .inr ⟨i, used⟩
  · rintro (⟨m, i, ne, used⟩ | ⟨i, used⟩)
    · exact ⟨_, used, by simp [Use.node?, ne]⟩
    · exact ⟨_, used, by simp [Use.node?]⟩

/-- Nothing else reads a value when all of its uses are by the node. -/
theorem filter_usesOf_eq_nil_iff :
    (g.usesOf v).filter (fun site => site.node? ≠ some n) = [] ↔ g.usedOutside v n = false := by
  rw [List.filter_eq_nil_iff, usedOutside, List.any_eq_false]
  simp

/-- A node is fed by the applies that produce its operands. -/
theorem feeds_iff (found : g.nodes.get? n = some node) :
    g.Feeds p n ↔ ∃ v ∈ node.kind.operands, g.applyProducerOf v = some p := by
  simp only [applyProducerOf_eq_some_iff]
  constructor
  · rintro ⟨isApply, node', v, found', member, produced⟩
    rw [found, Option.some.injEq] at found'
    rw [found']
    exact ⟨v, member, produced, isApply⟩
  · rintro ⟨v, member, produced, isApply⟩
    exact ⟨isApply, node, v, found, member, produced⟩

namespace Consistent

variable (c : g.Consistent)

include c

/-- A node escapes another if one of its results is used outside it. -/
theorem escapes_iff (found : g.nodes.get? m = some node) :
    g.Escapes m n ↔ ∃ v ∈ node.results, g.usedOutside v n = true := by
  simp only [usedOutside_eq_true_iff]
  rw [Escapes, c.exports_iff found]
  simp only [c.reads_iff found]
  constructor
  · rintro (⟨a, ne, v, member, i, used⟩ | ⟨v, member, i, used⟩)
    · exact ⟨v, member, .inl ⟨a, i, ne, used⟩⟩
    · exact ⟨v, member, .inr ⟨i, used⟩⟩
  · rintro ⟨v, member, ⟨a, i, ne, used⟩ | ⟨i, used⟩⟩
    · exact .inl ⟨a, ne, v, member, i, used⟩
    · exact .inr ⟨v, member, i, used⟩

/-- The earliest of some nodes. -/
theorem earliest_eq_ok {rest : List NodeId} (live : n ∈ g.order)
    (restLive : ∀ m ∈ rest, m ∈ g.order) :
    ∃ a, g.earliest n rest = .ok a ∧ a ∈ n :: rest ∧
      ∀ m ∈ n :: rest, g.order.idxOf a ≤ g.order.idxOf m := by
  induction rest generalizing n with
  | nil =>
    refine ⟨n, rfl, List.mem_cons_self, fun m member => ?_⟩
    exact Nat.le_of_eq (congrArg g.order.idxOf (List.mem_singleton.mp member).symm)
  | cons m rest ih =>
    rw [List.forall_mem_cons] at restLive
    rw [earliest, isBefore, c.position_eq restLive.1, ok_bind, c.position_eq live, ok_bind,
      pure_eq_ok, ok_bind]
    by_cases before : g.order.idxOf m < g.order.idxOf n
    · rw [if_pos (decide_eq_true before)]
      obtain ⟨a, answered, member, least⟩ := ih restLive.1 restLive.2
      refine ⟨a, answered, List.mem_cons_of_mem n member, ?_⟩
      have leM := least m List.mem_cons_self
      rw [List.forall_mem_cons]
      exact ⟨by omega, least⟩
    · rw [if_neg (by simpa using before)]
      obtain ⟨a, answered, member, least⟩ := ih live restLive.2
      refine ⟨a, answered, ?_, ?_⟩
      · rcases List.mem_cons.mp member with rfl | inRest
        · exact List.mem_cons_self
        · exact List.mem_cons_of_mem n (List.mem_cons_of_mem m inRest)
      · rw [List.forall_mem_cons] at least
        rw [List.forall_mem_cons, List.forall_mem_cons]
        exact ⟨least.1, by omega, least.2⟩

/-- The producers of operands are found, each once. -/
theorem applyProducers_eq_ok (live : ∀ v ∈ operands, ∃ info, g.values.get? v = some info) :
    ∃ producers, g.applyProducers operands = .ok producers ∧ producers.Nodup ∧
      ∀ p, p ∈ producers ↔ ∃ v ∈ operands, g.applyProducerOf v = some p := by
  have answered : operands.mapM g.applyProducer = .ok (operands.map g.applyProducerOf) := by
    rw [mapM_eq_ok_iff, List.forall₂_map_right_iff, List.forall₂_same]
    intro v member
    obtain ⟨info, infoAt⟩ := live v member
    exact c.applyProducer_of_get? infoAt
  refine ⟨_, by rw [applyProducers, answered, ok_bind, pure_eq_ok], nodup_eraseDups _,
    fun p => ?_⟩
  simp

theorem producedBy_eq_ok (place : Nat)
    (live : ∀ v ∈ operands, ∃ info, g.values.get? v = some info) :
    ∃ answer, g.producedBy place operands = .ok answer ∧
      (answer = true ↔ ∀ v ∈ operands, ∀ m, g.producerOf v = some m →
        g.order.idxOf m ≤ place) := by
  induction operands with
  | nil => exact ⟨true, rfl, by simp⟩
  | cons operand rest ih =>
    rw [List.forall_mem_cons] at live
    obtain ⟨⟨info, infoAt⟩, liveRest⟩ := live
    obtain ⟨answer, answered, meaning⟩ := ih liveRest
    rw [producedBy, producer_of_get? infoAt, ok_bind]
    simp only [List.forall_mem_cons]
    cases produced : g.producerOf operand with
    | none => exact ⟨answer, answered, by simpa using meaning⟩
    | some m =>
      obtain ⟨node, found, -⟩ := c.producer_live produced
      dsimp only
      rw [c.position_of_get? found, ok_bind]
      -- The answer is no at the first operand that is produced too late.
      by_cases late : place < g.order.idxOf m
      · rw [if_pos late]
        refine ⟨false, rfl, ?_⟩
        simp only [Bool.false_eq_true, Option.some.injEq, forall_eq', false_iff, not_and]
        exact fun early => absurd late (Nat.not_lt.mpr early)
      · rw [if_neg late]
        refine ⟨answer, answered, ?_⟩
        simp only [Option.some.injEq, forall_eq']
        rw [meaning]
        exact ⟨fun rest => ⟨Nat.not_lt.mp late, rest⟩, And.right⟩

/-- The first apply, in operand order, that does not escape. -/
theorem exclusiveProducer_eq_ok
    (live : ∀ v ∈ operands, ∃ info, g.values.get? v = some info) :
    (g.exclusiveProducer n operands = .ok none ∧
        ∀ v ∈ operands, ∀ p, g.applyProducerOf v = some p → g.Escapes p n) ∨
      ∃ p, g.exclusiveProducer n operands = .ok (some p) ∧ ¬ g.Escapes p n ∧
        g.Chosen operands n p := by
  induction operands with
  | nil => exact .inl ⟨rfl, by simp⟩
  | cons operand rest ih =>
    rw [List.forall_mem_cons] at live
    obtain ⟨⟨info, infoAt⟩, liveRest⟩ := live
    rw [exclusiveProducer, c.applyProducer_of_get? infoAt, ok_bind]
    -- Passing over the first operand, when its producer is no candidate.
    have skip (escaped : ∀ p, g.applyProducerOf operand = some p → g.Escapes p n) :
        (g.exclusiveProducer n rest = .ok none ∧
            ∀ v ∈ operand :: rest, ∀ p, g.applyProducerOf v = some p → g.Escapes p n) ∨
          ∃ p, g.exclusiveProducer n rest = .ok (some p) ∧ ¬ g.Escapes p n ∧
            g.Chosen (operand :: rest) n p := by
      rcases ih liveRest with ⟨answered, others⟩ | ⟨p, answered, confined, chosen⟩
      · exact .inl ⟨answered, List.forall_mem_cons.mpr ⟨escaped, others⟩⟩
      · exact .inr ⟨p, answered, confined, chosen.cons escaped⟩
    cases produced : g.applyProducerOf operand with
    | none => exact skip (by simp [produced])
    | some p =>
      obtain ⟨node, found, -⟩ := c.producer_live (applyProducerOf_eq_some_iff.mp produced).1
      dsimp only
      rw [results_of_get? found, ok_bind]
      by_cases escapes : g.Escapes p n
      · rw [if_pos (List.any_eq_true.mpr ((c.escapes_iff found).mp escapes))]
        refine skip fun q same => ?_
        rw [produced, Option.some.injEq] at same
        exact same ▸ escapes
      · rw [if_neg fun any => escapes ((c.escapes_iff found).mpr (List.any_eq_true.mp any))]
        exact .inr ⟨p, rfl, escapes, [], operand, rest, rfl, produced, by simp⟩

/-! ## The same at a node -/

variable (found : g.nodes.get? n = some node)

include found

theorem applyProducers_of_get? :
    ∃ producers, g.applyProducers node.kind.operands = .ok producers ∧ producers.Nodup ∧
      ∀ p, p ∈ producers ↔ g.Feeds p n := by
  simp only [feeds_iff found]
  exact c.applyProducers_eq_ok fun v member => c.operand_live found member

/-- All operands of a node are produced by some place if it reads nothing that stands behind the node at that place.
-/
theorem producedBy_of_get? (p : NodeId) :
    ∃ answer, g.producedBy (g.order.idxOf p) node.kind.operands = .ok answer ∧
      (answer = true ↔ ∀ m, g.Reads n m → ¬ Precedes g.order p m) := by
  obtain ⟨answer, answered, meaning⟩ := c.producedBy_eq_ok (g.order.idxOf p)
    fun v member => c.operand_live found member
  refine ⟨answer, answered, meaning.trans ⟨fun early m reads behind => ?_, fun early => ?_⟩⟩
  · obtain ⟨node', v, found', member, produced⟩ := reads
    rw [found, Option.some.injEq] at found'
    subst found'
    exact Nat.not_lt.mpr (early v member m produced) behind.2
  · intro v member m produced
    obtain ⟨node', found', -⟩ := c.producer_live produced
    exact Nat.le_of_not_lt fun lt =>
      early m ⟨node, v, found, member, produced⟩ ⟨c.mem_order_of_get? found', lt⟩

/-- The search for a producer to inline finds the first that nothing else uses, or there is none. -/
theorem exclusiveProducer_of_get? :
    (g.exclusiveProducer n node.kind.operands = .ok none ∧ ∀ p, g.Feeds p n → g.Escapes p n) ∨
      ∃ p, g.exclusiveProducer n node.kind.operands = .ok (some p) ∧ g.Feeds p n ∧
        ¬ g.Escapes p n ∧ g.Chosen node.kind.operands n p := by
  simp only [feeds_iff found]
  rcases c.exclusiveProducer_eq_ok (n := n) fun v member => c.operand_live found member with
    ⟨answered, escape⟩ | ⟨p, answered, confined, chosen⟩
  · exact .inl ⟨answered, fun p ⟨v, member, produced⟩ => escape v member p produced⟩
  · rcases id chosen with ⟨front, v, back, split, produced, -⟩
    exact .inr ⟨p, answered, ⟨v, by simp [split], produced⟩, confined, chosen⟩

end Consistent

end Region

/-- The condition under which a rule rewrites at a node. -/
def Rule.Matches (g : Region) : Rule → NodeId → Prop
  | .rootIntroduction, n => g.tagOf n = some .load ∧ g.Shared n
  | .outputRerouting, n => ∃ p, (∀ q, g.Feeds q n ↔ q = p) ∧
      (∀ m, g.Reads n m → ¬ Precedes g.order p m) ∧ g.Escapes p n
  | .producerInlining, n => ∃ p, g.Feeds p n ∧ ¬ g.Escapes p n

end KernelFusion
