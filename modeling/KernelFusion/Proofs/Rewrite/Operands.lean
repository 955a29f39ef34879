import KernelFusion.Proofs.Region.Editing
import KernelFusion.Rewrite.Inlining
import KernelFusion.Rewrite.Rule

/-!
# Lists of operands

The operands of a rebuilt apply are the kept ones with others behind them, no value twice among those that
are added. `placed_placeOperands` says where each value stands, `bound_bindingsOf` what becomes of the
parameters of a consumer whose producer is merged into it.
-/

namespace KernelFusion

variable {operands values produced : List ValueId} {v : ValueId}

theorem getElem?_of_idxOf?_eq_some {place : Nat} (found : operands.idxOf? v = some place) :
    operands[place]? = some v := by
  obtain ⟨lt, same, -⟩ := List.idxOf?_eq_some_iff.mp found
  rw [List.getElem?_eq_getElem lt, same]

/-! ## Adding operands -/

/-- Values have places among operands that extend the given ones by nothing else. -/
structure Placed (operands values operands' : List ValueId) (places : List Nat) : Prop where
  extend : operands <+: operands'
  places : List.Forall₂ (fun v place => operands'[place]? = some v) values places
  only : ∀ v ∈ operands', v ∈ operands ∨ v ∈ values

/-- Placing values among operands gives each the place of its first occurrence, and new places behind the others. -/
theorem placed_placeOperands (operands values : List ValueId) :
    Placed operands values (placeOperands operands values).1 (placeOperands operands values).2 := by
  induction values generalizing operands with
  | nil => exact ⟨List.prefix_refl _, .nil, fun v member => .inl member⟩
  | cons value rest ih =>
    rw [placeOperands]
    cases found : operands.idxOf? value with
    | some place =>
      have placed := ih operands
      refine ⟨placed.extend, .cons ?_ placed.places, fun v member => ?_⟩
      · obtain ⟨more, split⟩ := placed.extend
        have lt := (List.idxOf?_eq_some_iff.mp found).1
        rw [← split, List.getElem?_append_left lt, getElem?_of_idxOf?_eq_some found]
      · exact (placed.only v member).imp_right (List.mem_cons_of_mem value)
    | none =>
      have placed := ih (operands ++ [value])
      refine ⟨(List.prefix_append _ _).trans placed.extend, .cons ?_ placed.places,
        fun v member => ?_⟩
      · obtain ⟨more, split⟩ := placed.extend
        rw [← split, List.append_assoc, List.getElem?_append_right (Nat.le_refl _), Nat.sub_self]
        rfl
      · rcases placed.only v member with old | new
        · rcases List.mem_append.mp old with kept | added
          · exact .inl kept
          · exact .inr (List.mem_cons.mpr (.inl (List.mem_singleton.mp added)))
        · exact .inr (List.mem_cons_of_mem value new)

namespace Placed

variable {operands' : List ValueId} {places : List Nat}
  (placed : Placed operands values operands' places)

include placed

/-- The operands are those there were and the values that were placed. -/
theorem mem_iff : v ∈ operands' ↔ v ∈ operands ∨ v ∈ values := by
  refine ⟨placed.only v, ?_⟩
  rintro (kept | value)
  · exact placed.extend.subset kept
  · obtain ⟨place, -, placeAt⟩ := exists_right_of_mem placed.places value
    exact List.mem_of_getElem? placeAt

/-- The operands that were there keep their places. -/
theorem getElem?_of_getElem? {i : Nat} (found : operands[i]? = some v) :
    operands'[i]? = some v := by
  obtain ⟨more, split⟩ := placed.extend
  rw [← split, List.getElem?_append_left (List.getElem?_eq_some_iff.mp found).1, found]

end Placed

/-- Without repetitions there is nothing to leave out. -/
theorem eraseDups_of_nodup {α : Type} [DecidableEq α] {l : List α} (nodup : l.Nodup) :
    l.eraseDups = l := by
  induction l with
  | nil => rfl
  | cons a rest ih =>
    rcases List.nodup_cons.mp nodup with ⟨absent, nodup'⟩
    have others : rest.filter (fun b => !b == a) = rest := by
      refine List.filter_eq_self.mpr fun b member => ?_
      simpa using ne_of_mem_of_not_mem member absent
    rw [List.eraseDups_cons, others, ih nodup']

/-- Behind the given operands stand the values that are not among them, each once. -/
theorem placeOperands_fst (operands values : List ValueId) :
    (placeOperands operands values).1 =
      operands ++ (values.filter fun v => v ∉ operands).eraseDups := by
  induction values generalizing operands with
  | nil => exact (List.append_nil operands).symm
  | cons value rest ih =>
    rw [placeOperands]
    cases found : operands.idxOf? value with
    | some place =>
      have member := List.mem_of_getElem? (getElem?_of_idxOf?_eq_some found)
      rw [List.filter_cons_of_neg (by simpa using member)]
      exact ih operands
    | none =>
      have absent := List.idxOf?_eq_none_iff.mp found
      have others : (rest.filter fun v => v ∉ operands).filter (fun v => !v == value) =
          rest.filter fun v => v ∉ operands ++ [value] := by
        rw [List.filter_filter]
        refine List.filter_congr fun v _ => ?_
        simp [beq_eq_decide, and_comm]
      rw [List.filter_cons_of_pos (by simpa using absent), List.eraseDups_cons, others]
      exact (ih (operands ++ [value])).trans (by rw [List.append_assoc, List.singleton_append])

/-- Each value is found at its first place among the operands. -/
theorem placeOperands_snd (operands values : List ValueId) :
    (placeOperands operands values).2 = values.map (placeOperands operands values).1.idxOf := by
  induction values generalizing operands with
  | nil => rfl
  | cons value rest ih =>
    rw [placeOperands]
    cases found : operands.idxOf? value with
    | some place =>
      have first : place = (placeOperands operands rest).1.idxOf value := by
        have member := List.mem_of_getElem? (getElem?_of_idxOf?_eq_some found)
        rw [placeOperands_fst, List.idxOf_append_of_mem member, List.idxOf_eq_getD_idxOf?, found,
          Option.getD_some]
      exact congrArg₂ List.cons first (ih operands)
    | none =>
      have absent := List.idxOf?_eq_none_iff.mp found
      have first : operands.length = (placeOperands (operands ++ [value]) rest).1.idxOf value := by
        rw [placeOperands_fst, List.append_assoc, List.singleton_append, idxOf_append_cons absent]
      exact congrArg₂ List.cons first (ih (operands ++ [value]))

/-! ## Their types -/

theorem Region.valueTypes_eq_ok {g : Region}
    (live : ∀ v ∈ values, ∃ info, g.values.get? v = some info) :
    ∃ types, g.valueTypes values = .ok types ∧
      List.Forall₂ (fun v type => g.typeOf v = some type) values types := by
  induction values with
  | nil => exact ⟨[], rfl, .nil⟩
  | cons value rest ih =>
    rw [List.forall_mem_cons] at live
    obtain ⟨⟨info, infoAt⟩, liveRest⟩ := live
    obtain ⟨types, -, typed⟩ := ih liveRest
    have both : List.Forall₂ (fun v type => g.typeOf v = some type) (value :: rest)
        (info.type :: types) := .cons (typeOf_of_get? infoAt) typed
    exact ⟨_, mapM_eq_ok_iff.mpr (both.imp fun v type => valueType_eq_ok_iff.mpr), both⟩

/-! ## What parameters become -/

/-- A binding of a parameter says where the operand that was read through it is found: among the operands of
the merged apply, or among the results of the producer. -/
def Binding.Finds (produced operands' : List ValueId) (v : ValueId) : Binding → Prop
  | .param index => v ∉ produced ∧ operands'[index]? = some v
  | .inlined result => produced[result]? = some v

/-- Every operand finds its value again, among the results of the producer or among the operands that are kept. -/
theorem bound_bindingsOf {kept : List ValueId}
    (extend : kept ++ (operands.filter fun v => !produced.contains v) <+: values) :
    List.Forall₂ (fun v binding => Binding.Finds produced values v binding) operands
      (bindingsOf produced kept.length operands) := by
  induction operands generalizing kept with
  | nil => exact .nil
  | cons operand rest ih =>
    rw [bindingsOf]
    cases found : produced.idxOf? operand with
    | some result =>
      have placed := getElem?_of_idxOf?_eq_some found
      have member := List.mem_of_getElem? placed
      rw [List.filter_cons_of_neg (by simpa using member)] at extend
      exact .cons placed (ih extend)
    | none =>
      have absent := List.idxOf?_eq_none_iff.mp found
      rw [List.filter_cons_of_pos (by simpa using absent), List.append_cons] at extend
      have later := ih extend
      rw [List.length_append, List.length_singleton] at later
      refine .cons ⟨absent, ?_⟩ later
      obtain ⟨more, split⟩ := extend
      rw [← split, List.append_assoc, List.append_assoc,
        List.getElem?_append_right (Nat.le_refl _), Nat.sub_self]
      rfl

/-- A parameter that is kept is numbered by the kept ones before it. -/
theorem getElem?_bindingsOf {index p : Nat} (operandAt : operands[p]? = some v) :
    (∃ j, (bindingsOf produced index operands)[p]? = some (.inlined j) ∧ v ∈ produced) ∨
      (bindingsOf produced index operands)[p]? =
        some (.param (index + (operands.take p).countP (· ∉ produced))) ∧ v ∉ produced := by
  induction operands generalizing index p with
  | nil => cases operandAt
  | cons operand rest ih =>
    rw [bindingsOf]
    cases found : produced.idxOf? operand with
    | some result =>
      have member := List.mem_of_getElem? (getElem?_of_idxOf?_eq_some found)
      cases p with
      | zero =>
        cases operandAt
        exact .inl ⟨result, rfl, member⟩
      | succ p =>
        rw [List.take_succ_cons, List.countP_cons_of_neg (by simpa using member)]
        exact ih operandAt
    | none =>
      have absent := List.idxOf?_eq_none_iff.mp found
      cases p with
      | zero =>
        cases operandAt
        exact .inr ⟨rfl, absent⟩
      | succ p =>
        have counted : index + ((operand :: rest).take (p + 1)).countP (· ∉ produced) =
            index + 1 + (rest.take p).countP (· ∉ produced) := by
          rw [List.take_succ_cons, List.countP_cons_of_pos (by simpa using absent)]
          omega
        rw [counted]
        exact ih operandAt

end KernelFusion
