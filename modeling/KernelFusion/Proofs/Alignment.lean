import Mathlib.Data.List.Forall2

/-!
# Lists that agree place by place

What stands at a place of one of two lists that are related element by element has its counterpart at the
same place of the other.
-/

namespace KernelFusion

variable {α β : Type} {R : α → β → Prop} {l : List α} {l' : List β}

/-- What stands at a place on the left is related to what stands there on the right. -/
theorem exists_right_of_getElem? (aligned : List.Forall₂ R l l') {i : Nat} {a : α}
    (found : l[i]? = some a) : ∃ b, l'[i]? = some b ∧ R a b := by
  induction aligned generalizing i with
  | nil => cases found
  | cons head _ ih =>
    cases i with
    | zero =>
      cases found
      exact ⟨_, rfl, head⟩
    | succ i => exact ih found

/-- What stands at a place on the right is related to what stands there on the left. -/
theorem exists_left_of_getElem? (aligned : List.Forall₂ R l l') {i : Nat} {b : β}
    (found : l'[i]? = some b) : ∃ a, l[i]? = some a ∧ R a b :=
  exists_right_of_getElem? aligned.flip found

theorem exists_right_of_mem (aligned : List.Forall₂ R l l') {a : α} (member : a ∈ l) :
    ∃ b ∈ l', R a b := by
  obtain ⟨i, found⟩ := List.getElem?_of_mem member
  obtain ⟨b, found', related⟩ := exists_right_of_getElem? aligned found
  exact ⟨b, List.mem_of_getElem? found', related⟩

theorem exists_left_of_mem (aligned : List.Forall₂ R l l') {b : β} (member : b ∈ l') :
    ∃ a ∈ l, R a b :=
  exists_right_of_mem aligned.flip member

/-- Two lists that are related at every place up to the same length. -/
theorem forall₂_of_getElem? (length : l.length = l'.length)
    (related : ∀ (i : Nat) (a : α) (b : β), l[i]? = some a → l'[i]? = some b → R a b) :
    List.Forall₂ R l l' :=
  List.forall₂_iff_get.mpr ⟨length, fun i lt lt' =>
    related i _ _ (List.getElem?_eq_getElem lt) (List.getElem?_eq_getElem lt')⟩

/-- A weaker relation need only be shown for what the left list holds. -/
theorem forall₂_imp_of_mem {S : α → β → Prop} (aligned : List.Forall₂ R l l')
    (weaker : ∀ a ∈ l, ∀ b, R a b → S a b) : List.Forall₂ S l l' := by
  induction aligned with
  | nil => exact .nil
  | cons head _ ih =>
    rw [List.forall_mem_cons] at weaker
    exact .cons (weaker.1 _ head) (ih weaker.2)

end KernelFusion
