import KernelFusion.Error

/-!
# Sums of offsets

A sum of offsets fails in one way. When two sums in a row exist, and so does the sum of the first and the
last part taken together, the order in which they are taken makes no difference.
-/

namespace KernelFusion.Offset

variable {a b c : Offset}

theorem lift_eq_ok_iff {α : Type} {x : Except Fault α} {y : α} : lift x = .ok y ↔ x = .ok y := by
  cases x <;> simp [lift]

theorem eq_addition_of_addComponent_eq_error {x y : Int64} {fault : Fault}
    (failed : addComponent x y = .error fault) : fault = .addition := by
  unfold addComponent at failed
  simp only at failed
  split at failed
  · cases failed
  · exact (Except.error.inj failed).symm

/-- Adding offsets fails only because a sum is out of range. -/
theorem eq_addition_of_add_eq_error {fault : Fault} (failed : a.add b = .error fault) :
    fault = .addition := by
  unfold add at failed
  cases i : addComponent a.i b.i with
  | error fault' =>
    rw [i] at failed
    exact Except.error.inj failed ▸ eq_addition_of_addComponent_eq_error i
  | ok sumI =>
    cases j : addComponent a.j b.j with
    | error fault' =>
      rw [i, j] at failed
      exact Except.error.inj failed ▸ eq_addition_of_addComponent_eq_error j
    | ok sumJ =>
      cases k : addComponent a.k b.k with
      | error fault' =>
        rw [i, j, k] at failed
        exact Except.error.inj failed ▸ eq_addition_of_addComponent_eq_error k
      | ok sumK =>
        rw [i, j, k] at failed
        cases failed

/-- A sum of three offsets that exists from the right exists from the left, when the sum of the first two does. -/
theorem add_regroup {ab bc abc : Offset} (left : a.add b = .ok ab) (right : b.add c = .ok bc)
    (whole : a.add bc = .ok abc) : ab.add c = .ok abc := by
  rw [add_eq_ok_iff] at left right whole ⊢
  omega

/-- The other way round, a sum that exists from the left exists from the right, when the sum of the last two does. -/
theorem add_group {ab bc abc : Offset} (left : a.add b = .ok ab) (right : b.add c = .ok bc)
    (whole : ab.add c = .ok abc) : a.add bc = .ok abc := by
  rw [add_eq_ok_iff] at left right whole ⊢
  omega

/-- Nothing is added to an offset by the one that stays in place. -/
theorem zero_add (a : Offset) : zero.add a = .ok a := by
  rw [add_eq_ok_iff]
  have none : (0 : Int64).toInt = 0 := rfl
  simp [zero, none]

/-- Adding the zero offset is always in range and changes nothing. -/
theorem add_zero (a : Offset) : a.add .zero = .ok a := by
  rw [add_eq_ok_iff]
  have none : (0 : Int64).toInt = 0 := rfl
  simp [zero, none]

end KernelFusion.Offset
