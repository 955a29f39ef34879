/-!
# Grid displacements

An `Offset` is a constant displacement of a grid point along the three dimensions of the
grid, with one 64-bit component per dimension. Displacements compose by addition: an access
at `inner` made while a value is read at `outer` touches the grid at `inner + outer`.

Arithmetic is checked. A component that leaves the 64-bit range is a `Fault`, it never wraps,
and components are taken in the order `i`, `j`, `k`. `addComponent_eq_ok_iff` and
`add_eq_ok_iff` say when a sum exists and what it is, in exact integers.
-/

namespace KernelFusion

/-- A constant displacement along the three dimensions of the grid. -/
@[ext]
structure Offset where
  i : Int64
  j : Int64
  k : Int64
deriving DecidableEq, Ord

namespace Offset

/-- The ways arithmetic on displacements can fail. -/
inductive Fault where
  /-- A sum left the 64-bit range. -/
  | addition
  /-- The least component has no negative in the 64-bit range. -/
  | negation
  /-- There is no component with this number. -/
  | component (dim : Nat)
deriving DecidableEq

/-- The text of a fault. -/
def Fault.message : Fault → String
  | .addition => "attempt to add with overflow"
  | .negation => "attempt to negate with overflow"
  | .component dim => "index out of bounds: the len is 3 but the index is " ++ toString dim

/-- The displacement that stays in place. -/
def zero : Offset := ⟨0, 0, 0⟩

instance : Inhabited Offset := ⟨zero⟩

/-- Whether the displacement stays in place. -/
def isZero (a : Offset) : Bool := a == zero

/-! ## Checked arithmetic -/

/-- The exact sum of two components, if it is in range. -/
def addComponent (a b : Int64) : Except Fault Int64 :=
  let sum := a.toInt + b.toInt
  if Int64.minValue.toInt ≤ sum ∧ sum ≤ Int64.maxValue.toInt then .ok (Int64.ofInt sum) else .error .addition

/-- The exact negative of a component, if it is in range. -/
def negComponent (a : Int64) : Except Fault Int64 :=
  if a = Int64.minValue then .error .negation else .ok (Int64.ofInt (-a.toInt))

/-- The sum of two displacements, component by component. -/
def add (a b : Offset) : Except Fault Offset := do
  let i ← addComponent a.i b.i
  let j ← addComponent a.j b.j
  let k ← addComponent a.k b.k
  return ⟨i, j, k⟩

/-- The opposite displacement. -/
def neg (a : Offset) : Except Fault Offset := do
  let i ← negComponent a.i
  let j ← negComponent a.j
  let k ← negComponent a.k
  return ⟨i, j, k⟩

/-- The difference of two displacements: the opposite of the second is taken first. -/
def sub (a b : Offset) : Except Fault Offset := do
  let b' ← b.neg
  a.add b'

/-- Where an access at `inner` lands when the value that makes it is read at `outer`. -/
def compose (inner outer : Offset) : Except Fault Offset := inner.add outer

/-- The sum of a list of displacements, from the left. -/
def sum (items : List Offset) : Except Fault Offset := items.foldlM add zero

/-- The component along dimension `dim`, counted from zero. -/
def component (a : Offset) : Nat → Except Fault Int64
  | 0 => .ok a.i
  | 1 => .ok a.j
  | 2 => .ok a.k
  | dim => .error (.component dim)

/-- The text of a displacement, such as `[1, 0, -2]`. -/
def text (a : Offset) : String :=
  "[" ++ toString a.i.toInt ++ ", " ++ toString a.j.toInt ++ ", " ++ toString a.k.toInt ++ "]"

/-! ## When a sum exists -/

/-- A sum of components exists exactly when the exact sum is the value of a component. -/
theorem addComponent_eq_ok_iff {a b c : Int64} :
    addComponent a b = .ok c ↔ c.toInt = a.toInt + b.toInt := by
  have low := c.le_toInt
  have high := c.toInt_lt
  have least : Int64.minValue.toInt = -2 ^ 63 := rfl
  have greatest : Int64.maxValue.toInt = 2 ^ 63 - 1 := rfl
  unfold addComponent
  simp only
  split
  · rename_i range
    have low' : -2 ^ 63 ≤ a.toInt + b.toInt := by omega
    have high' : a.toInt + b.toInt < 2 ^ 63 := by omega
    rw [Except.ok.injEq, ← Int64.toInt_inj, Int64.toInt_ofInt_of_le low' high']
    exact eq_comm
  · rename_i range
    simp only [reduceCtorEq, false_iff]
    intro h
    omega

/-- A sum of displacements exists exactly when all three exact sums are components. -/
theorem add_eq_ok_iff {a b c : Offset} :
    a.add b = .ok c ↔
      c.i.toInt = a.i.toInt + b.i.toInt ∧ c.j.toInt = a.j.toInt + b.j.toInt ∧
        c.k.toInt = a.k.toInt + b.k.toInt := by
  rw [← addComponent_eq_ok_iff, ← addComponent_eq_ok_iff, ← addComponent_eq_ok_iff]
  unfold add
  cases addComponent a.i b.i <;> cases addComponent a.j b.j <;> cases addComponent a.k b.k <;>
    simp [bind, Except.bind, pure, Except.pure, Offset.ext_iff]

end Offset

end KernelFusion
