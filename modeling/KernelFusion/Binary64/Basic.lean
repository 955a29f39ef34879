/-!
# Binary64 constants as bit patterns

A floating-point constant of a kernel is carried and printed, never computed with, so it is
kept as its 64 bits. This module reads the fields of the pattern: sign, class, and for a finite
value the natural number `significand` and the integer `exponent` with magnitude
`significand * 2 ^ exponent`.

Two patterns `agree` when they are the same number: the two zeros agree, a value that is not a
number agrees with nothing, and any other value only with itself.
-/

namespace KernelFusion

/-- A floating-point constant, by its bit pattern. -/
structure Binary64 where
  bits : UInt64
deriving DecidableEq

namespace Binary64

/-! ## Fields of the pattern -/

/-- The sign bit. -/
def negative (x : Binary64) : Bool := Nat.pow 2 63 ≤ x.bits.toNat

/-- The eleven bits of the exponent field. -/
def exponentField (x : Binary64) : Nat := x.bits.toNat / Nat.pow 2 52 % Nat.pow 2 11

/-- The fifty-two bits of the fraction field. -/
def fractionField (x : Binary64) : Nat := x.bits.toNat % Nat.pow 2 52

/-! ## Classes -/

/-- Whether the pattern stands for no number. -/
def isNaN (x : Binary64) : Bool := x.exponentField == 2047 && x.fractionField != 0

/-- Whether the pattern is one of the two infinities. -/
def isInfinite (x : Binary64) : Bool := x.exponentField == 2047 && x.fractionField == 0

/-- Whether the pattern is one of the two zeros. -/
def isZero (x : Binary64) : Bool := x.exponentField == 0 && x.fractionField == 0

/-! ## The magnitude of a finite value -/

/-- The integer factor of a finite value's magnitude. -/
def significand (x : Binary64) : Nat :=
  if x.exponentField = 0 then x.fractionField else Nat.pow 2 52 + x.fractionField

/-- The power of two in a finite value's magnitude. -/
def exponent (x : Binary64) : Int :=
  if x.exponentField = 0 then -1074 else (x.exponentField : Int) - 1075

/-- Whether the next smaller magnitude is half as far away as the next larger one. -/
def narrowBelow (x : Binary64) : Bool := x.fractionField == 0 && 1 < x.exponentField

/-! ## Numeric agreement -/

/-- Whether two patterns are the same number. -/
def agrees (x y : Binary64) : Bool :=
  !x.isNaN && !y.isNaN && (x == y || (x.isZero && y.isZero))

/-- A pattern agrees with itself unless it stands for no number. -/
theorem agrees_self (x : Binary64) : x.agrees x = !x.isNaN := by
  simp [agrees]

/-- Agreement of floats as numbers goes both ways. -/
theorem agrees_comm (x y : Binary64) : x.agrees y = y.agrees x := by
  simp only [agrees, Bool.and_comm, BEq.comm]

end Binary64

end KernelFusion
