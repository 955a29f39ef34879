import KernelFusion.Binary64.Basic

/-!
# The fewest digits that read back

`Binary64.shortest` selects, for a finite value other than zero, the decimal with the fewest
digits among those that round to the value; of the two candidates on the coarsest grid that
has one it takes the nearer, and of two equally near ones the larger.

The reals that round to a magnitude form an interval that ends halfway to each neighbour; an end
belongs to it exactly when the significand is even. In quarters of a unit of the last binary
place the ends are whole numbers, so `Binary64.readsBack` compares exactly, with natural numbers
alone. A grid of spacing `10 ^ e` meets the interval only if it does so at one of the two
grid points around the magnitude, so trying those two on ever finer grids is enough.
-/

namespace KernelFusion

/-- The decimal number `digits * 10 ^ exponent`. -/
structure Decimal where
  digits : Nat
  exponent : Int
deriving DecidableEq

namespace Decimal

/-- Compares `a * 10 ^ p` with `b * 2 ^ q`, exactly. -/
def compareBinary (a : Nat) (p : Int) (b : Nat) (q : Int) : Ordering :=
  compare (a * Nat.pow 10 p.toNat * Nat.pow 2 (-q).toNat)
    (b * Nat.pow 2 q.toNat * Nat.pow 10 (-p).toNat)

/-- Moves trailing zeros of the digits into the exponent, at most `fuel` of them. -/
def dropZeros : Nat → Decimal → Decimal
  | 0, d => d
  | fuel + 1, d =>
    if d.digits ≠ 0 ∧ d.digits % 10 = 0 then dropZeros fuel ⟨d.digits / 10, d.exponent + 1⟩ else d

/-- The number of decimal digits of a natural number; zero has one. -/
def width (n : Nat) : Nat := (Nat.toDigits 10 n).length

end Decimal

namespace Binary64

/-- Whether a decimal lies among the reals that round to the magnitude of `x`. -/
def readsBack (x : Binary64) (d : Decimal) : Bool :=
  let below := if x.narrowBelow then 4 * x.significand - 1 else 4 * x.significand - 2
  let above := 4 * x.significand + 2
  let closed := x.significand % 2 == 0
  let low := Decimal.compareBinary d.digits d.exponent below (x.exponent - 2)
  let high := Decimal.compareBinary d.digits d.exponent above (x.exponent - 2)
  (low == .gt || (closed && low == .eq)) && (high == .lt || (closed && high == .eq))

/-- The magnitude as a quotient of natural numbers. -/
def ratio (x : Binary64) : Nat × Nat :=
  (x.significand * Nat.pow 2 x.exponent.toNat, Nat.pow 2 (-x.exponent).toNat)

/-- The least `k` with magnitude below `10 ^ k`. -/
def decimalScale (x : Binary64) : Int :=
  let (num, den) := x.ratio
  if den ≤ num then Decimal.width (num / den)
  else 1 - (Decimal.width ((den - 1) / num) : Int)

/-- The integer part of the magnitude over `10 ^ e`. -/
def gridFloor (x : Binary64) (e : Int) : Nat :=
  let (num, den) := x.ratio
  (num * Nat.pow 10 (-e).toNat) / (den * Nat.pow 10 e.toNat)

/-- Which of the neighbours `c` and `c + 1` on the grid `10 ^ e` reads back, the nearer one first and
the larger one on a tie. -/
def onGrid? (x : Binary64) (e : Int) : Option Decimal :=
  let c := x.gridFloor e
  let lower : Decimal := ⟨c, e⟩
  let upper : Decimal := ⟨c + 1, e⟩
  let upperNearer := Decimal.compareBinary (2 * c + 1) e (2 * x.significand) x.exponent != .gt
  match x.readsBack lower, x.readsBack upper with
  | true, true => some (if upperNearer then upper else lower)
  | true, false => some lower
  | false, true => some upper
  | false, false => none

/-- The magnitude itself, written out in full. -/
def exactDecimal (x : Binary64) : Decimal :=
  ⟨x.significand * Nat.pow 2 x.exponent.toNat * Nat.pow 5 (-x.exponent).toNat, min x.exponent 0⟩

/-- The shortest decimal that reads back as the magnitude of a finite value other than zero. Seventeen
digits suffice for every value, so the written-out magnitude is only a default. -/
def shortest (x : Binary64) : Decimal :=
  let scale := x.decimalScale
  let found := (List.range 17).findSome? fun (n : Nat) => x.onGrid? (scale - 1 - n)
  let d := found.getD x.exactDecimal
  Decimal.dropZeros (Decimal.width d.digits) d

end Binary64

end KernelFusion
