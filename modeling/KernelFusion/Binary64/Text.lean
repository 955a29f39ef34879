import KernelFusion.Binary64.Shortest

/-!
# The text of a binary64 constant

A constant is written with the fewest digits that read back. Zero and magnitudes from `10 ^ -4`
to below `10 ^ 16` are positional with at least one digit after the point; other magnitudes are
scientific, with the exponent's sign only when it is negative and a point only between digits.
The sign of zero is kept; patterns that stand for no number all have one text.
-/

namespace KernelFusion

namespace Decimal

/-- The digits of a natural number as text. -/
def digitChars (n : Nat) : List Char := Nat.toDigits 10 n

/-- The power of ten of the leading digit. -/
def leadingPower (d : Decimal) : Int := (width d.digits : Int) - 1 + d.exponent

/-- Positional form, with at least one digit on each side of the point. -/
def positional (d : Decimal) : String :=
  let cs := digitChars d.digits
  if 0 ≤ d.exponent then
    String.ofList (cs ++ List.replicate d.exponent.toNat '0' ++ ['.', '0'])
  else
    let places := (-d.exponent).toNat
    if places < cs.length then
      String.ofList (cs.take (cs.length - places) ++ ['.'] ++ cs.drop (cs.length - places))
    else
      String.ofList (['0', '.'] ++ List.replicate (places - cs.length) '0' ++ cs)

/-- Scientific form, with one digit before the point. -/
def scientific (d : Decimal) : String :=
  let mantissa := match digitChars d.digits with
    | [] => []
    | [c] => [c]
    | c :: rest => c :: '.' :: rest
  String.ofList (mantissa ++ ['e']) ++ toString d.leadingPower

/-- Positional between `10 ^ -4` and `10 ^ 16`, scientific elsewhere. -/
def text (d : Decimal) : String :=
  if -4 ≤ d.leadingPower ∧ d.leadingPower < 16 then d.positional else d.scientific

end Decimal

/-- The text of a binary64 constant. -/
def Binary64.text (x : Binary64) : String :=
  if x.isNaN then "NaN"
  else
    let magnitude :=
      if x.isInfinite then "inf" else if x.isZero then "0.0" else x.shortest.text
    if x.negative then "-" ++ magnitude else magnitude

end KernelFusion
