import KernelFusion.Element
import KernelFusion.Binary64.Text

/-!
# Literals of a kernel

A `Literal` is a constant used inside a kernel. Equality of literals is equality of what is
stored, bit by bit. `Literal.agrees` compares them as the numbers they stand for, which differs
for floating-point literals only.
-/

namespace KernelFusion

/-- A constant used inside a kernel. -/
inductive Literal where
  | int (value : Int64)
  | float (value : Binary64)
  | bool (value : Bool)
deriving DecidableEq

namespace Literal

/-- The natural element type of a literal. -/
def type : Literal → ElementType
  | .int _ => .int64
  | .float _ => .float64
  | .bool _ => .bool

/-- Whether two literals are of one kind and stand for the same value. -/
def agrees : Literal → Literal → Bool
  | .int a, .int b => a == b
  | .float a, .float b => a.agrees b
  | .bool a, .bool b => a == b
  | _, _ => false

/-- The text of a literal. -/
def text : Literal → String
  | .int value => toString value.toInt
  | .float value => value.text
  | .bool value => toString value

end Literal

end KernelFusion
