/-!
# Elements: types, fields and pointwise operators

The vocabulary that kernels and regions share. Element types are opaque tags, compared and
never computed with; fields are named arrays from outside; operators are the pointwise
arithmetic of a kernel, of which only the number of arguments matters here.
-/

namespace KernelFusion

/-- The element type of a value. -/
inductive ElementType where
  | bool
  | int32
  | int64
  | float32
  | float64
deriving DecidableEq, Ord

namespace ElementType

/-- Whether the elements are floating-point numbers. -/
def isFloat : ElementType → Bool
  | .float32 | .float64 => true
  | _ => false

/-- The name of an element type. -/
def text : ElementType → String
  | .bool => "bool"
  | .int32 => "int32"
  | .int64 => "int64"
  | .float32 => "float32"
  | .float64 => "float64"

end ElementType

/-- The name of an array supplied from outside the region. -/
structure Field where
  name : String
deriving DecidableEq, Ord

/-- A field is written with a percent sign before its name. -/
def Field.text (field : Field) : String := "%" ++ field.name

/-- Pointwise arithmetic of a kernel. -/
inductive Operator where
  | add
  | sub
  | mul
  | div
  | neg
  | min
  | max
deriving DecidableEq, Ord

namespace Operator

/-- The number of arguments an operator takes. -/
def arity : Operator → Nat
  | .neg => 1
  | _ => 2

/-- The name of an operator. -/
def text : Operator → String
  | .add => "add"
  | .sub => "sub"
  | .mul => "mul"
  | .div => "div"
  | .neg => "neg"
  | .min => "min"
  | .max => "max"

/-- Every operator takes an argument. -/
theorem arity_pos (op : Operator) : 0 < op.arity := by
  cases op <;> decide

end Operator

end KernelFusion
