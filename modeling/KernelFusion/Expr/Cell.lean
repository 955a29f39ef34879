import KernelFusion.Expr.Basic
import KernelFusion.Offset

/-!
# Expressions over grid cells

The reads of an expanded region: a field or a region input, at an offset from the point of
evaluation. This module writes such expressions as text. A field read is the field and its offset,
`%u[1, 0, -2]`; a read of input `n` is `inn` and its offset; a computation is its operator with the
arguments in parentheses.
-/

namespace KernelFusion

/-- What lies outside a region and can be read. -/
inductive Source where
  | field (name : Field)
  | input (index : Nat)
deriving DecidableEq

/-- A source at an offset from the point of evaluation. -/
@[ext]
structure Cell where
  source : Source
  offset : Offset
deriving DecidableEq

/-- The text of a source. -/
def Source.text : Source → String
  | .field f => f.text
  | .input index => "in" ++ toString index

/-- The text of a cell. -/
def Cell.text (cell : Cell) : String := cell.source.text ++ cell.offset.text

namespace Expr

mutual

/-- The text of an expression over cells. -/
def text : Expr Cell → String
  | .read cell => cell.text
  | .const literal => literal.text
  | .compute op args => op.text ++ "(" ++ textOfArgs args ++ ")"

/-- The texts of a list of expressions, separated by a comma and a space. -/
def textOfArgs : List (Expr Cell) → String
  | [] => ""
  | [arg] => text arg
  | arg :: rest => text arg ++ ", " ++ textOfArgs rest

end

/-- The field reads of an expression, depth first. -/
def fieldReads (e : Expr Cell) : List (Field × Offset) :=
  e.reads.filterMap fun cell =>
    match cell.source with
    | .field f => some (f, cell.offset)
    | .input _ => none

end Expr

end KernelFusion
