import KernelFusion.Literal

/-!
# Expressions over leaves

An `Expr ρ` is a pointwise expression whose leaves are reads of type `ρ` or literals. Two kinds of
read occur: an access to a kernel parameter at an offset, when a kernel is unfolded on its own,
and a cell of a field or region input, when a whole region is expanded. Replacing every read of the
first kind by an expression over the second is what connects them, and `Expr.bindM` does it for
replacements that may fail, from left to right, keeping the first failure.
-/

namespace KernelFusion

/-- A pointwise expression with reads of type `ρ`. -/
inductive Expr (ρ : Type) where
  | read (source : ρ)
  | const (literal : Literal)
  | compute (op : Operator) (args : List (Expr ρ))

namespace Expr

variable {ρ τ ε : Type}

instance [Inhabited ρ] : Inhabited (Expr ρ) := ⟨.read default⟩

/-! ## Replacing reads -/

mutual

/-- Replaces every read by the expression that `f` gives for it. -/
def bindM (f : ρ → Except ε (Expr τ)) : Expr ρ → Except ε (Expr τ)
  | .read source => f source
  | .const literal => .ok (.const literal)
  | .compute op args => do
    let args' ← bindArgs f args
    return .compute op args'

/-- Replaces every read in a list of expressions, from left to right. -/
def bindArgs (f : ρ → Except ε (Expr τ)) : List (Expr ρ) → Except ε (List (Expr τ))
  | [] => .ok []
  | arg :: rest => do
    let arg' ← bindM f arg
    let rest' ← bindArgs f rest
    return arg' :: rest'

end

/-! ## Reads in order -/

mutual

/-- The reads of an expression, depth first. -/
def reads : Expr ρ → List ρ
  | .read source => [source]
  | .const _ => []
  | .compute _ args => readsOfArgs args

/-- The reads of a list of expressions, depth first. -/
def readsOfArgs : List (Expr ρ) → List ρ
  | [] => []
  | arg :: rest => reads arg ++ readsOfArgs rest

end

/-! ## Numeric agreement -/

mutual

/-- Whether two expressions differ at most in literals that stand for the same value, and hold no
literal that disagrees with itself. -/
def agrees [DecidableEq ρ] : Expr ρ → Expr ρ → Bool
  | .read a, .read b => a == b
  | .const a, .const b => a.agrees b
  | .compute op args, .compute op' args' => op == op' && agreesArgs args args'
  | _, _ => false

/-- Whether two lists of expressions agree place by place. -/
def agreesArgs [DecidableEq ρ] : List (Expr ρ) → List (Expr ρ) → Bool
  | [], [] => true
  | a :: as, b :: bs => agrees a b && agreesArgs as bs
  | _, _ => false

end

end Expr

end KernelFusion
