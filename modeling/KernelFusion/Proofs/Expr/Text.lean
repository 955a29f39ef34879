import KernelFusion.Proofs.Expr.Words

/-!
# The text of an expression is unambiguous

Two facts carry the induction. The first mark of a text tells what form the expression has that it begins with
(`formAt_text`); a literal has no mark, and there it is the mark behind the literal that tells. And a text that begins
with an expression determines the expression and what stands behind it, as long as that can stand behind an argument
(`Legible.determined`). Nothing stands behind a whole text, which gives `text_inj`.

`Legible` leaves out two kinds of expression. A field name with an opening bracket can spell an offset and the argument
behind it, as the example at the end shows; and the floating-point literals that are not numbers have one text.
-/

namespace KernelFusion.Expr

variable {c : Char} {word rest rest' : List Char}

/-! ## The form of an expression -/

/-- Fields are named without an opening bracket, and no literal is a floating-point number. -/
inductive Legible : Expr Cell → Prop
  | read {cell : Cell} : cell.source.Legible → Legible (.read cell)
  | const {literal : Literal} : literal.type.isFloat = false → Legible (.const literal)
  | compute {op : Operator} {args : List (Expr Cell)} : (∀ arg ∈ args, Legible arg) →
    Legible (.compute op args)

/-- The forms of an expression. -/
inductive Form where
  | read
  | const
  | compute

/-- The form of an expression. -/
def form {ρ : Type} : Expr ρ → Form
  | .read _ => .read
  | .const _ => .const
  | .compute _ _ => .compute

/-- The form that the first mark of a text tells. -/
def formAt (text : List Char) : Form :=
  match text.find? isMark with
  | some '%' | some '[' => .read
  | some '(' => .compute
  | _ => .const

/-- The characters that can stand behind an argument. -/
def isStop (c : Char) : Bool := c == ',' || c == ')'

theorem eq_of_isStop (stop : isStop c = true) : c = ',' ∨ c = ')' := by
  simpa [isStop] using stop

theorem cuts_of_stops (stops : Cuts isStop rest) : Cuts isMark rest := by
  intro c head
  rcases eq_of_isStop (stops c head) with rfl | rfl <;> rfl

/-- The form of an expression is decided at the first mark, so a word in front does not matter. -/
theorem formAt_append (uncut : Uncut isMark word) : formAt (word ++ rest) = formAt rest := by
  have unmarked : word.find? isMark = none :=
    List.find?_eq_none.mpr fun c member => by rw [uncut c member]; exact Bool.false_ne_true
  rw [formAt, List.find?_append, unmarked, Option.none_or, formAt]

theorem formAt_of_stops (stops : Cuts isStop rest) : formAt rest = .const := by
  cases rest with
  | nil => rfl
  | cons c rest =>
    rcases eq_of_isStop (stops c rfl) with rfl | rfl <;> rfl

/-- The first mark of a read is the percent sign of a field or the square bracket of its offset. -/
theorem formAt_cell (cell : Cell) : formAt (cell.text.toList ++ rest) = .read := by
  rw [Cell.text, String.toList_append, List.append_assoc]
  cases cell.source with
  | field f => rw [Source.toList_text_field]; rfl
  | input index => rw [formAt_append (Source.uncut_input index), Offset.toList_text]; rfl

variable {e e' : Expr Cell} {op : Operator} {args args' : List (Expr Cell)}

/-- The text of an operation: its name, and its arguments in round brackets. -/
theorem toList_text_compute : (text (.compute op args)).toList ++ rest =
    op.text.toList ++ '(' :: ((textOfArgs args).toList ++ ')' :: rest) := by
  simp [text]

/-- The first mark tells the form of the expression that a text begins with. -/
theorem formAt_text (legible : e.Legible) (stops : Cuts isStop rest) :
    formAt (e.text.toList ++ rest) = e.form := by
  cases legible with
  | @read cell source => rw [text, formAt_cell, form]
  | const nonFloat => rw [text, formAt_append (Literal.uncut_text nonFloat), formAt_of_stops stops, form]
  | @compute op args legible => rw [toList_text_compute, formAt_append op.uncut_text]; rfl

/-- Two texts that agree with what follows them belong to expressions of one form. -/
theorem form_eq (legible : e.Legible) (legible' : e'.Legible) (stops : Cuts isStop rest)
    (stops' : Cuts isStop rest') (same : e.text.toList ++ rest = e'.text.toList ++ rest') :
    e.form = e'.form := by
  rw [← formAt_text legible stops, same, formAt_text legible' stops']

/-! ## Arguments -/

/-- A text that begins with an expression determines the expression, and what stands behind it, when that can stand
behind an argument. -/
def Determined (e : Expr Cell) : Prop :=
  ∀ (e' : Expr Cell) (rest rest' : List Char), e'.Legible → Cuts isStop rest → Cuts isStop rest' →
    e.text.toList ++ rest = e'.text.toList ++ rest' → e = e' ∧ rest = rest'

/-- What is written behind an argument: the other arguments, the closing parenthesis and what stands behind it. -/
def behind : List (Expr Cell) → List Char → List Char
  | [], rest => ')' :: rest
  | arg :: args, rest => ',' :: ' ' :: (arg.text.toList ++ behind args rest)

theorem stops_behind : Cuts isStop (behind args rest) := by
  cases args <;> exact cuts_cons rfl

theorem toList_textOfArgs_cons {arg : Expr Cell} :
    (textOfArgs (arg :: args)).toList ++ ')' :: rest = arg.text.toList ++ behind args rest := by
  induction args generalizing arg with
  | nil => rw [textOfArgs, behind]
  | cons arg' args ih => simp [textOfArgs, behind, ← ih]

/-- Arguments are told apart from the end of the list by what stands before them, a comma or a parenthesis. -/
theorem behind_inj (each : ∀ arg ∈ args, arg.Determined) (legible' : ∀ arg ∈ args', arg.Legible)
    (same : behind args rest = behind args' rest') : args = args' ∧ rest = rest' := by
  induction args generalizing args' with
  | nil =>
    cases args' with
    | nil => exact ⟨rfl, (List.cons.inj same).2⟩
    | cons arg' args' => cases (List.cons.inj same).1
  | cons arg args ih =>
    rw [List.forall_mem_cons] at each
    cases args' with
    | nil => cases (List.cons.inj same).1
    | cons arg' args' =>
      rw [List.forall_mem_cons] at legible'
      have same := (List.cons.inj (List.cons.inj same).2).2
      obtain ⟨first, same⟩ := each.1 arg' _ _ legible'.1 stops_behind stops_behind same
      obtain ⟨others, same⟩ := ih each.2 legible'.2 same
      exact ⟨by rw [first, others], same⟩

/-- A text that starts with a word does not start with a closing bracket, so no list of arguments looks empty. -/
theorem ne_closed_of_uncut (uncut : Uncut isMark word) (nonempty : word ≠ []) :
    word ++ rest ≠ ')' :: rest' := by
  intro same
  cases word with
  | nil => exact nonempty rfl
  | cons c word =>
    have unmarked := uncut c List.mem_cons_self
    rw [(List.cons.inj same).1] at unmarked
    cases unmarked

/-- The text of an expression is not empty and starts with something else than a closing parenthesis. -/
theorem text_ne_closed (legible : e.Legible) : e.text.toList ++ rest ≠ ')' :: rest' := by
  cases legible with
  | @read cell _ =>
    rw [text, Cell.text, String.toList_append, List.append_assoc]
    intro same
    cases source : cell.source with
    | field f =>
      rw [source, Source.toList_text_field] at same
      cases (List.cons.inj same).1
    | input index =>
      rw [source, Source.toList_text_input] at same
      cases (List.cons.inj same).1
  | const nonFloat =>
    rw [text]
    exact ne_closed_of_uncut (Literal.uncut_text nonFloat) (Literal.text_ne_nil nonFloat)
  | @compute op args _ =>
    rw [toList_text_compute]
    exact ne_closed_of_uncut op.uncut_text op.text_ne_nil

/-- Arguments are determined by their text in brackets, if each argument is by its own. -/
theorem arguments_inj (each : ∀ arg ∈ args, arg.Legible ∧ arg.Determined)
    (legible' : ∀ arg ∈ args', arg.Legible)
    (same : (textOfArgs args).toList ++ ')' :: rest = (textOfArgs args').toList ++ ')' :: rest') :
    args = args' ∧ rest = rest' := by
  cases args with
  | nil =>
    cases args' with
    | nil => exact ⟨rfl, (List.cons.inj same).2⟩
    | cons arg' args' =>
      rw [toList_textOfArgs_cons] at same
      exact (text_ne_closed (legible' arg' List.mem_cons_self) same.symm).elim
  | cons arg args =>
    cases args' with
    | nil =>
      rw [toList_textOfArgs_cons] at same
      exact (text_ne_closed (each arg List.mem_cons_self).1 same).elim
    | cons arg' args' =>
      have same' : behind (arg :: args) rest = behind (arg' :: args') rest' := by
        rw [behind, behind, ← toList_textOfArgs_cons, same, toList_textOfArgs_cons]
      exact behind_inj (fun arg member => (each arg member).2) legible' same'

/-! ## Unique readability -/

/-- What an expression is, and where it ends, can be read off a text that begins with it. -/
theorem Legible.determined (legible : e.Legible) : e.Determined := by
  -- In each case the first marks agree, and with them the forms, so the other expression is of the same form.
  induction legible with
  | @read cell source =>
    intro e' rest rest' legible' stops stops' same
    have forms := form_eq (.read source) legible' stops stops' same
    cases legible' with
    | read source' =>
      rw [text, text] at same
      obtain ⟨cells, same⟩ := Cell.text_append_inj source source' same
      exact ⟨congrArg Expr.read cells, same⟩
    | const => cases forms
    | compute => cases forms
  | @const literal nonFloat =>
    intro e' rest rest' legible' stops stops' same
    have forms := form_eq (.const nonFloat) legible' stops stops' same
    cases legible' with
    | read => cases forms
    | const nonFloat' =>
      rw [text, text] at same
      obtain ⟨literals, same⟩ :=
        Literal.text_append_inj nonFloat nonFloat' (cuts_of_stops stops) (cuts_of_stops stops') same
      exact ⟨congrArg Expr.const literals, same⟩
    | compute => cases forms
  | @compute op args legible ih =>
    intro e' rest rest' legible' stops stops' same
    have forms := form_eq (.compute legible) legible' stops stops' same
    cases legible' with
    | read => cases forms
    | const => cases forms
    | @compute op' args' legible' =>
      rw [toList_text_compute, toList_text_compute] at same
      obtain ⟨ops, same⟩ := Operator.text_append_inj same
      obtain ⟨arguments, same⟩ :=
        arguments_inj (fun arg member => ⟨legible arg member, ih arg member⟩) legible' same
      exact ⟨by rw [ops, arguments], same⟩

/-- Expressions have the same text only if they are the same, whatever their depth, arguments and names. -/
theorem text_inj (legible : e.Legible) (legible' : e'.Legible) : e.text = e'.text ↔ e = e' := by
  constructor
  · intro same
    have nothing : Cuts isStop [] := nofun
    exact (legible.determined e' [] [] legible' nothing nothing (by rw [same])).1
  · exact congrArg text

/-- A difference of a field, the name of which reads like two arguments, and a number. -/
def namedDifference : Expr Cell :=
  .compute .sub [.read ⟨.field ⟨"u, neg(in1"⟩, ⟨0, 0, -1⟩⟩, .const (.int (-1))]

/-- A difference with a field, a negation and a number. -/
def nestedDifference : Expr Cell :=
  .compute .sub [.read ⟨.field ⟨"u"⟩, .zero⟩, .compute .neg [.read ⟨.input 1, ⟨0, 0, -1⟩⟩], .const (.int (-1))]

theorem text_inj_differences :
    namedDifference.Legible ∧ nestedDifference.Legible ∧ namedDifference.text ≠ nestedDifference.text := by
  have named : namedDifference.Legible := by
    refine .compute (List.forall_mem_cons.mpr ⟨.read ?_, List.forall_mem_singleton.mpr (.const rfl)⟩)
    decide
  have negation : (Expr.compute .neg [.read ⟨.input 1, ⟨0, 0, -1⟩⟩]).Legible :=
    .compute (List.forall_mem_singleton.mpr (.read trivial))
  have nested : nestedDifference.Legible := by
    refine .compute (List.forall_mem_cons.mpr ⟨.read ?_, List.forall_mem_cons.mpr
      ⟨negation, List.forall_mem_singleton.mpr (.const rfl)⟩⟩)
    decide
  refine ⟨named, nested, fun same => ?_⟩
  have equal : namedDifference = nestedDifference := (text_inj named nested).mp same
  simp [namedDifference, nestedDifference] at equal

/-- A name with an opening bracket can hold the text of a whole argument and the start of the next. -/
example :
    text (.compute .add [.read ⟨.field ⟨"u[0, 0, 0], %v"⟩, .zero⟩, .read ⟨.field ⟨"w"⟩, .zero⟩]) =
      text (.compute .add [.read ⟨.field ⟨"u"⟩, .zero⟩, .read ⟨.field ⟨"v[0, 0, 0], %w"⟩, .zero⟩]) := by
  cbv

end KernelFusion.Expr
