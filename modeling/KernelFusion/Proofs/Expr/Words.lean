import Mathlib
import KernelFusion.Expr.Cell

/-!
# Words of a text

The text of an expression is cut at its marks: a percent sign, brackets, parentheses and commas. Numbers, truth values
and operators are written without marks, so each of them ends where the next mark stands. The name of a field may hold
marks; if it holds no opening bracket, it ends at the offset. In both cases a text determines the word that it begins
with, and what stands behind the word (`word_append_inj`), and the word determines what is written. Offsets, and with
them cells, close themselves.
-/

namespace KernelFusion

/-! ## Words -/

variable {cut : Char → Bool} {c : Char} {word word' rest rest' : List Char}

/-- None of the characters of a text is one that cuts. -/
def Uncut (cut : Char → Bool) (text : List Char) : Prop := ∀ c ∈ text, cut c = false

instance {text : List Char} : Decidable (Uncut cut text) :=
  List.decidableBAll (fun c => cut c = false) text

/-- What can stand behind a word: nothing, or a text that starts with a character that cuts. -/
def Cuts (cut : Char → Bool) (rest : List Char) : Prop := ∀ c ∈ rest.head?, cut c = true

/-- What starts with a cut cuts. -/
theorem cuts_cons (isCut : cut c = true) : Cuts cut (c :: rest) := by
  intro c' head
  rw [List.head?_cons, Option.mem_some] at head
  exact head ▸ isCut

/-- A word is what stands before the first cut. -/
theorem takeWhile_word (uncut : Uncut cut word) (cuts : Cuts cut rest) :
    (word ++ rest).takeWhile (!cut ·) = word := by
  have inside : ∀ c ∈ word, (!cut c) = true := fun c member => by rw [uncut c member, Bool.not_false]
  have behind : rest.takeWhile (!cut ·) = [] := by
    cases rest with
    | nil => rfl
    | cons c rest => simp [cuts c rfl]
  rw [List.takeWhile_append_of_pos inside, behind, List.append_nil]

/-- A text determines the word that it begins with, and what stands behind the word. -/
theorem word_append_inj (uncut : Uncut cut word) (uncut' : Uncut cut word') (cuts : Cuts cut rest)
    (cuts' : Cuts cut rest') (same : word ++ rest = word' ++ rest') : word = word' ∧ rest = rest' := by
  have words : word = word' := by
    calc word = (word ++ rest).takeWhile (!cut ·) := (takeWhile_word uncut cuts).symm
      _ = (word' ++ rest').takeWhile (!cut ·) := by rw [same]
      _ = word' := takeWhile_word uncut' cuts'
  exact ⟨words, List.append_cancel_left (words ▸ same)⟩

/-! ## Marks -/

/-- The characters that delimit the parts of an expression. -/
def marks : List Char := ['%', '[', ']', '(', ')', ',']

/-- Whether a character delimits the parts of an expression. -/
def isMark (c : Char) : Bool := marks.contains c

theorem isMark_of_isDigit (digit : c.isDigit = true) : isMark c = false := by
  have noDigit : Uncut Char.isDigit marks := by decide
  cases mark : isMark c with
  | false => rfl
  | true => exact Bool.noConfusion (digit.symm.trans (noDigit c (List.contains_iff_mem.mp mark)))

/-! ## Numbers -/

/-- Numbers are written with digits. -/
theorem isDigit_of_mem_nat {n : Nat} (member : c ∈ (toString n).toList) : c.isDigit = true := by
  rw [Nat.toString_eq_repr, Nat.toList_repr] at member
  exact Nat.isDigit_of_mem_toDigits (by decide) (by decide) member

/-- An integer is written with digits and a sign. -/
theorem isDigit_or_sign_of_mem_int {n : Int} (member : c ∈ (toString n).toList) :
    c.isDigit = true ∨ c = '-' := by
  rw [Int.toString_eq_repr, Int.repr_eq_if] at member
  split at member
  · exact .inl (isDigit_of_mem_nat member)
  · rw [String.toList_append, List.mem_append] at member
    rcases member with sign | digit
    · exact .inr (List.mem_singleton.mp sign)
    · exact .inl (isDigit_of_mem_nat digit)

/-- No mark stands in an integer. -/
theorem uncut_int (n : Int) : Uncut isMark (toString n).toList := by
  intro c member
  rcases isDigit_or_sign_of_mem_int member with digit | rfl
  · exact isMark_of_isDigit digit
  · rfl

theorem int_ne_nil (n : Int) : (toString n).toList ≠ [] := by
  rw [Int.toString_eq_repr, Int.repr_eq_if]
  split
  · rw [Nat.toList_repr]
    exact Nat.toDigits_ne_nil
  · rw [String.toList_append]
    exact List.append_ne_nil_of_left_ne_nil (by decide) _

/-- An integer is read off its text up to the next mark. -/
theorem int64_append_inj {a b : Int64} (cuts : Cuts isMark rest) (cuts' : Cuts isMark rest')
    (same : (toString a.toInt).toList ++ rest = (toString b.toInt).toList ++ rest') :
    a = b ∧ rest = rest' := by
  have parts := word_append_inj (uncut_int _) (uncut_int _) cuts cuts' same
  have texts : a.toInt.repr = b.toInt.repr := by
    rw [← Int.toString_eq_repr, ← Int.toString_eq_repr]
    exact String.toList_inj.mp parts.1
  exact ⟨Int64.toInt_inj.mp (Int.repr_inj.mp texts), parts.2⟩

/-! ## Offsets and cells -/

/-- The text of an offset, component by component. -/
theorem Offset.toList_text (a : Offset) : a.text.toList ++ rest =
    '[' :: ((toString a.i.toInt).toList ++ ',' :: ' ' :: ((toString a.j.toInt).toList ++
      ',' :: ' ' :: ((toString a.k.toInt).toList ++ ']' :: rest))) := by
  simp [text]

/-- An offset closes itself, so anything can stand behind it. -/
theorem Offset.text_append_inj {a b : Offset}
    (same : a.text.toList ++ rest = b.text.toList ++ rest') : a = b ∧ rest = rest' := by
  rw [toList_text, toList_text] at same
  obtain ⟨i, same⟩ := int64_append_inj (cuts_cons rfl) (cuts_cons rfl) (List.cons.inj same).2
  obtain ⟨j, same⟩ := int64_append_inj (cuts_cons rfl) (cuts_cons rfl)
    (List.cons.inj (List.cons.inj same).2).2
  obtain ⟨k, same⟩ := int64_append_inj (cuts_cons rfl) (cuts_cons rfl)
    (List.cons.inj (List.cons.inj same).2).2
  exact ⟨Offset.ext i j k, (List.cons.inj same).2⟩

/-- A field is named without an opening bracket. -/
def Source.Legible : Source → Prop
  | .field f => '[' ∉ f.name.toList
  | .input _ => True

instance : DecidablePred Source.Legible
  | .field f => inferInstanceAs (Decidable ('[' ∉ f.name.toList))
  | .input _ => .isTrue trivial

theorem Source.toList_text_field (f : Field) : (Source.field f).text.toList = '%' :: f.name.toList := by
  simp [text, Field.text]

theorem Source.toList_text_input (index : Nat) :
    (Source.input index).text.toList = 'i' :: 'n' :: (toString index).toList := by
  simp [text]

/-- The text of a source tells fields from inputs, and one from another. -/
theorem Source.text_injective : Function.Injective Source.text := by
  intro a b same
  rw [← String.toList_inj] at same
  cases a with
  | field f =>
    cases b with
    | field f' =>
      rw [toList_text_field, toList_text_field, List.cons.injEq, String.toList_inj] at same
      exact congrArg (fun name => Source.field ⟨name⟩) same.2
    | input index' =>
      rw [toList_text_field, toList_text_input] at same
      cases (List.cons.inj same).1
  | input index =>
    cases b with
    | field f' =>
      rw [toList_text_field, toList_text_input] at same
      cases (List.cons.inj same).1
    | input index' =>
      rw [toList_text_input, toList_text_input, List.cons.injEq, List.cons.injEq, String.toList_inj,
        Nat.toString_eq_repr, Nat.toString_eq_repr, Nat.repr_inj] at same
      exact congrArg Source.input same.2.2

theorem Source.uncut_input (index : Nat) : Uncut isMark (Source.input index).text.toList := by
  intro c member
  rw [toList_text_input, List.mem_cons, List.mem_cons] at member
  rcases member with rfl | rfl | digit
  · rfl
  · rfl
  · exact isMark_of_isDigit (isDigit_of_mem_nat digit)

/-- The opening bracket of the offset is the first one. -/
theorem Source.Legible.uncut {source : Source} (legible : source.Legible) :
    Uncut (· == '[') source.text.toList := by
  cases source with
  | field f =>
    intro c member
    rw [toList_text_field, List.mem_cons] at member
    rcases member with rfl | member
    · rfl
    · exact beq_false_of_ne fun opening => legible (opening ▸ member)
  | input index =>
    intro c member
    refine beq_false_of_ne fun opening => ?_
    have plain := uncut_input index c member
    rw [opening] at plain
    cases plain

/-- A read is determined by the text up to the end of its offset. -/
theorem Cell.text_append_inj {cell cell' : Cell} (legible : cell.source.Legible)
    (legible' : cell'.source.Legible)
    (same : cell.text.toList ++ rest = cell'.text.toList ++ rest') : cell = cell' ∧ rest = rest' := by
  rw [text, text, String.toList_append, String.toList_append, List.append_assoc, List.append_assoc] at same
  have opens (a : Offset) (behind : List Char) : Cuts (· == '[') (a.text.toList ++ behind) := by
    rw [Offset.toList_text]
    exact cuts_cons rfl
  obtain ⟨sources, same⟩ := word_append_inj legible.uncut legible'.uncut (opens _ _) (opens _ _) same
  obtain ⟨offsets, same⟩ := Offset.text_append_inj same
  exact ⟨Cell.ext (Source.text_injective (String.toList_inj.mp sources)) offsets, same⟩

/-! ## Literals and operators -/

theorem Operator.uncut_text (op : Operator) : Uncut isMark op.text.toList := by
  cases op <;> decide

theorem Operator.text_ne_nil (op : Operator) : op.text.toList ≠ [] := by
  cases op <;> decide

/-- Operations have different names. -/
theorem Operator.text_injective : Function.Injective Operator.text := by
  intro op op' same
  cases op <;> cases op' <;> simp [text] at same ⊢

/-- The name of an operation ends at the opening bracket. -/
theorem Operator.text_append_inj {op op' : Operator}
    (same : op.text.toList ++ '(' :: rest = op'.text.toList ++ '(' :: rest') : op = op' ∧ rest = rest' := by
  obtain ⟨texts, same⟩ := word_append_inj op.uncut_text op'.uncut_text (cuts_cons rfl) (cuts_cons rfl) same
  exact ⟨text_injective (String.toList_inj.mp texts), (List.cons.inj same).2⟩

section Literal

variable {literal literal' : Literal}

theorem Literal.uncut_text (nonFloat : literal.type.isFloat = false) :
    Uncut isMark literal.text.toList := by
  cases literal with
  | int value => exact uncut_int value.toInt
  | float value => cases nonFloat
  | bool value => cases value <;> decide

theorem Literal.text_ne_nil (nonFloat : literal.type.isFloat = false) : literal.text.toList ≠ [] := by
  cases literal with
  | int value => exact int_ne_nil value.toInt
  | float value => cases nonFloat
  | bool value => cases value <;> decide

/-- An integer is not written like a truth value. -/
theorem Literal.int_ne_bool (n : Int) (b : Bool) : toString n ≠ toString b := by
  intro same
  have written (letter : Char) (member : letter ∈ (toString b).toList) :
      letter.isDigit = true ∨ letter = '-' := isDigit_or_sign_of_mem_int (same ▸ member)
  cases b with
  | false => exact absurd (written 'f' (by decide)) (by decide)
  | true => exact absurd (written 't' (by decide)) (by decide)

/-- Constants other than floats are determined by their text, without being told their type. -/
theorem Literal.eq_of_text_eq (nonFloat : literal.type.isFloat = false)
    (nonFloat' : literal'.type.isFloat = false) (same : literal.text = literal'.text) :
    literal = literal' := by
  cases literal with
  | int value =>
    cases literal' with
    | int value' => exact congrArg int (Int64.toInt_inj.mp (Int.repr_inj.mp same))
    | float value' => cases nonFloat'
    | bool value' => exact (int_ne_bool _ _ same).elim
  | float value => cases nonFloat
  | bool value =>
    cases literal' with
    | int value' => exact (int_ne_bool _ _ same.symm).elim
    | float value' => cases nonFloat'
    | bool value' =>
      have injective : ∀ a b : Bool, toString a = toString b → a = b := by decide
      exact congrArg bool (injective _ _ same)

/-- The text of such a constant ends where a mark follows. -/
theorem Literal.text_append_inj (nonFloat : literal.type.isFloat = false)
    (nonFloat' : literal'.type.isFloat = false) (cuts : Cuts isMark rest) (cuts' : Cuts isMark rest')
    (same : literal.text.toList ++ rest = literal'.text.toList ++ rest') :
    literal = literal' ∧ rest = rest' := by
  obtain ⟨texts, same⟩ := word_append_inj (uncut_text nonFloat) (uncut_text nonFloat') cuts cuts' same
  exact ⟨eq_of_text_eq nonFloat nonFloat' (String.toList_inj.mp texts), same⟩

end Literal

end KernelFusion
