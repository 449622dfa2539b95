import Lox.Expr
import Lox.Proofs.Scanning.Words

/-!
# Texts in brackets

The text of an expression is a word, or brackets around an operator and one part or two.  If no word
in it has a blank or a bracket, the text can be read in one way only: each word ends at the first
blank or closing bracket, and how many parts there are is seen when the brackets close.

* `Bracketed` and `Bracketed.text`: words in brackets, and how they are written;
* `Bracketed.Plain`: no word has a blank or a bracket;
* `Bracketed.text_append_inj`: such a text is read in one way, whatever follows it;
* `Expr.bracketed` and `toList_display`: the text of an expression is written so.
-/

namespace Lox

/-- Words in brackets. -/
inductive Bracketed where
  /-- A word on its own. -/
  | word (text : List Char)
  /-- Brackets around a word and one part. -/
  | one (head : List Char) (part : Bracketed)
  /-- Brackets around a word and two parts. -/
  | two (head : List Char) (first second : Bracketed)

/-- The characters that are no blank and no bracket. -/
def isPlain (c : Char) : Bool := c != ' ' && c != '(' && c != ')'

/-- Nothing follows, or a word ends here. -/
def WordStops (rest : List Char) : Prop := ∀ c ∈ rest.head?, c = ' ' ∨ c = ')'

namespace Bracketed

/-- How words in brackets are written. -/
def text : Bracketed → List Char
  | .word text => text
  | .one head part => '(' :: (head ++ ' ' :: (part.text ++ [')']))
  | .two head first second => '(' :: (head ++ ' ' :: (first.text ++ ' ' :: (second.text ++ [')'])))

/-- No word has a blank or a bracket. -/
def Plain : Bracketed → Prop
  | .word text => ∀ c ∈ text, isPlain c = true
  | .one head part => (∀ c ∈ head, isPlain c = true) ∧ part.Plain
  | .two head first second => (∀ c ∈ head, isPlain c = true) ∧ first.Plain ∧ second.Plain

end Bracketed

/-! ### Reading -/

section

variable {rest rest' : List Char}

theorem wordStops_blank : WordStops (' ' :: rest) := by
  rintro c ⟨⟩
  exact .inl rfl

theorem wordStops_bracket : WordStops (')' :: rest) := by
  rintro c ⟨⟩
  exact .inr rfl

theorem WordStops.not_plain (h : WordStops rest) : ∀ c ∈ rest.head?, isPlain c = false := by
  intro c hc
  rcases h c hc with rfl | rfl <;> decide

/-- A word ends at the first blank or bracket. -/
theorem word_append_inj {word word' : List Char} (hword : ∀ c ∈ word, isPlain c = true)
    (hword' : ∀ c ∈ word', isPlain c = true) (hstops : WordStops rest) (hstops' : WordStops rest')
    (h : word ++ rest = word' ++ rest') : word = word' ∧ rest = rest' := by
  constructor
  · rw [← takeWhile_of_ends hword hstops.not_plain, h, takeWhile_of_ends hword' hstops'.not_plain]
  · rw [← dropWhile_of_ends hword hstops.not_plain, h, dropWhile_of_ends hword' hstops'.not_plain]

/-- No word begins with an opening bracket. -/
theorem word_append_ne_bracket {word : List Char} (hword : ∀ c ∈ word, isPlain c = true)
    (hstops : WordStops rest) (inner : List Char) : word ++ rest ≠ '(' :: inner := by
  intro h
  cases word with
  | nil =>
    rw [List.nil_append] at h
    rcases hstops '(' (by rw [h]; rfl) with h | h <;> exact absurd h (by decide)
  | cons c word =>
    obtain ⟨rfl, -⟩ := List.cons.inj h
    exact absurd (hword _ List.mem_cons_self) (by decide)

/-- The word behind an opening bracket ends at the first blank. -/
theorem head_append_inj {head head' inner inner' : List Char} (hhead : ∀ c ∈ head, isPlain c = true)
    (hhead' : ∀ c ∈ head', isPlain c = true)
    (h : '(' :: (head ++ ' ' :: inner) = '(' :: (head' ++ ' ' :: inner')) :
    head = head' ∧ inner = inner' := by
  obtain ⟨rfl, hinner⟩ :=
    word_append_inj hhead hhead' wordStops_blank wordStops_blank (List.cons.inj h).2
  exact ⟨rfl, (List.cons.inj hinner).2⟩

end

namespace Bracketed

@[simp] theorem text_one_append (head rest : List Char) (part : Bracketed) :
    (one head part).text ++ rest = '(' :: (head ++ ' ' :: (part.text ++ ')' :: rest)) := by
  simp [text]

@[simp] theorem text_two_append (head rest : List Char) (first second : Bracketed) :
    (two head first second).text ++ rest =
      '(' :: (head ++ ' ' :: (first.text ++ ' ' :: (second.text ++ ')' :: rest))) := by
  simp [text]

/-- **Texts in brackets are read in one way.**  The text of plain words in brackets, with an end of
a word or nothing behind it, determines the words, their brackets and where it ends. -/
theorem text_append_inj {a b : Bracketed} (ha : a.Plain) (hb : b.Plain) {rest rest' : List Char}
    (hstops : WordStops rest) (hstops' : WordStops rest') (h : a.text ++ rest = b.text ++ rest') :
    a = b ∧ rest = rest' := by
  induction a generalizing b rest rest' with
  | word word =>
    cases b with
    | word word' =>
      obtain ⟨rfl, hrest⟩ := word_append_inj ha hb hstops hstops' h
      exact ⟨rfl, hrest⟩
    | one head part =>
      rw [text_one_append] at h
      exact absurd h (word_append_ne_bracket ha hstops _)
    | two head first second =>
      rw [text_two_append] at h
      exact absurd h (word_append_ne_bracket ha hstops _)
  | one head part ih =>
    rw [text_one_append] at h
    cases b with
    | word word => exact absurd h.symm (word_append_ne_bracket hb hstops' _)
    | one head' part' =>
      rw [text_one_append] at h
      obtain ⟨rfl, hinner⟩ := head_append_inj ha.1 hb.1 h
      obtain ⟨rfl, hclosing⟩ := ih ha.2 hb.2 wordStops_bracket wordStops_bracket hinner
      exact ⟨rfl, (List.cons.inj hclosing).2⟩
    | two head' first second =>
      -- Where the brackets close around one part, a blank stands before the second.
      rw [text_two_append] at h
      obtain ⟨rfl, hinner⟩ := head_append_inj ha.1 hb.1 h
      obtain ⟨rfl, hclosing⟩ := ih ha.2 hb.2.1 wordStops_bracket wordStops_blank hinner
      exact absurd (List.cons.inj hclosing).1 (by decide)
  | two head first second ihfirst ihsecond =>
    rw [text_two_append] at h
    cases b with
    | word word => exact absurd h.symm (word_append_ne_bracket hb hstops' _)
    | one head' part =>
      rw [text_one_append] at h
      obtain ⟨rfl, hinner⟩ := head_append_inj ha.1 hb.1 h
      obtain ⟨rfl, hclosing⟩ := ihfirst ha.2.1 hb.2 wordStops_blank wordStops_bracket hinner
      exact absurd (List.cons.inj hclosing).1 (by decide)
    | two head' first' second' =>
      rw [text_two_append] at h
      obtain ⟨rfl, hinner⟩ := head_append_inj ha.1 hb.1 h
      obtain ⟨rfl, hbetween⟩ := ihfirst ha.2.1 hb.2.1 wordStops_blank wordStops_blank hinner
      obtain ⟨rfl, hclosing⟩ := ihsecond ha.2.2 hb.2.2 wordStops_bracket wordStops_bracket
        (List.cons.inj hbetween).2
      exact ⟨rfl, (List.cons.inj hclosing).2⟩

theorem text_inj {a b : Bracketed} (ha : a.Plain) (hb : b.Plain) (h : a.text = b.text) : a = b := by
  have hnothing : WordStops [] := nofun
  refine (text_append_inj ha hb hnothing hnothing ?_).1
  rw [h]

end Bracketed

/-! ### Expressions -/

/-- The words of an expression's text, in their brackets. -/
def Expr.bracketed : Expr → Bracketed
  | .assign name value => .two ['='] (.word name.lexeme.toList) value.bracketed
  | .binary operator left right => .two operator.lexeme.toList left.bracketed right.bracketed
  | .grouping inner => .one "group".toList inner.bracketed
  | .literal value => .word value.display.toList
  | .logical operator left right => .two operator.lexeme.toList left.bracketed right.bracketed
  | .unary operator operand => .one operator.lexeme.toList operand.bracketed
  | .variable name => .word name.lexeme.toList

/-- The text of an expression. -/
theorem toList_display (expr : Expr) : expr.display.toList = expr.bracketed.text := by
  induction expr with
  | literal _ | «variable» _ => rfl
  | assign name value ih =>
    simp only [Expr.display, Expr.bracketed, Bracketed.text, String.toList_append, ih,
      Token.display, List.append_assoc]
    rfl
  | binary operator left right ihl ihr | logical operator left right ihl ihr =>
    simp only [Expr.display, Expr.bracketed, Bracketed.text, String.toList_append, ihl, ihr,
      Token.display, List.append_assoc]
    rfl
  | grouping _ ih | unary _ _ ih =>
    simp only [Expr.display, Expr.bracketed, Bracketed.text, String.toList_append, ih,
      Token.display, List.append_assoc]
    rfl

end Lox
