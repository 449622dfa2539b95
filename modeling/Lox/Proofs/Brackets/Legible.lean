import Lox.Proofs.Brackets.Text
import Lox.Proofs.Numbers.ReadBack
import Lox.Proofs.Occurrences.Written
import Lox.Proofs.Relabeling.Trees

/-!
# Expressions that their text determines

An expression is legible if each of its tokens is a word of the language, of a kind that the grammar
has in its place, and each of its values is shown as a literal that has this value.  Such an
expression can be read back from the words of its text: how a word is written says which kind it is
and which value it carries, and the kind of the first word in brackets says which node of the tree
the brackets are.  Only the lines of the tokens are lost.

* `Token.unplaced` and `Expr.unplaced`: tokens and trees without their lines;
* `tokenOf` and `Bracketed.expr`: the token that a word is, and the tree that words in brackets are;
* `Value.Legible` and `Expr.Legible`: which values and expressions are legible;
* `expr_bracketed`: a legible expression is read back from its text;
* `unplaced_eq_of_display`: so legible expressions with the same text differ in their lines only.
-/

namespace Lox

open Lox.Derivation

/-! ### Tokens and trees without their lines -/

/-- A token without its line. -/
def Token.unplaced (token : Token) : Token := { token with line := 0 }

/-- An expression whose tokens are without their lines. -/
def Expr.unplaced (expr : Expr) : Expr := expr.relabel Token.unplaced Token.unplaced

/-- A token is a word of the language and carries its value. -/
def Token.Spelled (token : Token) : Prop :=
  Spells token.kind token.lexeme.toList token.literal

/-! ### Words -/

/-- The token that a word is. -/
def tokenOf : List Char → Token
  | [] => .endOf 0
  | c :: rest => ((Segment.first c rest).token? 0).getD (.endOf 0)

/-- A word has its kind and its value from how it is written. -/
theorem Token.Spelled.tokenOf_eq {token : Token} (h : token.Spelled) :
    tokenOf token.lexeme.toList = token.unplaced := by
  obtain ⟨c, rest, hword⟩ := List.exists_cons_of_ne_nil h.ne_nil
  have hends : WordEnds [] token.lexeme.toList token.kind := wordEnds_of_blank (by simp) _ _
  have hfirst : Segment.first c rest = .lexeme token.kind token.lexeme.toList :=
    Segment.first_of_word h hends (by rw [List.append_nil, hword])
  rw [hword, tokenOf, hfirst, Segment.token?, literal?_of_spells h, String.ofList_toList]
  rfl

theorem isPlain_of_namePart {c : Char} (h : isNamePart c = true) : isPlain c = true := by
  by_contra hc
  have hother : (c = ' ' ∨ c = '(') ∨ c = ')' := by
    simpa [isPlain, or_iff_not_imp_left] using hc
  rcases hother with (rfl | rfl) | rfl <;> exact absurd h (by decide)

theorem isPlain_of_digit {c : Char} (h : c.isDigit = true) : isPlain c = true :=
  isPlain_of_namePart (by rw [isNamePart, h, Bool.or_true])

/-- Only strings and parentheses have blanks or brackets in them. -/
theorem Spells.plain {kind : TokenKind} {word : List Char} {value : Option Value}
    (h : Spells kind word value)
    (hkind : kind ∉ [.string, .symbol .leftParen, .symbol .rightParen]) :
    ∀ c ∈ word, isPlain c = true := by
  cases h with
  | symbol symbol =>
    cases symbol
    case leftParen | rightParen => exact absurd hkind (by decide)
    all_goals exact List.all_eq_true.1 rfl
  | keyword keyword => cases keyword <;> exact List.all_eq_true.1 rfl
  | identifier hstart hmore _ =>
    have hfirst := isPlain_of_namePart (by rw [isNamePart, hstart, Bool.true_or])
    exact List.forall_mem_cons.2 ⟨hfirst, fun c hc => isPlain_of_namePart (hmore c hc)⟩
  | whole _ hdigits => exact fun c hc => isPlain_of_digit (hdigits c hc)
  | fraction _ hdigits _ hplaces =>
    refine List.forall_mem_append.2 ⟨fun c hc => isPlain_of_digit (hdigits c hc), ?_⟩
    exact List.forall_mem_cons.2 ⟨by decide, fun c hc => isPlain_of_digit (hplaces c hc)⟩
  | string _ => exact absurd hkind (by decide)

/-! ### Reading back -/

/-- The expression that a word is on its own. -/
def readAtom (word : Token) : Expr :=
  if word.kind = .identifier then .variable word else .literal (literalValue word)

/-- The expression that a word before one part is.  Of the operators, only the word for parentheses
looks like a name. -/
def readPrefixed (head : Token) (part : Expr) : Expr :=
  if head.kind = .identifier then .grouping part else .unary head part

/-- The expression that a word before two parts is. -/
def readJoined (head : Token) (first second : Expr) : Expr :=
  match head.kind, first with
  | .symbol .equal, .variable name => .assign name second
  | .keyword _, _ => .logical head first second
  | _, _ => .binary head first second

/-- The expression that words in brackets are. -/
def Bracketed.expr : Bracketed → Expr
  | .word text => readAtom (tokenOf text)
  | .one head part => readPrefixed (tokenOf head) part.expr
  | .two head first second => readJoined (tokenOf head) first.expr second.expr

theorem readPrefixed_of_sign (head : Token) (h : head.kind ∈ Role.kinds .sign) (part : Expr) :
    readPrefixed head part = .unary head part :=
  if_neg fun hname => absurd (hname ▸ h) (by decide)

theorem readJoined_of_operator (head : Token) (h : head.kind ∈ Role.kinds .operator)
    (first second : Expr) : readJoined head first second = .binary head first second := by
  have hkeyword : ∀ keyword, .keyword keyword ∉ Role.kinds .operator := by
    rintro ⟨⟩ <;> decide
  unfold readJoined
  split
  · next hkind => exact absurd (hkind ▸ h) (by decide)
  · next hkind => exact absurd (hkind ▸ h) (hkeyword _)
  · rfl

theorem readJoined_of_connective (head : Token) (h : head.kind ∈ Role.kinds .connective)
    (first second : Expr) : readJoined head first second = .logical head first second := by
  obtain hkind | hkind : head.kind = .keyword .and ∨ head.kind = .keyword .or := by
    simpa [Role.kinds] using h
  all_goals simp only [readJoined, hkind]

/-! ### Legible expressions -/

/-- The literal values in an expression. -/
def Expr.literals : Expr → List Value
  | .assign _ value => value.literals
  | .binary _ left right => left.literals ++ right.literals
  | .grouping inner => inner.literals
  | .literal value => [value]
  | .logical _ left right => left.literals ++ right.literals
  | .unary _ operand => operand.literals
  | .variable _ => []

/-- A value that is shown as a literal of its own: no string, and of the numbers those that are
finite and have no sign. -/
def Value.Legible : Value → Prop
  | .nil => True
  | .bool _ => True
  | .number x => x.isFinite = true ∧ x.toBits.toNat < Binary64.codes
  | .string _ => False

/-- A token of a tree that is a word of the language, of a kind that its role has. -/
structure Occurrence.Legible (occurrence : Occurrence) : Prop where
  spelled : occurrence.token.Spelled
  kind : occurrence.token.kind ∈ occurrence.role.kinds

/-- All tokens and all literal values of an expression are legible. -/
def Expr.Legible : Expr → Prop
  | .assign name value => Occurrence.Legible ⟨.target, name⟩ ∧ value.Legible
  | .binary operator left right =>
    Occurrence.Legible ⟨.operator, operator⟩ ∧ left.Legible ∧ right.Legible
  | .grouping inner => inner.Legible
  | .literal value => value.Legible
  | .logical operator left right =>
    Occurrence.Legible ⟨.connective, operator⟩ ∧ left.Legible ∧ right.Legible
  | .unary operator operand => Occurrence.Legible ⟨.sign, operator⟩ ∧ operand.Legible
  | .variable name => Occurrence.Legible ⟨.variable, name⟩

theorem legible_of_tokens {expr : Expr}
    (htokens : ∀ occurrence ∈ expr.occurrences, occurrence.Legible)
    (hvalues : ∀ value ∈ expr.literals, value.Legible) : expr.Legible := by
  induction expr with
  | assign name value ih | unary name value ih =>
    obtain ⟨hname, htokens⟩ := List.forall_mem_cons.1 htokens
    exact ⟨hname, ih htokens hvalues⟩
  | binary operator left right ihl ihr | logical operator left right ihl ihr =>
    obtain ⟨hoperator, htokens⟩ := List.forall_mem_cons.1 htokens
    obtain ⟨hleft, hright⟩ := List.forall_mem_append.1 htokens
    obtain ⟨hleft', hright'⟩ := List.forall_mem_append.1 hvalues
    exact ⟨hoperator, ihl hleft hleft', ihr hright hright'⟩
  | grouping inner ih => exact ih htokens hvalues
  | literal value => exact hvalues value List.mem_cons_self
  | «variable» name => exact htokens _ List.mem_cons_self

/-- A legible value is that of the literal as which it is shown. -/
theorem Value.Legible.exists_token {value : Value} (h : value.Legible) :
    ∃ token : Token, token.Spelled ∧ token.lexeme = value.display ∧
      token.kind ∈ literals.erase .string ∧ literalValue token = value := by
  match value with
  | .nil => exact ⟨⟨.keyword .nil, "nil", none, 0⟩, .keyword .nil, rfl, by decide, rfl⟩
  | .bool true => exact ⟨⟨.keyword .true, "true", none, 0⟩, .keyword .true, rfl, by decide, rfl⟩
  | .bool false => exact ⟨⟨.keyword .false, "false", none, 0⟩, .keyword .false, rfl, by decide, rfl⟩
  | .number x =>
    have hspells := spells_numberText h.1 h.2
    rw [← String.toList_ofList (l := numberText x)] at hspells
    have hkind : TokenKind.number ∈ literals.erase .string := by decide
    exact ⟨numberToken x, hspells, rfl, hkind, rfl⟩

/-- A literal is read back. -/
theorem Value.Legible.readAtom_eq {value : Value} (h : value.Legible) :
    readAtom (tokenOf value.display.toList) = .literal value := by
  obtain ⟨token, hspelled, hlexeme, hkind, hvalue⟩ := h.exists_token
  have hother : token.kind ≠ .identifier := ne_of_mem_of_not_mem hkind (by decide)
  have hunplaced : literalValue token.unplaced = value := hvalue
  rw [← hlexeme, hspelled.tokenOf_eq, readAtom, hunplaced]
  exact if_neg hother

theorem Value.Legible.plain {value : Value} (h : value.Legible) :
    ∀ c ∈ value.display.toList, isPlain c = true := by
  obtain ⟨token, hspelled, hlexeme, hkind, -⟩ := h.exists_token
  have hother : ∀ kind ∈ literals.erase .string,
      kind ∉ [TokenKind.string, .symbol .leftParen, .symbol .rightParen] := by decide
  rw [← hlexeme]
  exact hspelled.plain (hother _ hkind)

/-- No role has strings or parentheses. -/
theorem Occurrence.Legible.plain {occurrence : Occurrence} (h : occurrence.Legible) :
    ∀ c ∈ occurrence.token.lexeme.toList, isPlain c = true := by
  have hother : ∀ role : Role, ∀ kind ∈ role.kinds,
      kind ∉ [TokenKind.string, .symbol .leftParen, .symbol .rightParen] := by
    rintro ⟨⟩ <;> decide
  exact h.spelled.plain (hother _ _ h.kind)

theorem Expr.Legible.plain {expr : Expr} (h : expr.Legible) : expr.bracketed.Plain := by
  induction expr with
  | assign name value ih => exact ⟨List.all_eq_true.1 rfl, h.1.plain, ih h.2⟩
  | binary operator left right ihl ihr | logical operator left right ihl ihr =>
    exact ⟨h.1.plain, ihl h.2.1, ihr h.2.2⟩
  | grouping inner ih => exact ⟨List.all_eq_true.1 rfl, ih h⟩
  | literal value => exact Value.Legible.plain h
  | unary operator operand ih => exact ⟨h.1.plain, ih h.2⟩
  | «variable» name => exact Occurrence.Legible.plain h

/-- A name is read back. -/
theorem readAtom_of_name {role : Role} {name : Token} (h : Occurrence.Legible ⟨role, name⟩)
    (hrole : role.kinds = [.identifier]) :
    readAtom (tokenOf name.lexeme.toList) = .variable name.unplaced := by
  rw [h.spelled.tokenOf_eq]
  exact if_pos (List.mem_singleton.1 (hrole ▸ h.kind))

/-- **A legible expression is read back from the words of its text.** -/
theorem expr_bracketed {expr : Expr} (h : expr.Legible) : expr.bracketed.expr = expr.unplaced := by
  induction expr with
  | assign name value ih =>
    rw [Expr.bracketed, Bracketed.expr, Bracketed.expr, readAtom_of_name h.1 rfl, ih h.2]
    rfl
  | binary operator left right ihl ihr =>
    rw [Expr.bracketed, Bracketed.expr, h.1.spelled.tokenOf_eq, ihl h.2.1, ihr h.2.2]
    exact readJoined_of_operator operator.unplaced h.1.kind _ _
  | grouping inner ih =>
    rw [Expr.bracketed, Bracketed.expr, ih h]
    rfl
  | literal value => exact Value.Legible.readAtom_eq h
  | logical operator left right ihl ihr =>
    rw [Expr.bracketed, Bracketed.expr, h.1.spelled.tokenOf_eq, ihl h.2.1, ihr h.2.2]
    exact readJoined_of_connective operator.unplaced h.1.kind _ _
  | unary operator operand ih =>
    rw [Expr.bracketed, Bracketed.expr, h.1.spelled.tokenOf_eq, ih h.2]
    exact readPrefixed_of_sign operator.unplaced h.1.kind _
  | «variable» name => exact readAtom_of_name h rfl

/-- Legible expressions with the same text differ in the lines of their tokens only. -/
theorem unplaced_eq_of_display {expr expr' : Expr} (h : expr.Legible) (h' : expr'.Legible)
    (hdisplay : expr.display = expr'.display) : expr.unplaced = expr'.unplaced := by
  have htext : expr.bracketed.text = expr'.bracketed.text := by
    rw [← toList_display, ← toList_display, hdisplay]
  rw [← expr_bracketed h, ← expr_bracketed h', Bracketed.text_inj h.plain h'.plain htext]

end Lox
