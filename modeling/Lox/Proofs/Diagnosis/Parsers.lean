import Lox.Proofs.Diagnosis.Exact
import Lox.Proofs.Parsing.Accepted

/-!
# The parsers of the grammar are exact

Every parser of the grammar replies exactly, whatever tokens it is given.  Each is put together
from its parts as its definition is, and what comes out is compared with its category: the rule of
the category says that what the parts accept is a text of it, and how its texts are split among
the parts.  The second direction is where the next token has to decide, at every optional part and
at the end of every loop.

* `Placed.phrase`, `Placed.statement` and the like: the texts of a category with what may follow
  them for the parser not to go on;
* `ExactNested`: the parsers one level further in are exact;
* `exact_rule` and `exact_statement`: so are those of the level itself;
* `exactNested`: so all of them are.
-/

namespace Lox.Diagnosis

open Lox.Derivation Lox.Grammar Lox.Parser

namespace Placed

/-- The phrases of a rule that nothing extends. -/
def phrase (rule : Rule) : Placed := fun text after =>
  Derives (.phrase rule) text ∧ Stops rule.extending after

/-- Operators of a precedence with their operands, as long as nothing extends them. -/
def joined (precedence : Precedence) : Placed := fun text after =>
  Derives (.joined precedence) text ∧ Stops (Rule.operation precedence).extending after

/-- Statements, with no `else` behind them that would go with an `if` in them. -/
def statement : Placed := fun text after =>
  ∃ takesElse, Resolved takesElse text ∧ Stops (elseWords takesElse) after

/-- Declarations, with no `else` behind them. -/
def declaration : Placed := fun text after =>
  Derives .declaration text ∧ Stops [.keyword .else] after

/-- Declarations up to a closing brace or the end. -/
def declarations : Placed := fun text after =>
  Derives .program text ∧
    ∀ token ∈ after.head?, token.kind = .symbol .rightBrace ∨ token.kind = .eof

/-- A clause of a loop before the token that ends it. -/
def clause (closing : TokenKind) : Placed := fun text after =>
  Derives .clause text ∧ ∃ (ending : Word closing) (rest : List Token), after = ending.val :: rest

/-- A phrase before a token that does not extend it. -/
theorem seq_phrase {rule : Rule} {second : Placed} {expr text after : List Token} {kind : TokenKind}
    (hexpr : Derives (.phrase rule) expr) (closing : Word kind) (h : kind ∉ rule.extending)
    (hsecond : second (closing.val :: text) after) :
    (phrase rule).seq second (expr ++ closing.val :: text) after :=
  ⟨expr, _, rfl, ⟨hexpr, stops_word closing h⟩, hsecond⟩

end Placed

/-- The parsers one level further in are exact. -/
structure ExactNested (theEnd : Token) (deeper : Nested) : Prop where
  operand (tokens : List Token) :
    Exact (language (.phrase .unary)) (Placed.phrase .unary) theEnd tokens
      (deeper.operand theEnd tokens)
  expression (tokens : List Token) :
    Exact (language (.phrase .expression)) (Placed.phrase .expression) theEnd tokens
      (deeper.expression theEnd tokens)
  statement (tokens : List Token) :
    Exact (language .statement) Placed.statement theEnd tokens (deeper.statement theEnd tokens)

variable {deeper : Nested} {theEnd : Token}

/-- A text that is not empty begins with one of the openers of its category, whatever follows. -/
theorem stops_of_derives {category : Category} {kinds : List TokenKind} {text : List Token}
    (h : Derives category text) (hempty : category.canBeEmpty = false)
    (hother : ∀ kind ∈ category.openers, kind ∉ kinds) (after : List Token) :
    Stops kinds (text ++ after) := by
  obtain ⟨first, more, rfl, hfirst⟩ := (begins h).exists_cons hempty
  rw [List.cons_append, stops_cons]
  exact hother first.kind hfirst

/-- What is joined to an operand does not extend the operand itself. -/
theorem stops_joined {precedence : Precedence} {rest after : List Token}
    (hrest : Derives (.joined precedence) rest)
    (hstops : Stops (Rule.operation precedence).extending after) :
    Stops precedence.tighter.extending (rest ++ after) := by
  cases hrest with
  | noOperator => exact hstops.mono (extendingLast_subset (.operation precedence))
  | operator operator _ _ => exact stops_cons.2 (not_extending_of_operator _ operator.property)

/-! ### The token that decides -/

theorem exists_word {tokens : List Token} {kind : TokenKind} (hend : theEnd.kind = .eof)
    (hkind : (tokens.headD theEnd).kind = kind) (h : kind ≠ .eof) :
    ∃ (word : Word kind) (rest : List Token), tokens = word.val :: rest := by
  cases tokens with
  | nil => exact absurd (hkind.symm.trans hend) h
  | cons token rest => exact ⟨⟨token, hkind⟩, rest, rfl⟩

theorem head_ne {kind other : TokenKind} (word : Word kind) (token : Word other)
    (h : kind ≠ other) : some word.val ≠ some token.val := fun heq =>
  h (by rw [← word.property, Option.some.inj heq, token.property])

theorem head?_ne {category : Category} {kind : TokenKind} {text : List Token}
    (h : Derives category text) (hempty : category.canBeEmpty = false) (token : Word kind)
    (hother : kind ∉ category.openers) (after : List Token) :
    (text ++ after).head? ≠ some token.val := by
  obtain ⟨first, more, rfl, hfirst⟩ := (begins h).exists_cons hempty
  rintro heq
  cases heq
  exact hother (token.property ▸ hfirst)

/-- An expression with what ends it does not begin with a word that no expression begins with. -/
theorem effect_head?_ne {kind : TokenKind} {expr : List Token}
    (h : Derives (.phrase .expression) expr) (token : Word kind) (hother : kind ∉ openers)
    (ending after : List Token) : (expr ++ ending ++ after).head? ≠ some token.val := by
  rw [List.append_assoc]
  exact head?_ne h rfl token hother _

/-! ### Expressions -/

/-- A token that is the only one of its kind to be asked for. -/
def only {kind : TokenKind} (token : OneOf [kind]) : Word kind :=
  ⟨token.val, List.mem_singleton.1 token.property⟩

theorem exact_grouping (hdeeper : ExactNested theEnd deeper) {tokens : List Token}
    (hatom : atom? (tokens.headD theEnd) = none) :
    Exact (language (.phrase .primary)) (Placed.phrase .primary) theEnd tokens
      (grouping deeper theEnd tokens) := by
  have hnone : Exact (language (.phrase .primary)) Placed.never theEnd tokens
      ((fail .expectedExpression : Parser Expr) theEnd tokens) :=
    exact_fail completes_language (by decide) fun _ _ h => h.elim
  rw [grouping]
  refine (exact_take? hnone fun opening rest _ _ => (hdeeper.expression rest).bind
    (fun inner _ _ _ _ => exact_closing .parenAfterExpression inner.grouping)
    completes_words).mono ?_ ?_
  · rintro text (htext | ⟨_, ⟨opening, rfl⟩, _, ⟨inner, hinner, _, ⟨closing, rfl⟩, rfl⟩, rfl⟩)
    · exact htext
    · exact .group (only opening) hinner (only closing)
  · rintro text after ⟨htext, _⟩ hhead
    rw [List.headD_eq_head?_getD, ← hhead] at hatom
    cases htext with
    | literal token => exact absurd (hatom.symm.trans (atom?_of_literal token.property)) (by simp)
    | identifier token => exact absurd (hatom.symm.trans (atom?_of_identifier token)) (by simp)
    | group opening hinner closing =>
      exact Placed.optional_word opening
        (Placed.seq_phrase hinner closing (by decide) (Placed.word_word closing _))

theorem exact_primary (hdeeper : ExactNested theEnd deeper) (hend : theEnd.kind = .eof)
    (tokens : List Token) :
    Exact (language (.phrase .primary)) (Placed.phrase .primary) theEnd tokens
      (Rule.primary.parser deeper theEnd tokens) := by
  cases hatom : atom? (tokens.headD theEnd) with
  | none =>
    show Exact _ _ _ _ (primary deeper theEnd tokens)
    rw [primary, bind_of_done next_eq, hatom]
    exact exact_grouping hdeeper hatom
  | some expr =>
    cases tokens with
    | nil => simp [atom?, hend] at hatom
    | cons token rest =>
      rw [primary_of_atom (List.headD_cons ▸ hatom)]
      refine (exact_pure (a := expr)).cons ?_ ?_
      · rintro _ rfl
        obtain ⟨hkind, _⟩ | ⟨hkind, _⟩ := literal_or_identifier_of_atom? hatom
        · exact .literal ⟨token, hkind⟩
        · exact .identifier ⟨token, hkind⟩
      · rintro text after ⟨htext, _⟩ hhead
        cases htext with
        | literal other =>
          cases hhead
          exact ⟨[], rfl, rfl⟩
        | identifier other =>
          cases hhead
          exact ⟨[], rfl, rfl⟩
        | group opening _ _ =>
          cases hhead
          simp [atom?, opening.property] at hatom

theorem exact_unary (hdeeper : ExactNested theEnd deeper) (hend : theEnd.kind = .eof)
    (tokens : List Token) :
    Exact (language (.phrase .unary)) (Placed.phrase .unary) theEnd tokens
      (Rule.unary.parser deeper theEnd tokens) := by
  rw [parser_unary]
  refine (exact_take? (exact_primary hdeeper hend tokens) fun _ rest _ _ =>
    (hdeeper.operand rest).finish fun _ _ => exact_pure).mono ?_ ?_
  · rintro text (htext | ⟨_, ⟨sign, rfl⟩, operand, hoperand, rfl⟩)
    · exact .unsigned htext
    · exact .signed sign hoperand
  · rintro text after ⟨htext, hstops⟩ _
    cases htext with
    | signed sign hoperand => exact .inr ⟨sign, _, rfl, hoperand, hstops⟩
    | unsigned hprimary =>
      exact .inl ⟨⟨hprimary, hstops⟩, stops_of_derives hprimary rfl (by decide) after⟩

/-- A loop over the operators of a precedence, if it has rounds left for all tokens in hand. -/
theorem exact_chain {precedence : Precedence} {operand : Parser Expr}
    (hoperand : ∀ tokens, Exact (language (.phrase precedence.tighter))
      (Placed.phrase precedence.tighter) theEnd tokens (operand theEnd tokens))
    (rounds tokens : List Token) (left : Expr) (hlong : tokens.length ≤ rounds.length) :
    Exact (language (.joined precedence)) (Placed.joined precedence) theEnd tokens
      (chain precedence.tier operand rounds left theEnd tokens) := by
  induction rounds generalizing tokens left with
  | nil =>
    cases List.length_eq_zero_iff.1 (Nat.le_zero.1 hlong)
    refine (exact_pure (a := left)).mono ?_ ?_
    · rintro _ rfl
      exact .noOperator
    · intro text after _ hhead
      exact (List.append_eq_nil_iff.1 (List.head?_eq_none_iff.1 hhead)).1
  | cons _ rounds ih =>
    rw [chain]
    refine (exact_take? (exact_pure (a := left)) fun operator rest htokens _ => (hoperand rest).bind
      (fun right taken after _ hrest => ih after _ ?_) completes_language).mono ?_ ?_
    · simp only [htokens, hrest, List.length_cons, List.length_append] at hlong
      omega
    · rintro text (rfl | ⟨_, ⟨operator, rfl⟩, _, ⟨right, hright, rest, hrest, rfl⟩, rfl⟩)
      · exact .noOperator
      · show Derives _ (operator.val :: (right ++ rest))
        exact .operator operator hright hrest
    · rintro text after ⟨htext, hstops⟩ _
      cases htext with
      | noOperator => exact .inl ⟨rfl, hstops.mono operators_subset_extending⟩
      | operator operator hright hrest =>
        exact .inr ⟨operator, _, rfl, _, _, rfl, ⟨hright, stops_joined hrest hstops⟩, hrest, hstops⟩

theorem exact_operation (precedence : Precedence)
    (hoperand : ∀ tokens, Exact (language (.phrase precedence.tighter))
      (Placed.phrase precedence.tighter) theEnd tokens
      (precedence.tighter.parser deeper theEnd tokens)) (tokens : List Token) :
    Exact (language (.phrase (.operation precedence))) (Placed.phrase (.operation precedence))
      theEnd tokens ((Rule.operation precedence).parser deeper theEnd tokens) := by
  have hchain (left : Expr) (rest : List Token) :
      Exact (language (.joined precedence)) (Placed.joined precedence) theEnd rest
        ((do
          let rounds ← inHand
          chain precedence.tier (precedence.tighter.parser deeper) rounds left : Parser Expr)
            theEnd rest) := by
    rw [bind_of_done (by rfl)]
    exact exact_chain hoperand rest rest left (Nat.le_refl _)
  rw [parser_operation]
  refine ((hoperand tokens).bind (fun left _ rest _ _ => hchain left rest) completes_language).mono
    ?_ ?_
  · rintro _ ⟨first, hfirst, rest, hrest, rfl⟩
    exact .operation hfirst hrest
  · rintro text after ⟨htext, hstops⟩ _
    cases htext with
    | operation hfirst hrest =>
      exact ⟨_, _, rfl, ⟨hfirst, stops_joined hrest hstops⟩, hrest, hstops⟩

/-- An assignment is read whatever its target is, and a target that is no name is reported. -/
theorem exact_expression (hdeeper : ExactNested theEnd deeper)
    (hor : ∀ tokens, Exact (language (.phrase (.operation .or))) (Placed.phrase (.operation .or))
      theEnd tokens ((Rule.operation .or).parser deeper theEnd tokens)) (tokens : List Token) :
    Exact (language (.phrase .expression)) (Placed.phrase .expression) theEnd tokens
      (Rule.expression.parser deeper theEnd tokens) := by
  rw [parser_expression]
  refine ((hor tokens).bind (fun target _ between _ _ => exact_take? (exact_pure (a := target))
    fun equals rest _ _ => (hdeeper.expression rest).finish fun value rest => ?_)
    completes_one.add).mono ?_ ?_
  · cases target with
    | «variable» name => exact exact_pure
    | _ =>
      exact exact_nothing rfl rfl
        (by simp [report, SyntaxError.atToken, bind, andThen, pure, succeed])
  · rintro _ ⟨target, htarget, _, rfl | ⟨_, ⟨equals, rfl⟩, value, hvalue, rfl⟩, rfl⟩
    · exact .unassigned (by simpa using mem_language.1 htarget)
    · exact .assignment htarget (only equals) hvalue
  · rintro text after ⟨htext, hstops⟩ _
    cases htext with
    | assignment htarget equals hvalue =>
      exact Placed.seq_phrase htarget equals (by decide)
        (Placed.optional_word equals ⟨hvalue, hstops⟩)
    | unassigned htext =>
      exact ⟨text, [], (List.append_nil _).symm, ⟨htext, hstops.mono (by decide)⟩,
        .inl ⟨rfl, hstops.mono (by decide)⟩⟩

/-- **Expressions.**  If the parsers one level further in are exact, so are those of all rules. -/
theorem exact_rule (hdeeper : ExactNested theEnd deeper) (hend : theEnd.kind = .eof) (rule : Rule)
    (tokens : List Token) :
    Exact (language (.phrase rule)) (Placed.phrase rule) theEnd tokens
      (rule.parser deeper theEnd tokens) := by
  have hunary := exact_unary hdeeper hend
  have hfactor := exact_operation .factor hunary
  have hterm := exact_operation .term hfactor
  have hcomparison := exact_operation .comparison hterm
  have hequality := exact_operation .equality hcomparison
  have hand := exact_operation .and hequality
  have hor := exact_operation .or hand
  cases rule with
  | expression => exact exact_expression hdeeper hor tokens
  | operation precedence =>
    cases precedence with
    | or => exact hor tokens
    | and => exact hand tokens
    | equality => exact hequality tokens
    | comparison => exact hcomparison tokens
    | term => exact hterm tokens
    | factor => exact hfactor tokens
  | unary => exact hunary tokens
  | primary => exact exact_primary hdeeper hend tokens

/-! ### Declarations of variables and clauses of loops -/

/-- A condition on the parsers of expressions, which the rules of statements are about. -/
def ExactExpression (theEnd : Token) (deeper : Nested) : Prop :=
  ∀ tokens, Exact (language (.phrase .expression)) (Placed.phrase .expression) theEnd tokens
    (Grammar.expression deeper theEnd tokens)

theorem exact_varDeclaration (hexpr : ExactExpression theEnd deeper) (tokens : List Token) :
    Exact (language .varDeclaration) (fun text _ => Derives .varDeclaration text) theEnd tokens
      (varDeclaration deeper theEnd tokens) := by
  rw [varDeclaration]
  refine ((exact_require .variableName).bind (fun name _ _ _ _ => exact_take?
    (exact_closing .semicolonAfterDeclaration (Stmt.var name none)) fun _ rest _ _ =>
      (hexpr rest).bind (fun value _ _ _ _ =>
        exact_closing .semicolonAfterDeclaration (Stmt.var name (some value))) completes_words)
    completes_words.add).mono ?_ ?_
  · rintro _ ⟨_, ⟨name, rfl⟩, _, ⟨semicolon, rfl⟩ |
      ⟨_, ⟨equals, rfl⟩, _, ⟨value, hvalue, _, ⟨semicolon, rfl⟩, rfl⟩, rfl⟩, rfl⟩
    · exact .plain (only name) (only semicolon)
    · exact .valued (only name) (only equals) hvalue (only semicolon)
  · rintro text after htext _
    cases htext with
    | plain name semicolon =>
      exact Placed.seq_word name (.inl ⟨Placed.word_word semicolon _,
        stops_word semicolon (by decide)⟩)
    | valued name equals hvalue semicolon =>
      exact Placed.seq_word name (Placed.optional_word equals
        (Placed.seq_phrase hvalue semicolon (by decide) (Placed.word_word semicolon _)))

/-- An expression with its semicolon. -/
theorem exact_expressionStatement (hexpr : ExactExpression theEnd deeper) (tokens : List Token) :
    Exact (language (.phrase .expression) * words [.symbol .semicolon])
      ((Placed.phrase .expression).seq (Placed.word [.symbol .semicolon])) theEnd tokens
      (expressionStatement deeper theEnd tokens) :=
  (hexpr tokens).bind (fun expr _ _ _ _ =>
    exact_closing .semicolonAfterExpression (Stmt.expression expr)) completes_words

theorem exact_startClause (hexpr : ExactExpression theEnd deeper) (hend : theEnd.kind = .eof)
    (tokens : List Token) :
    Exact (language .start) (fun text _ => Derives .start text) theEnd tokens
      (startClause deeper theEnd tokens) := by
  rw [startClause, bind_of_done next_eq]
  generalize hkind : (tokens.headD theEnd).kind = kind
  split
  next =>
    obtain ⟨semicolon, rest, rfl⟩ := exists_word hend hkind (by decide)
    rw [bind_of_done skip_cons]
    refine exact_pure.cons ?_ ?_
    · rintro _ rfl
      exact .noStart semicolon
    · rintro text after htext hhead
      cases htext with
      | noStart other =>
        obtain rfl : other = semicolon := Subtype.ext (Option.some.inj hhead)
        exact ⟨[], rfl, rfl⟩
      | startVariable var _ => exact absurd hhead (head_ne var semicolon (by decide))
      | startExpression hother _ =>
        exact absurd hhead (effect_head?_ne hother semicolon (by decide) _ _)
  next =>
    obtain ⟨var, rest, rfl⟩ := exists_word hend hkind (by decide)
    rw [bind_of_done skip_cons]
    refine ((exact_varDeclaration hexpr rest).finish fun _ _ => exact_pure).cons ?_ ?_
    · exact fun text htext => .startVariable var htext
    · rintro text after htext hhead
      cases htext with
      | noStart semicolon => exact absurd hhead (head_ne semicolon var (by decide))
      | startVariable other htext =>
        obtain rfl : other = var := Subtype.ext (Option.some.inj hhead)
        exact ⟨_, rfl, htext⟩
      | startExpression hother _ =>
        exact absurd hhead (effect_head?_ne hother var (by decide) _ _)
  next hsemicolon hvar =>
    refine ((exact_expressionStatement hexpr tokens).finish fun _ _ => exact_pure).mono ?_ ?_
    · rintro _ ⟨expr, hother, _, ⟨semicolon, rfl⟩, rfl⟩
      exact .startExpression hother (only semicolon)
    · rintro text after htext hhead
      rw [List.headD_eq_head?_getD, ← hhead] at hkind
      cases htext with
      | noStart semicolon => exact absurd (hkind.symm.trans semicolon.property) hsemicolon
      | startVariable var _ => exact absurd (hkind.symm.trans var.property) hvar
      | startExpression hother semicolon =>
        exact Placed.seq_phrase hother semicolon (by decide) (Placed.word_word semicolon _)

/-- A clause that may be absent, before the token that ends it. -/
theorem exact_clauseBefore (hexpr : ExactExpression theEnd deeper) (hend : theEnd.kind = .eof)
    (closing : TokenKind) (hopeners : closing ∉ openers)
    (hextending : closing ∉ Rule.expression.extending) (hclosing : closing ≠ .eof)
    (tokens : List Token) :
    Exact (language .clause) (Placed.clause closing) theEnd tokens
      (clauseBefore closing deeper theEnd tokens) := by
  rw [clauseBefore, bind_of_done next_eq]
  split
  next hkind =>
    obtain ⟨ending, rest, rfl⟩ := exists_word hend hkind hclosing
    refine exact_pure.mono ?_ ?_
    · rintro _ rfl
      exact .noClause
    · rintro text after ⟨htext, _⟩ hhead
      cases htext with
      | noClause => rfl
      | clause hother => exact absurd hhead (head?_ne hother rfl ending hopeners _)
  next hkind =>
    refine ((hexpr tokens).finish fun _ _ => exact_pure).mono (fun _ => .clause) ?_
    rintro text after ⟨htext, ending, rest, rfl⟩ hhead
    rw [List.headD_eq_head?_getD, ← hhead] at hkind
    cases htext with
    | noClause => exact absurd ending.property hkind
    | clause hother => exact ⟨hother, stops_word ending hextending⟩

/-! ### Statements

Each rule is read behind its first word.  What is a statement by another rule begins differently,
which its first token shows. -/

/-- An expression in parentheses, and what comes behind it. -/
theorem exact_condition {α : Type} (hexpr : ExactExpression theEnd deeper)
    (opening closing : Expectation) {f : Expr → Parser α} {accepted : Language Token}
    {placed : Placed} (hcompletes : Completes accepted)
    (h : ∀ condition rest, Exact accepted placed theEnd rest (f condition theEnd rest))
    (tokens : List Token) :
    Exact
      (words [opening.kind] * (language (.phrase .expression) * (words [closing.kind] * accepted)))
      ((Placed.word [opening.kind]).seq
        ((Placed.phrase .expression).seq ((Placed.word [closing.kind]).seq placed)))
      theEnd tokens
      ((do
        let _ ← require opening
        let condition ← Grammar.expression deeper
        let _ ← require closing
        f condition : Parser α) theEnd tokens) :=
  have hclosing := completes_words.mul hcompletes
  (exact_require opening).bind (fun _ _ between _ _ => (hexpr between).bind
    (fun condition _ _ _ _ => (exact_require closing).bind
      (fun _ _ rest _ _ => h condition rest) hcompletes) hclosing)
    (completes_language.mul hclosing)

theorem exact_printStatement (hexpr : ExactExpression theEnd deeper)
    (word : Word (.keyword .print)) (rest : List Token) :
    Exact (language .statement) Placed.statement theEnd (word.val :: rest)
      (printStatement deeper theEnd rest) := by
  refine ((hexpr rest).bind (fun expr _ _ _ _ =>
    exact_closing .semicolonAfterValue (Stmt.print expr)) completes_words).cons ?_ ?_
  · rintro _ ⟨expr, hexpr, _, ⟨semicolon, rfl⟩, rfl⟩
    exact .print word hexpr (only semicolon)
  · rintro text after ⟨takesElse, htext, hstops⟩ hhead
    cases htext with
    | print other hexpr semicolon =>
      obtain rfl : other = word := Subtype.ext (Option.some.inj hhead)
      exact ⟨_, rfl, Placed.seq_phrase hexpr semicolon (by decide) (Placed.word_word semicolon _)⟩
    | effect hother _ =>
      exact absurd hhead (effect_head?_ne hother word (by decide) _ _)
    | block other _ _ | loop other _ _ _ _ | ifThen other _ _ _ _ | ifElse other _ _ _ _ _ _
    | forLoop other _ _ _ _ _ _ _ => exact absurd hhead (head_ne other word nofun)

theorem exact_whileStatement (hexpr : ExactExpression theEnd deeper)
    (hdeeper : ExactNested theEnd deeper) (word : Word (.keyword .while)) (rest : List Token) :
    Exact (language .statement) Placed.statement theEnd (word.val :: rest)
      (whileStatement deeper theEnd rest) := by
  refine (exact_condition hexpr .parenAfterWhile .parenAfterWhileCondition completes_language
    (fun condition rest => (hdeeper.statement rest).finish fun _ _ => exact_pure) rest).cons ?_ ?_
  · rintro _ ⟨_, ⟨opening, rfl⟩, _, ⟨condition, hcondition, _,
      ⟨_, ⟨closing, rfl⟩, body, hbody, rfl⟩, rfl⟩, rfl⟩
    exact .loop word (only opening) hcondition (only closing) hbody
  · rintro text after ⟨takesElse, htext, hstops⟩ hhead
    cases htext with
    | loop other opening hcondition closing hbody =>
      obtain rfl : other = word := Subtype.ext (Option.some.inj hhead)
      exact ⟨_, rfl, Placed.seq_word opening (Placed.seq_phrase hcondition closing (by decide)
        (Placed.seq_word closing ⟨_, hbody, hstops⟩))⟩
    | effect hother _ =>
      exact absurd hhead (effect_head?_ne hother word (by decide) _ _)
    | print other _ _ | block other _ _ | ifThen other _ _ _ _ | ifElse other _ _ _ _ _ _
    | forLoop other _ _ _ _ _ _ _ => exact absurd hhead (head_ne other word nofun)

/-- An `else` goes with the nearest `if` that can take it, and is never left behind one. -/
theorem exact_ifStatement (hexpr : ExactExpression theEnd deeper)
    (hdeeper : ExactNested theEnd deeper) (word : Word (.keyword .if)) (rest : List Token) :
    Exact (language .statement) Placed.statement theEnd (word.val :: rest)
      (ifStatement deeper theEnd rest) := by
  refine (exact_condition hexpr .parenAfterIf .parenAfterIfCondition
    (completes_language.mul completes_one.add) (fun condition between =>
      (hdeeper.statement between).bind (fun thenBranch _ _ _ _ =>
        exact_take? (exact_pure (a := Stmt.if condition thenBranch none)) fun _ rest _ _ =>
          (hdeeper.statement rest).finish fun _ _ => exact_pure)
        completes_one.add) rest).cons ?_ ?_
  · rintro _ ⟨_, ⟨opening, rfl⟩, _, ⟨condition, hcondition, _, ⟨_, ⟨closing, rfl⟩, _,
      ⟨thenBranch, hthen, _, rfl | ⟨_, ⟨otherwise, rfl⟩, elseBranch, helse, rfl⟩, rfl⟩, rfl⟩, rfl⟩,
      rfl⟩
    · show Derives _ (word.val :: (only opening).val ::
        (condition ++ (only closing).val :: (thenBranch ++ [])))
      rw [List.append_nil]
      exact .ifThen word (only opening) hcondition (only closing) hthen
    · exact .ifElse word (only opening) hcondition (only closing) hthen (only otherwise) helse
  · rintro text after ⟨takesElse, htext, hstops⟩ hhead
    cases htext with
    | @ifThen inner other opening _ hcondition closing thenBranch hthen =>
      obtain rfl : other = word := Subtype.ext (Option.some.inj hhead)
      -- without an `else`, none follows either, so the statement inside takes none
      exact ⟨_, rfl, Placed.seq_word opening (Placed.seq_phrase hcondition closing (by decide)
        (Placed.seq_word closing ⟨thenBranch, [], (List.append_nil _).symm,
          ⟨inner, hthen, stops_elseWords hstops⟩, .inl ⟨rfl, hstops⟩⟩))⟩
    | ifElse other opening hcondition closing hthen otherwise helse =>
      obtain rfl : other = word := Subtype.ext (Option.some.inj hhead)
      exact ⟨_, rfl, Placed.seq_word opening (Placed.seq_phrase hcondition closing (by decide)
        (Placed.seq_word closing ⟨_, _, rfl, ⟨false, hthen, fun _ _ => List.not_mem_nil⟩,
          Placed.optional_word otherwise ⟨_, helse, hstops⟩⟩))⟩
    | effect hother _ =>
      exact absurd hhead (effect_head?_ne hother word (by decide) _ _)
    | print other _ _ | block other _ _ | loop other _ _ _ _ | forLoop other _ _ _ _ _ _ _ =>
      exact absurd hhead (head_ne other word nofun)

/-- What follows the first clause of a `for` loop. -/
def loopRest : Language Token :=
  language .clause * (words [.symbol .semicolon] *
    (language .clause * (words [.symbol .rightParen] * language .statement)))

theorem completes_loopRest : Completes loopRest :=
  completes_language.mul <| completes_words.mul <| completes_language.mul <|
    completes_words.mul completes_language

/-- What follows the first clause of a `for` loop, with what follows each part of it. -/
def Placed.loopRest : Placed :=
  (Placed.clause (.symbol .semicolon)).seq <| (Placed.word [.symbol .semicolon]).seq <|
    (Placed.clause (.symbol .rightParen)).seq <| (Placed.word [.symbol .rightParen]).seq
      Placed.statement

theorem exact_loopRest (hexpr : ExactExpression theEnd deeper)
    (hdeeper : ExactNested theEnd deeper) (hend : theEnd.kind = .eof) (start : Option Stmt)
    (tokens : List Token) :
    Exact loopRest Placed.loopRest theEnd tokens
      ((do
        let condition ← clauseBefore (.symbol .semicolon) deeper
        let _ ← require .semicolonAfterLoopCondition
        let step ← clauseBefore (.symbol .rightParen) deeper
        let _ ← require .parenAfterForClauses
        let body ← deeper.statement
        return .forLoop start condition step body : Parser Stmt) theEnd tokens) := by
  have hcondition :=
    exact_clauseBefore hexpr hend (.symbol .semicolon) (by decide) (by decide) nofun
  have hstep := exact_clauseBefore hexpr hend (.symbol .rightParen) (by decide) (by decide) nofun
  have hbody : Completes (words [.symbol .rightParen] * language .statement) :=
    completes_words.mul completes_language
  have hsteps :
      Completes (language .clause * (words [.symbol .rightParen] * language .statement)) :=
    completes_language.mul hbody
  exact (hcondition tokens).bind (fun condition _ _ _ _ =>
    (exact_require .semicolonAfterLoopCondition).bind (fun _ _ rest _ _ =>
      (hstep rest).bind (fun step _ _ _ _ =>
        (exact_require .parenAfterForClauses).bind (fun _ _ rest _ _ =>
          (hdeeper.statement rest).finish fun _ _ => exact_pure)
          completes_language)
        hbody)
      hsteps)
    (completes_words.mul hsteps)

theorem exact_forStatement (hexpr : ExactExpression theEnd deeper)
    (hdeeper : ExactNested theEnd deeper) (hend : theEnd.kind = .eof) (word : Word (.keyword .for))
    (rest : List Token) :
    Exact (language .statement) Placed.statement theEnd (word.val :: rest)
      (forStatement deeper theEnd rest) := by
  refine ((exact_require .parenAfterFor).bind (fun _ _ between _ _ =>
    (exact_startClause hexpr hend between).bind (fun start _ rest _ _ =>
      exact_loopRest hexpr hdeeper hend start rest) completes_loopRest)
    (completes_language.mul completes_loopRest)).cons ?_ ?_
  · rintro _ ⟨_, ⟨opening, rfl⟩, _, ⟨start, hstart, _, ⟨condition, hcondition, _,
      ⟨_, ⟨semicolon, rfl⟩, _, ⟨step, hstep, _, ⟨_, ⟨closing, rfl⟩, body, hbody, rfl⟩, rfl⟩, rfl⟩,
      rfl⟩, rfl⟩, rfl⟩
    exact .forLoop word (only opening) hstart hcondition (only semicolon) hstep (only closing) hbody
  · rintro text after ⟨takesElse, htext, hstops⟩ hhead
    cases htext with
    | @forLoop _ other opening start condition step hstart hcondition semicolon hstep closing _
        hbody =>
      obtain rfl : other = word := Subtype.ext (Option.some.inj hhead)
      exact ⟨_, rfl, Placed.seq_word opening ⟨start, _, rfl, hstart, condition, _, rfl,
        ⟨hcondition, semicolon, _, rfl⟩, Placed.seq_word semicolon ⟨step, _, rfl,
          ⟨hstep, closing, _, rfl⟩, Placed.seq_word closing ⟨_, hbody, hstops⟩⟩⟩⟩
    | effect hother _ =>
      exact absurd hhead (effect_head?_ne hother word (by decide) _ _)
    | print other _ _ | block other _ _ | loop other _ _ _ _ | ifThen other _ _ _ _
    | ifElse other _ _ _ _ _ _ => exact absurd hhead (head_ne other word nofun)

/-! ### Declarations -/

theorem exact_declaration (hexpr : ExactExpression theEnd deeper)
    (hdeeper : ExactNested theEnd deeper) (tokens : List Token) :
    Exact (language .declaration) Placed.declaration theEnd tokens
      (Grammar.declaration deeper theEnd tokens) := by
  rw [Grammar.declaration]
  refine (exact_take? (hdeeper.statement tokens) fun _ rest _ _ =>
    exact_varDeclaration hexpr rest).mono ?_ ?_
  · rintro _ (htext | ⟨_, ⟨var, rfl⟩, rest, hrest, rfl⟩)
    · exact .statement htext
    · exact .varDeclaration (only var) hrest
  · rintro text after ⟨htext, hstops⟩ _
    cases htext with
    | varDeclaration var hrest => exact Placed.optional_word var hrest
    | statement htext =>
      obtain ⟨takesElse, hresolved⟩ := exists_resolved htext
      exact .inl ⟨⟨takesElse, hresolved, stops_elseWords hstops⟩,
        stops_of_derives htext rfl (by decide) after⟩

/-- No declaration begins with `else`. -/
theorem program_stops_else {text after : List Token} (h : Derives .program text)
    (hafter : Stops [.keyword .else] after) : Stops [.keyword .else] (text ++ after) := by
  cases h with
  | noDeclaration => exact hafter
  | @declarations first rest hfirst _ =>
    rw [List.append_assoc]
    exact stops_of_derives hfirst rfl (by decide) _

/-- The declarations in a block, if there are rounds left for all tokens in hand. -/
theorem exact_declarations (hexpr : ExactExpression theEnd deeper)
    (hdeeper : ExactNested theEnd deeper) (hend : theEnd.kind = .eof) (rounds tokens : List Token)
    (hlong : tokens.length ≤ rounds.length) :
    Exact (language .program) Placed.declarations theEnd tokens
      (declarations deeper rounds theEnd tokens) := by
  induction rounds generalizing tokens with
  | nil =>
    cases List.length_eq_zero_iff.1 (Nat.le_zero.1 hlong)
    refine exact_pure.mono ?_ ?_
    · rintro _ rfl
      exact .noDeclaration
    · intro text after _ hhead
      exact (List.append_eq_nil_iff.1 (List.head?_eq_none_iff.1 hhead)).1
  | cons _ rounds ih =>
    rw [declarations, bind_of_done next_eq]
    split
    next hclosing =>
      refine exact_pure.mono ?_ ?_
      · rintro _ rfl
        exact .noDeclaration
      · rintro text after ⟨htext, _⟩ hhead
        cases htext with
        | noDeclaration => rfl
        | declarations hfirst _ =>
          -- a declaration does not begin with what ends the loop
          obtain ⟨first, more, rfl, hkind⟩ := (begins hfirst).exists_cons rfl
          rw [List.headD_eq_head?_getD, ← hhead] at hclosing
          obtain h | h : first.kind = _ ∨ first.kind = _ := hclosing <;>
            exact absurd (h ▸ hkind) (by decide)
    next hopen =>
      refine ((exact_declaration hexpr hdeeper tokens).bind (fun first taken rest htaken hrest =>
        (ih rest ?_).finish fun _ _ => exact_pure) completes_language).mono ?_ ?_
      · obtain ⟨first, more, rfl, _⟩ := (begins (mem_language.1 htaken)).exists_cons rfl
        simp only [hrest, List.length_cons, List.length_append] at hlong
        omega
      · rintro _ ⟨first, hfirst, rest, hrest, rfl⟩
        exact .declarations hfirst hrest
      · rintro text after ⟨htext, hafter⟩ hhead
        cases htext with
        | noDeclaration =>
          rw [List.headD_eq_head?_getD, ← hhead] at hopen
          cases after with
          | nil => exact absurd (.inr hend) hopen
          | cons token after => exact absurd (hafter token rfl) hopen
        | declarations hfirst hrest =>
          refine ⟨_, _, rfl, ⟨hfirst, program_stops_else hrest fun token htoken helse => ?_⟩, hrest,
            hafter⟩
          rw [List.mem_singleton] at helse
          obtain h | h := hafter token htoken <;> exact absurd (h.symm.trans helse) nofun

theorem exact_block (hexpr : ExactExpression theEnd deeper) (hdeeper : ExactNested theEnd deeper)
    (hend : theEnd.kind = .eof) (opening : Word (.symbol .leftBrace)) (rest : List Token) :
    Exact (language .statement) Placed.statement theEnd (opening.val :: rest)
      (block deeper theEnd rest) := by
  have hbody := exact_declarations hexpr hdeeper hend rest rest (Nat.le_refl _)
  rw [block, bind_of_done (by rfl)]
  refine (hbody.bind (fun body _ _ _ _ => exact_closing .braceAfterBlock (Stmt.block body))
    completes_words).cons ?_ ?_
  · rintro _ ⟨body, hbody, _, ⟨closing, rfl⟩, rfl⟩
    exact .block opening hbody (only closing)
  · rintro text after ⟨takesElse, htext, hstops⟩ hhead
    cases htext with
    | block other hbody closing =>
      obtain rfl : other = opening := Subtype.ext (Option.some.inj hhead)
      refine ⟨_, rfl, _, _, rfl, ⟨hbody, ?_⟩, Placed.word_word closing _⟩
      rintro token ⟨⟩
      exact .inl closing.property
    | effect hother _ =>
      exact absurd hhead (effect_head?_ne hother opening (by decide) _ _)
    | print other _ _ | loop other _ _ _ _ | ifThen other _ _ _ _ | ifElse other _ _ _ _ _ _
    | forLoop other _ _ _ _ _ _ _ => exact absurd hhead (head_ne other opening nofun)

/-- **Statements.**  If the parsers one level further in are exact, so is that of statements. -/
theorem exact_statement (hdeeper : ExactNested theEnd deeper) (hend : theEnd.kind = .eof)
    (tokens : List Token) :
    Exact (language .statement) Placed.statement theEnd tokens
      (Grammar.statement deeper theEnd tokens) := by
  have hexpr : ExactExpression theEnd deeper := exact_rule hdeeper hend .expression
  rw [Grammar.statement, bind_of_done next_eq]
  generalize hkind : (tokens.headD theEnd).kind = kind
  split
  next =>
    obtain ⟨word, rest, rfl⟩ := exists_word hend hkind (by decide)
    exact exact_forStatement hexpr hdeeper hend word rest
  next =>
    obtain ⟨word, rest, rfl⟩ := exists_word hend hkind (by decide)
    exact exact_ifStatement hexpr hdeeper word rest
  next =>
    obtain ⟨word, rest, rfl⟩ := exists_word hend hkind (by decide)
    exact exact_whileStatement hexpr hdeeper word rest
  next =>
    obtain ⟨word, rest, rfl⟩ := exists_word hend hkind (by decide)
    exact exact_printStatement hexpr word rest
  next =>
    obtain ⟨word, rest, rfl⟩ := exists_word hend hkind (by decide)
    exact exact_block hexpr hdeeper hend word rest
  next hfor hif hwhile hprint hbrace =>
    refine (exact_expressionStatement hexpr tokens).mono ?_ ?_
    · rintro _ ⟨expr, hother, _, ⟨semicolon, rfl⟩, rfl⟩
      exact .effect hother (only semicolon)
    · rintro text after ⟨takesElse, htext, hstops⟩ hhead
      rw [List.headD_eq_head?_getD, ← hhead] at hkind
      cases htext with
      | effect hother semicolon =>
        exact Placed.seq_phrase hother semicolon (by decide) (Placed.word_word semicolon _)
      | print word _ _ => exact absurd (hkind.symm.trans word.property) hprint
      | block word _ _ => exact absurd (hkind.symm.trans word.property) hbrace
      | loop word _ _ _ _ => exact absurd (hkind.symm.trans word.property) hwhile
      | ifThen word _ _ _ _ => exact absurd (hkind.symm.trans word.property) hif
      | ifElse word _ _ _ _ _ _ => exact absurd (hkind.symm.trans word.property) hif
      | forLoop word _ _ _ _ _ _ _ => exact absurd (hkind.symm.trans word.property) hfor

/-! ### All levels -/

/-- **The parsers one level further in are exact**, however many levels are left.  Where none is,
they complain about the nesting, which is exact by definition. -/
theorem exactNested (hend : theEnd.kind = .eof) (limit : Nat) :
    ExactNested theEnd (nested limit) := by
  induction limit with
  | zero =>
    constructor
    · exact fun _ => exact_tooMuchNesting completes_language
    · exact fun _ => exact_tooMuchNesting completes_language
    · exact fun _ => exact_tooMuchNesting completes_language
  | succ limit ih =>
    constructor
    · exact exact_rule ih hend .unary
    · exact exact_rule ih hend .expression
    · exact exact_statement ih hend

end Lox.Diagnosis
