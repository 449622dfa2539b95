import Lox.Proofs.Parsing.Reply

/-!
# What is written is read back

A derivation tree that is written out as tokens is read back as the syntax tree that it stands for,
if it has no more levels of nesting than the parser allows, and is refused for its nesting if it
has more.

The induction is over the derivation tree, with the tokens that follow and the levels that are left
kept general.  What follows must not extend the phrase: no operator behind an operand, no `else`
behind an `if` that could take it.  Operators of one precedence are read in a loop, so inside an
operation the statement is about where the loop stands, `Rule.goOn`, and not about where it ends.

* `Rule.parser`, `Rule.extending` and `Rule.goOn`: the parser of a rule, the kinds of tokens that
  would extend its phrases, and what the parser does behind a phrase;
* `reachesLoop` and `reads_phrase`: expressions are read back;
* `reads_statement` and `reads_body`: statements and declarations are read back;
* `findings_body`: so is a whole program.
-/

namespace Lox.Derivation

open Lox.Grammar Lox.Parser

/-! ### Rules and parsers -/

namespace Precedence

/-- The precedences from one on to the tightest. -/
def onward : Precedence → List Precedence
  | .or => [.or, .and, .equality, .comparison, .term, .factor]
  | .and => [.and, .equality, .comparison, .term, .factor]
  | .equality => [.equality, .comparison, .term, .factor]
  | .comparison => [.comparison, .term, .factor]
  | .term => [.term, .factor]
  | .factor => [.factor]

/-- A precedence as the parser's table has it. -/
def tier (precedence : Precedence) : Tier := ⟨precedence.operators, precedence.build⟩

end Precedence

namespace Rule

/-- The parser of a rule. -/
def parser (deeper : Nested) : Rule → Parser Expr
  | .expression => Grammar.expression deeper
  | .operation precedence =>
    tiered (Grammar.unary deeper) (precedence.onward.map Precedence.tier)
  | .unary => Grammar.unary deeper
  | .primary => Grammar.primary deeper

/-- The kinds of tokens that, next to a phrase of the rule, would extend it. -/
def extending : Rule → List TokenKind
  | .expression => .symbol .equal :: Precedence.or.onward.flatMap Precedence.operators
  | .operation precedence => precedence.onward.flatMap Precedence.operators
  | .unary => []
  | .primary => []

/-- The kinds of tokens that would extend the last operand of a phrase. -/
def extendingLast : Rule → List TokenKind
  | .operation precedence => precedence.tighter.extending
  | rule => rule.extending

/-- What the parser of a rule does behind a phrase of the rule: it looks for another operator. -/
def goOn (deeper : Nested) (rounds : List Token) : Rule → Expr → Parser Expr
  | .operation precedence => chain precedence.tier (precedence.tighter.parser deeper) rounds
  | _ => fun expr => pure expr

end Rule

/-- The parser of an operation reads an operand and goes on from there. -/
theorem parser_operation (deeper : Nested) (precedence : Precedence) :
    (Rule.operation precedence).parser deeper =
      (do
        let left ← precedence.tighter.parser deeper
        let rounds ← inHand
        chain precedence.tier (precedence.tighter.parser deeper) rounds left) := by
  cases precedence <;> rfl

/-- The parser of expressions reads an operation, and after an equals sign what is assigned. -/
theorem parser_expression (deeper : Nested) :
    Rule.expression.parser deeper =
      (do
        let target ← (Rule.operation .or).parser deeper
        match ← take? [.symbol .equal] with
        | none => return target
        | some equals =>
          let value ← deeper.expression
          match target with
          | .variable name => return .assign name value
          | _ =>
            report equals .invalidAssignmentTarget
            return target) := rfl

/-- The parser of operands with signs. -/
theorem parser_unary (deeper : Nested) :
    Rule.unary.parser deeper =
      (do
        match ← take? signs with
        | none => Rule.primary.parser deeper
        | some operator =>
          let operand ← deeper.operand
          return .unary operator operand) := rfl

/-- No operator of a precedence extends the operands of that precedence. -/
theorem not_extending_of_operator {precedence : Precedence} :
    ∀ kind ∈ precedence.operators, kind ∉ precedence.tighter.extending := by
  cases precedence <;> decide

theorem operators_subset_extending {precedence : Precedence} :
    precedence.operators ⊆ (Rule.operation precedence).extending := by
  cases precedence <;> decide

theorem extendingLast_subset (rule : Rule) : rule.extendingLast ⊆ rule.extending := by
  cases rule with
  | operation precedence => cases precedence <;> decide
  | expression | unary | primary => exact List.Subset.refl _

/-- A loop that sees no operator ends. -/
theorem chain_of_stops {tier : Tier} {operand : Parser Expr} {rounds rest : List Token}
    {left : Expr} {theEnd : Token} (h : Stops tier.operators rest) :
    chain tier operand rounds left theEnd rest = Done left rest := by
  cases rounds with
  | nil => rfl
  | cons _ rounds =>
    rw [chain]
    exact bind_of_done (take?_of_stops h)

/-- A loop that has a round left takes an operator, and an operand has to follow. -/
theorem chain_of_operator {tier : Tier} {operand : Parser Expr} {rounds rest : List Token}
    {round operator theEnd : Token} {left : Expr} (h : operator.kind ∈ tier.operators) :
    chain tier operand (round :: rounds) left theEnd (operator :: rest) =
      (do
        let right ← operand
        chain tier operand rounds (tier.build operator left right)) theEnd rest := by
  rw [chain, bind_of_done (take?_of_mem h)]

/-- A parser that sees nothing to extend its phrase is done. -/
theorem goOn_of_stops {deeper : Nested} {rule : Rule} {rounds rest : List Token} {expr : Expr}
    {theEnd : Token} (h : Stops rule.extending rest) :
    rule.goOn deeper rounds expr theEnd rest = Done expr rest := by
  cases rule with
  | operation precedence =>
    exact chain_of_stops (h.mono operators_subset_extending)
  | expression | unary | primary => rfl

/-! ### Expressions -/

/-- A token that is an expression on its own is read as that expression. -/
theorem primary_of_atom {deeper : Nested} {theEnd token : Token} {rest : List Token} {expr : Expr}
    (h : atom? token = some expr) :
    Rule.primary.parser deeper theEnd (token :: rest) = Done expr rest := by
  show primary deeper theEnd (token :: rest) = Done expr rest
  rw [primary, bind_of_done next_cons, h]
  exact bind_of_done skip_cons

theorem atom?_of_literal {token : Token} (h : token.kind ∈ literals) :
    atom? token = some (.literal (literalValue token)) := by
  simp only [literals, List.mem_cons, List.not_mem_nil, or_false] at h
  rcases h with h | h | h | h | h <;> simp [atom?, literalValue, h]

theorem atom?_of_identifier (token : Word .identifier) :
    atom? token.val = some (.variable token.val) := by
  simp [atom?, token.property]

/-- An opening parenthesis is taken, and an expression one level further in has to follow. -/
theorem primary_of_parenthesis {deeper : Nested} {theEnd : Token} {rest : List Token}
    (opening : Word (.symbol .leftParen)) :
    Rule.primary.parser deeper theEnd (opening.val :: rest) =
      (do
        let inner ← deeper.expression
        let _ ← require .parenAfterExpression
        return Expr.grouping inner : Parser Expr) theEnd rest := by
  have hatom : atom? opening.val = none := by simp [atom?, opening.property]
  have htake : opening.val.kind ∈ [TokenKind.symbol .leftParen] := by simp [opening.property]
  show primary deeper theEnd (opening.val :: rest) = _
  rw [primary, bind_of_done next_cons, hatom]
  show grouping deeper theEnd (opening.val :: rest) = _
  rw [grouping, bind_of_done (take?_of_mem htake)]

/-- An operand is an operation without operators, unless an operator follows. -/
theorem operation_of_operand (precedence : Precedence) {deeper : Nested} {theEnd : Token}
    {tokens rest : List Token} {expr : Expr}
    (h : precedence.tighter.parser deeper theEnd tokens = Done expr rest)
    (hstops : Stops (Rule.operation precedence).extending rest) :
    (Rule.operation precedence).parser deeper theEnd tokens = Done expr rest := by
  rw [parser_operation, bind_of_done h, bind_of_done (by rfl)]
  exact goOn_of_stops hstops

/-- A name before an equals sign is read as a whole operation. -/
theorem operation_of_name {deeper : Nested} {theEnd : Token} {rest : List Token}
    (name : Word .identifier) (equals : Word (.symbol .equal)) :
    (Rule.operation .or).parser deeper theEnd (name.val :: equals.val :: rest) =
      Done (.variable name.val) (equals.val :: rest) := by
  have hsigns : Stops signs (name.val :: equals.val :: rest) := by
    rw [stops_cons, name.property]
    decide
  have hunary : Rule.unary.parser deeper theEnd (name.val :: equals.val :: rest) =
      Done (.variable name.val) (equals.val :: rest) := by
    rw [parser_unary, bind_of_done (take?_of_stops hsigns)]
    exact primary_of_atom (atom?_of_identifier name)
  have hstops (precedence : Precedence) :
      Stops (Rule.operation precedence).extending (equals.val :: rest) := by
    rw [stops_cons, equals.property]
    cases precedence <;> decide
  have hfactor := operation_of_operand .factor hunary (hstops _)
  have hterm := operation_of_operand .term hfactor (hstops _)
  have hcomparison := operation_of_operand .comparison hterm (hstops _)
  have hequality := operation_of_operand .equality hcomparison (hstops _)
  have hand := operation_of_operand .and hequality (hstops _)
  exact operation_of_operand .or hand (hstops _)

/-- A phrase without a sign in front does not begin with one. -/
theorem primary_stops_signs (operand : Phrase .primary) (rest : List Token) :
    Stops signs (operand.tokens ++ rest) := by
  cases operand with
  | literal token =>
    have := token.property
    simp only [literals, List.mem_cons, List.not_mem_nil, or_false] at this
    rcases this with h | h | h | h | h <;> simp [Phrase.tokens, signs, h]
  | identifier token => simp [Phrase.tokens, signs, token.property]
  | group opening _ _ => simp [Phrase.tokens, signs, opening.property]

/-- A phrase whose last operand nothing extends takes its parser to where the loop stands, with
rounds left for all tokens that follow. -/
def Phrase.ReachesLoop {rule : Rule} (phrase : Phrase rule) : Prop :=
  ∀ (limit : Nat) (theEnd : Token) (rest : List Token), Stops rule.extendingLast rest →
    ∃ rounds : List Token, rest.length ≤ rounds.length ∧
      Reaches limit phrase.levels (rule.parser (nested limit) theEnd (phrase.tokens ++ rest))
        (rule.goOn (nested limit) rounds phrase.expr theEnd rest)

/-- From there the parser is done, if nothing extends the phrase. -/
theorem Phrase.ReachesLoop.reads {rule : Rule} {phrase : Phrase rule} (h : phrase.ReachesLoop)
    (limit : Nat) (theEnd : Token) (rest : List Token) (hstops : Stops rule.extending rest) :
    Reaches limit phrase.levels (rule.parser (nested limit) theEnd (phrase.tokens ++ rest))
      (Done phrase.expr rest) := by
  obtain ⟨rounds, _, hreaches⟩ := h limit theEnd rest (hstops.mono (extendingLast_subset rule))
  rwa [goOn_of_stops hstops] at hreaches

/-- **Every phrase takes its parser to where the loop stands.** -/
theorem reachesLoop {rule : Rule} (phrase : Phrase rule) : phrase.ReachesLoop := by
  induction phrase with
  | assignment name equals value ih =>
    intro limit theEnd rest hstops
    have hequals : equals.val.kind ∈ [TokenKind.symbol .equal] := by simp [equals.property]
    have hvalue (limit : Nat) := ih.reads limit theEnd rest hstops
    have hdeeper := reaches_deeper Nested.expression (Rule.expression.parser ·) rfl (fun _ => rfl)
      hvalue limit
    refine ⟨rest, Nat.le_refl _, ?_⟩
    show Reaches limit (value.levels + 1) (Rule.expression.parser (nested limit) theEnd
      (name.val :: equals.val :: (value.tokens ++ rest))) (Done (.assign name.val value.expr) rest)
    rw [parser_expression, bind_of_done (operation_of_name name equals),
      bind_of_done (take?_of_mem hequals)]
    exact reaches_bind hdeeper
  | operation operands ih =>
    intro limit theEnd rest hstops
    obtain ⟨rounds, _, h⟩ := ih limit theEnd rest (hstops.mono (by decide))
    rw [goOn_of_stops (hstops.mono (by decide))] at h
    refine ⟨rest, Nat.le_refl _, ?_⟩
    show Reaches limit operands.levels
      (Rule.expression.parser (nested limit) theEnd (operands.tokens ++ rest))
      (Done operands.expr rest)
    rw [parser_expression]
    refine reaches_trans_eq (reaches_bind h) ?_
    rw [bind_of_done (take?_of_stops (hstops.mono (by decide)))]
    rfl
  | @single precedence operand ih =>
    intro limit theEnd rest hstops
    have hoperand := ih.reads limit theEnd rest hstops
    refine ⟨rest, Nat.le_refl _, ?_⟩
    show Reaches limit operand.levels
      ((Rule.operation precedence).parser (nested limit) theEnd (operand.tokens ++ rest)) _
    rw [parser_operation]
    exact reaches_bind hoperand
  | @join precedence left operator right ihl ihr =>
    intro limit theEnd rest hstops
    have hright := ihr.reads limit theEnd rest hstops
    -- the loop stands before the operator, and has a round left for it
    obtain ⟨rounds, hlong, hleft⟩ := ihl limit theEnd (operator.val :: (right.tokens ++ rest))
      (stops_cons.2 (not_extending_of_operator _ operator.property))
    cases rounds with
    | nil => simp at hlong
    | cons _ rounds =>
      refine ⟨rounds, ?_, ?_⟩
      · simp only [List.length_cons, List.length_append] at hlong
        omega
      · show Reaches limit (max left.levels right.levels)
          ((Rule.operation precedence).parser (nested limit) theEnd
            (left.tokens ++ operator.val :: right.tokens ++ rest)) _
        rw [List.append_assoc, List.cons_append]
        refine reaches_trans hleft ?_
        rw [Rule.goOn, chain_of_operator operator.property]
        exact reaches_bind hright
  | signed sign operand ih =>
    intro limit theEnd rest hstops
    have hoperand (limit : Nat) := ih.reads limit theEnd rest hstops
    have hdeeper :=
      reaches_deeper Nested.operand (Rule.unary.parser ·) rfl (fun _ => rfl) hoperand limit
    refine ⟨rest, Nat.le_refl _, ?_⟩
    show Reaches limit (operand.levels + 1) (Rule.unary.parser (nested limit) theEnd
      (sign.val :: (operand.tokens ++ rest))) (Done (.unary sign.val operand.expr) rest)
    rw [parser_unary, bind_of_done (take?_of_mem sign.property)]
    exact reaches_bind hdeeper
  | unsigned operand ih =>
    intro limit theEnd rest hstops
    have hoperand := ih.reads limit theEnd rest hstops
    refine ⟨rest, Nat.le_refl _, ?_⟩
    show Reaches limit operand.levels (Rule.unary.parser (nested limit) theEnd
      (operand.tokens ++ rest)) (Done operand.expr rest)
    rw [parser_unary, bind_of_done (take?_of_stops (primary_stops_signs operand rest))]
    exact hoperand
  | literal token =>
    intro limit theEnd rest hstops
    exact ⟨rest, Nat.le_refl _, reaches_of_eq (primary_of_atom (atom?_of_literal token.property))⟩
  | identifier token =>
    intro limit theEnd rest hstops
    exact ⟨rest, Nat.le_refl _, reaches_of_eq (primary_of_atom (atom?_of_identifier token))⟩
  | group opening inner closing ih =>
    intro limit theEnd rest hstops
    have hinner (limit : Nat) := ih.reads limit theEnd (closing.val :: rest)
      (by rw [stops_cons, closing.property]; decide)
    have hdeeper := reaches_deeper Nested.expression (Rule.expression.parser ·) rfl (fun _ => rfl)
      hinner limit
    refine ⟨rest, Nat.le_refl _, ?_⟩
    show Reaches limit (inner.levels + 1) (Rule.primary.parser (nested limit) theEnd
      (opening.val :: (inner.tokens ++ [closing.val]) ++ rest)) (Done (.grouping inner.expr) rest)
    rw [List.cons_append, List.append_assoc, primary_of_parenthesis opening]
    refine reaches_trans_eq (reaches_bind hdeeper) ?_
    exact bind_of_done (require_word .parenAfterExpression closing)

/-- **Expressions.**  A phrase that nothing extends is read back, and nothing else is read. -/
theorem reads_phrase {rule : Rule} (phrase : Phrase rule) (limit : Nat) (theEnd : Token)
    (rest : List Token) (hstops : Stops rule.extending rest) :
    Reaches limit phrase.levels (rule.parser (nested limit) theEnd (phrase.tokens ++ rest))
      (Done phrase.expr rest) :=
  (reachesLoop phrase).reads limit theEnd rest hstops

/-! ### Declarations of variables and clauses of loops -/

theorem stops_word {kind : TokenKind} {kinds : List TokenKind} {rest : List Token}
    (word : Word kind) (h : kind ∉ kinds) : Stops kinds (word.val :: rest) := by
  rwa [stops_cons, word.property]

/-- A declaration of a variable is read back behind the word `var`. -/
theorem reads_varDeclaration (declaration : VarDeclaration) (limit : Nat) (theEnd : Token)
    (rest : List Token) :
    Reaches limit declaration.levels
      (varDeclaration (nested limit) theEnd (declaration.tokens.tail ++ rest))
      (Done declaration.stmt rest) := by
  cases declaration with
  | plain var name semicolon =>
    refine reaches_of_eq ?_
    show varDeclaration (nested limit) theEnd (name.val :: semicolon.val :: rest) = _
    rw [varDeclaration, bind_of_done (require_word .variableName name),
      bind_of_done (take?_of_stops (stops_word semicolon (by decide)))]
    exact bind_of_done (require_word .semicolonAfterDeclaration semicolon)
  | valued var name equals value semicolon =>
    have hequals : equals.val.kind ∈ [TokenKind.symbol .equal] := by simp [equals.property]
    have hvalue := reads_phrase value limit theEnd (semicolon.val :: rest)
      (stops_word semicolon (by decide))
    show Reaches limit value.levels (varDeclaration (nested limit) theEnd
      (name.val :: equals.val :: (value.tokens ++ [semicolon.val]) ++ rest)) _
    rw [List.cons_append, List.cons_append, List.append_assoc, varDeclaration,
      bind_of_done (require_word .variableName name), bind_of_done (take?_of_mem hequals)]
    refine reaches_trans_eq (reaches_bind hvalue) ?_
    exact bind_of_done (require_word .semicolonAfterDeclaration semicolon)

/-- An expression with its semicolon is read back. -/
theorem reads_expressionStatement (expr : Phrase .expression)
    (semicolon : Word (.symbol .semicolon)) (limit : Nat) (theEnd : Token) (rest : List Token) :
    Reaches limit expr.levels
      (expressionStatement (nested limit) theEnd (expr.tokens ++ semicolon.val :: rest))
      (Done (.expression expr.expr) rest) := by
  have hexpr := reads_phrase expr limit theEnd (semicolon.val :: rest)
    (stops_word semicolon (by decide))
  rw [expressionStatement]
  refine reaches_trans_eq (reaches_bind hexpr) ?_
  exact bind_of_done (require_word .semicolonAfterExpression semicolon)

/-- The first clause of a loop that begins like an expression is one. -/
theorem startClause_of_opener {deeper : Nested} {theEnd first : Token} {rest : List Token}
    (h : first.kind ∈ openers) :
    startClause deeper theEnd (first :: rest) =
      (do return some (← expressionStatement deeper) : Parser (Option Stmt)) theEnd
        (first :: rest) := by
  simp only [openers, signs, literals, List.cons_append, List.nil_append, List.mem_cons,
    List.not_mem_nil, or_false] at h
  rw [startClause, bind_of_done next_cons]
  rcases h with h | h | h | h | h | h | h | h | h <;> rw [h]

theorem reads_startClause (start : StartClause) (limit : Nat) (theEnd : Token)
    (rest : List Token) :
    Reaches limit start.levels (startClause (nested limit) theEnd (start.tokens ++ rest))
      (Done start.stmt? rest) := by
  cases start with
  | absent semicolon =>
    refine reaches_of_eq ?_
    show startClause (nested limit) theEnd (semicolon.val :: rest) = _
    rw [startClause, bind_of_done next_cons, semicolon.property]
    rfl
  | var declaration =>
    obtain ⟨first, more, htokens, hfirst⟩ := declaration.begins
    have hdeclaration := reads_varDeclaration declaration limit theEnd rest
    rw [htokens] at hdeclaration
    show Reaches limit declaration.levels
      (startClause (nested limit) theEnd (declaration.tokens ++ rest)) _
    rw [htokens, List.cons_append, startClause, bind_of_done next_cons, hfirst]
    exact reaches_bind hdeclaration
  | expression expr semicolon =>
    have hexpr := reads_expressionStatement expr semicolon limit theEnd rest
    obtain ⟨first, more, htokens, hfirst⟩ := expr.begins
    show Reaches limit expr.levels
      (startClause (nested limit) theEnd (expr.tokens ++ [semicolon.val] ++ rest)) _
    rw [List.append_assoc, List.singleton_append]
    rw [htokens, List.cons_append] at hexpr ⊢
    rw [startClause_of_opener hfirst]
    exact reaches_bind hexpr

/-- A clause that may be absent is read back before the token that ends it. -/
theorem reads_clause {closing : TokenKind} (clause : Clause) (ending : Word closing)
    (hopeners : closing ∉ openers) (hextending : closing ∉ Rule.expression.extending)
    (limit : Nat) (theEnd : Token) (rest : List Token) :
    Reaches limit (Clause.levels clause)
      (clauseBefore closing (nested limit) theEnd (Clause.tokens clause ++ ending.val :: rest))
      (Done (Clause.expr? clause) (ending.val :: rest)) := by
  cases clause with
  | none =>
    refine reaches_of_eq ?_
    show clauseBefore closing (nested limit) theEnd (ending.val :: rest) = _
    rw [clauseBefore, bind_of_done next_cons, if_pos ending.property]
    rfl
  | some expr =>
    have hexpr := reads_phrase expr limit theEnd (ending.val :: rest)
      (stops_word ending hextending)
    obtain ⟨first, more, htokens, hfirst⟩ := expr.begins
    have hother : first.kind ≠ closing := fun h => hopeners (h ▸ hfirst)
    show Reaches limit expr.levels
      (clauseBefore closing (nested limit) theEnd (expr.tokens ++ ending.val :: rest)) _
    rw [htokens, List.cons_append] at hexpr ⊢
    rw [clauseBefore, bind_of_done next_cons, if_neg hother]
    exact reaches_bind hexpr

/-! ### Statements -/

/-- What is read behind the first token of a statement that no expression begins with. -/
def afterWord (deeper : Nested) : TokenKind → Parser Stmt
  | .keyword .for => forStatement deeper
  | .keyword .if => ifStatement deeper
  | .keyword .while => whileStatement deeper
  | .keyword .print => printStatement deeper
  | _ => block deeper

theorem statement_of_word {deeper : Nested} {theEnd : Token} {rest : List Token}
    {kind : TokenKind} (word : Word kind) (h : kind ∈ statementWords) :
    Grammar.statement deeper theEnd (word.val :: rest) = afterWord deeper kind theEnd rest := by
  have hkind := word.property
  simp only [statementWords, List.mem_cons, List.not_mem_nil, or_false] at h
  rw [Grammar.statement, bind_of_done next_cons, hkind]
  rcases h with rfl | rfl | rfl | rfl | rfl <;> exact bind_of_done skip_cons

/-- A statement within a statement is a level further in. -/
theorem statement_deeper {levels : Nat} {theEnd : Token} {tokens : List Token} {goal : Reply Stmt}
    (h : ∀ limit, Reaches limit levels (Grammar.statement (nested limit) theEnd tokens) goal)
    (limit : Nat) : Reaches limit (levels + 1) ((nested limit).statement theEnd tokens) goal :=
  reaches_deeper Nested.statement Grammar.statement rfl (fun _ => rfl) h limit

theorem statement_of_opener {deeper : Nested} {theEnd first : Token} {rest : List Token}
    (h : first.kind ∈ openers) :
    Grammar.statement deeper theEnd (first :: rest) =
      Grammar.expressionStatement deeper theEnd (first :: rest) := by
  simp only [openers, signs, literals, List.cons_append, List.nil_append, List.mem_cons,
    List.not_mem_nil, or_false] at h
  rw [Grammar.statement, bind_of_done next_cons]
  rcases h with h | h | h | h | h | h | h | h | h <;> rw [h]

/-- The kinds of tokens that would extend a statement. -/
def elseWords (takesElse : Bool) : List TokenKind := if takesElse then [.keyword .else] else []

theorem stops_elseWords {takesElse : Bool} {rest : List Token}
    (h : Stops [.keyword .else] rest) : Stops (elseWords takesElse) rest := by
  cases takesElse with
  | false => exact h.mono (List.nil_subset _)
  | true => exact h

/-- No declaration begins with `else`. -/
theorem body_stops_else (body : Body) {rest : List Token} (h : Stops [.keyword .else] rest) :
    Stops [.keyword .else] (body.tokens ++ rest) := by
  cases body with
  | nil => exact h
  | cons first later =>
    obtain ⟨token, more, htokens, hkind⟩ := first.begins
    rw [Body.tokens, htokens, List.cons_append, List.cons_append, stops_cons]
    intro helse
    rw [List.mem_singleton.1 helse] at hkind
    revert hkind
    decide

mutual

/-- **Statements.**  A statement that no `else` extends is read back, and nothing else is read. -/
theorem reads_statement : ∀ {takesElse : Bool} (statement : Statement takesElse) (limit : Nat)
    (theEnd : Token) (rest : List Token), Stops (elseWords takesElse) rest →
      Reaches limit statement.levels
        ((nested limit).statement theEnd (statement.tokens ++ rest)) (Done statement.stmt rest)
  | _, .expression expr semicolon, limit, theEnd, rest, hstops => by
    refine statement_deeper (fun limit => ?_) limit
    have hstatement := reads_expressionStatement expr semicolon limit theEnd rest
    obtain ⟨first, more, htokens, hfirst⟩ := expr.begins
    rw [Statement.tokens, List.append_assoc, List.singleton_append]
    rw [htokens, List.cons_append] at hstatement ⊢
    rw [statement_of_opener hfirst]
    exact hstatement
  | _, .print word expr semicolon, limit, theEnd, rest, hstops => by
    refine statement_deeper (fun limit => ?_) limit
    have hexpr := reads_phrase expr limit theEnd (semicolon.val :: rest)
      (stops_word semicolon (by decide))
    simp only [Statement.tokens, List.cons_append, List.append_assoc, List.nil_append]
    rw [statement_of_word word (by decide), afterWord,
      printStatement]
    refine reaches_trans_eq (reaches_bind hexpr) ?_
    exact bind_of_done (require_word .semicolonAfterValue semicolon)
  | _, .block opening body closing, limit, theEnd, rest, hstops => by
    refine statement_deeper (fun limit => ?_) limit
    have hbody := reads_body body limit theEnd (body.tokens ++ closing.val :: rest) rest closing
      (by simp)
    simp only [Statement.tokens, List.cons_append, List.append_assoc, List.nil_append]
    rw [statement_of_word opening (by decide)]
    show Reaches _ _ (Grammar.block (nested limit) theEnd _) _
    rw [Grammar.block, bind_of_done (by rfl)]
    refine reaches_trans_eq (reaches_bind hbody) ?_
    exact bind_of_done (require_word .braceAfterBlock closing)
  | _, .loop word opening condition closing body, limit, theEnd, rest, hstops => by
    refine statement_deeper (fun limit => ?_) limit
    have hcondition := reads_phrase condition limit theEnd (closing.val :: (body.tokens ++ rest))
      (stops_word closing (by decide))
    have hbody := reads_statement body limit theEnd rest hstops
    simp only [Statement.tokens, List.cons_append, List.append_assoc]
    rw [statement_of_word word (by decide), afterWord,
      whileStatement, bind_of_done (require_word .parenAfterWhile opening)]
    refine reaches_trans (reaches_bind hcondition) ?_
    rw [bind_of_done (require_word .parenAfterWhileCondition closing)]
    exact reaches_bind hbody
  | _, .ifThen word opening condition closing thenBranch, limit, theEnd, rest, hstops => by
    refine statement_deeper (fun limit => ?_) limit
    have hcondition := reads_phrase condition limit theEnd
      (closing.val :: (thenBranch.tokens ++ rest)) (stops_word closing (by decide))
    have hthen := reads_statement thenBranch limit theEnd rest (stops_elseWords hstops)
    simp only [Statement.tokens, List.cons_append, List.append_assoc]
    rw [statement_of_word word (by decide), afterWord,
      ifStatement, bind_of_done (require_word .parenAfterIf opening)]
    refine reaches_trans (reaches_bind hcondition) ?_
    rw [bind_of_done (require_word .parenAfterIfCondition closing)]
    refine reaches_trans_eq (reaches_bind hthen) ?_
    exact bind_of_done (take?_of_stops hstops)
  | _, .ifElse word opening condition closing thenBranch otherwise elseBranch, limit, theEnd,
      rest, hstops => by
    refine statement_deeper (fun limit => ?_) limit
    have hcondition := reads_phrase condition limit theEnd
      (closing.val :: (thenBranch.tokens ++ otherwise.val :: (elseBranch.tokens ++ rest)))
      (stops_word closing (by decide))
    have hthen := reads_statement thenBranch limit theEnd
      (otherwise.val :: (elseBranch.tokens ++ rest)) (stops_word otherwise (by decide))
    have helse := reads_statement elseBranch limit theEnd rest hstops
    have hotherwise : otherwise.val.kind ∈ [TokenKind.keyword .else] := by
      simp [otherwise.property]
    simp only [Statement.tokens, List.cons_append, List.append_assoc]
    rw [statement_of_word word (by decide), afterWord,
      ifStatement, bind_of_done (require_word .parenAfterIf opening)]
    refine reaches_trans (reaches_bind hcondition) ?_
    rw [bind_of_done (require_word .parenAfterIfCondition closing)]
    refine reaches_trans (reaches_bind hthen) ?_
    rw [bind_of_done (take?_of_mem hotherwise)]
    exact reaches_bind helse
  | _, .forLoop word opening start condition semicolon step closing body, limit, theEnd, rest,
      hstops => by
    refine statement_deeper (fun limit => ?_) limit
    have hstart := reads_startClause start limit theEnd (Clause.tokens condition ++
      semicolon.val :: (Clause.tokens step ++ closing.val :: (body.tokens ++ rest)))
    have hcondition := reads_clause condition semicolon (by decide) (by decide) limit theEnd
      (Clause.tokens step ++ closing.val :: (body.tokens ++ rest))
    have hstep := reads_clause step closing (by decide) (by decide) limit theEnd
      (body.tokens ++ rest)
    have hbody := reads_statement body limit theEnd rest hstops
    simp only [Statement.tokens, List.cons_append, List.append_assoc]
    rw [statement_of_word word (by decide), afterWord,
      forStatement, bind_of_done (require_word .parenAfterFor opening)]
    refine reaches_trans (reaches_bind hstart) ?_
    refine reaches_trans (reaches_bind hcondition) ?_
    rw [bind_of_done (require_word .semicolonAfterLoopCondition semicolon)]
    refine reaches_trans (reaches_bind hstep) ?_
    rw [bind_of_done (require_word .parenAfterForClauses closing)]
    refine reaches_trans_eq (reaches_bind hbody) ?_
    rw [stmt_forLoop]
    rfl

/-- **Declarations.** -/
theorem reads_declaration : ∀ (declaration : Declaration) (limit : Nat) (theEnd : Token)
    (rest : List Token), Stops [.keyword .else] rest →
      Reaches limit declaration.levels
        (Grammar.declaration (nested limit) theEnd (declaration.tokens ++ rest))
        (Done declaration.stmt rest)
  | .var declaration, limit, theEnd, rest, _ => by
    have hdeclaration := reads_varDeclaration declaration limit theEnd rest
    obtain ⟨first, more, htokens, hfirst⟩ := declaration.begins
    rw [htokens] at hdeclaration
    rw [Declaration.tokens, htokens, List.cons_append, Grammar.declaration,
      bind_of_done (take?_of_mem (by rw [hfirst]; decide))]
    exact hdeclaration
  | .statement statement, limit, theEnd, rest, hstops => by
    have hstatement := reads_statement statement limit theEnd rest (stops_elseWords hstops)
    obtain ⟨first, more, htokens, hfirst⟩ := statement.begins
    have hvar : Stops [.keyword .var] (statement.tokens ++ rest) := by
      rw [htokens, List.cons_append, stops_cons]
      intro hvar
      rw [List.mem_singleton.1 hvar] at hfirst
      revert hfirst
      decide
    rw [Declaration.tokens, Grammar.declaration, bind_of_done (take?_of_stops hvar)]
    exact hstatement

/-- **Declarations in a block.** -/
theorem reads_body : ∀ (body : Body) (limit : Nat) (theEnd : Token) (rounds rest : List Token)
    (closing : Word (.symbol .rightBrace)), body.tokens.length ≤ rounds.length →
      Reaches limit body.levels
        (declarations (nested limit) rounds theEnd (body.tokens ++ closing.val :: rest))
        (Done body.stmts (closing.val :: rest))
  | .nil, limit, theEnd, rounds, rest, closing, _ => by
    refine reaches_of_eq ?_
    cases rounds with
    | nil => rfl
    | cons _ rounds =>
      rw [Body.tokens, List.nil_append, declarations, bind_of_done next_cons,
        if_pos (.inl closing.property)]
      rfl
  | .cons first later, limit, theEnd, rounds, rest, closing, hlong => by
    obtain ⟨token, more, htokens, hkind⟩ := first.begins
    have hopen : ¬ (token.kind = .symbol .rightBrace ∨ token.kind = .eof) := by
      rintro (h | h) <;> (rw [h] at hkind; revert hkind; decide)
    cases rounds with
    | nil => simp [Body.tokens, htokens] at hlong
    | cons _ rounds =>
      have hfirst := reads_declaration first limit theEnd (later.tokens ++ closing.val :: rest)
        (body_stops_else later (stops_word closing (by decide)))
      have hlater := reads_body later limit theEnd rounds rest closing (by
        simp only [Body.tokens, htokens, List.length_append, List.length_cons] at hlong
        omega)
      rw [Body.tokens, List.append_assoc]
      rw [htokens, List.cons_append] at hfirst ⊢
      rw [declarations, bind_of_done next_cons, if_neg hopen]
      refine reaches_trans (reaches_bind hfirst) ?_
      exact reaches_bind hlater

end

/-! ### Programs -/

/-- A program reads its declarations one after another, while the nesting allows it. -/
theorem program_of_le : ∀ (body : Body) (limit : Nat) (theEnd : Token) (rounds : List Token),
    body.tokens.length ≤ rounds.length → body.levels ≤ limit →
      program (nested limit) theEnd rounds body.tokens = ⟨body.stmts, []⟩
  | .nil, limit, theEnd, rounds, _, _ => by
    cases rounds with
    | nil => rfl
    | cons _ rounds => rfl
  | .cons first later, limit, theEnd, rounds, hlong, hle => by
    obtain ⟨token, more, htokens, _⟩ := first.begins
    simp only [Body.levels] at hle
    cases rounds with
    | nil => simp [Body.tokens, htokens] at hlong
    | cons _ rounds =>
      have hfirst := reads_declaration first limit theEnd later.tokens
        (by simpa using body_stops_else later (stops_nil : Stops _ []))
      have hreply := reaches_of_le hfirst (by omega)
      have hlater := program_of_le later limit theEnd rounds (by
        simp only [Body.tokens, htokens, List.length_append, List.length_cons] at hlong
        omega) (by omega)
      rw [Body.tokens]
      rw [htokens, List.cons_append] at hreply ⊢
      simp only [program, hreply, hlater]
      rfl

/-- Where it does not, the first error is a complaint about the nesting. -/
theorem program_of_lt : ∀ (body : Body) (limit : Nat) (theEnd : Token) (rounds : List Token),
    body.tokens.length ≤ rounds.length → limit < body.levels →
      ∃ blamed later, (program (nested limit) theEnd rounds body.tokens).errors =
        .atToken blamed .tooMuchNesting :: later
  | .nil, limit, theEnd, rounds, _, hlt => by simp [Body.levels] at hlt
  | .cons first later, limit, theEnd, rounds, hlong, hlt => by
    obtain ⟨token, more, htokens, _⟩ := first.begins
    simp only [Body.levels] at hlt
    cases rounds with
    | nil => simp [Body.tokens, htokens] at hlong
    | cons _ rounds =>
      have hfirst := reads_declaration first limit theEnd later.tokens
        (by simpa using body_stops_else later (stops_nil : Stops _ []))
      rw [Body.tokens]
      rw [htokens, List.cons_append] at hfirst ⊢
      by_cases hle : first.levels ≤ limit
      · obtain ⟨blamed, errors, hlater⟩ := program_of_lt later limit theEnd rounds (by
          simp only [Body.tokens, htokens, List.length_append, List.length_cons] at hlong
          omega) (by omega)
        refine ⟨blamed, errors, ?_⟩
        simp only [program, reaches_of_le hfirst hle, hlater]
        rfl
      · obtain ⟨blamed, left, hreply⟩ := reaches_of_lt hfirst (by omega)
        exact ⟨blamed, _, by simp only [program, hreply]; rfl⟩

/-- The tokens that count are those of the program, whatever an end token leads in. -/
theorem beforeEnd_append (body : Body) {ending : List Token} (h : beforeEnd ending = []) :
    beforeEnd (body.tokens ++ ending) = body.tokens := by
  have hopen : ∀ token ∈ body.tokens, (!isEnd token) = true := by
    intro token htoken
    simp [isEnd, body.kind_ne_eof token htoken]
  rw [beforeEnd, List.takeWhile_append_of_pos hopen]
  exact (congrArg (body.tokens ++ ·) h).trans (List.append_nil _)

theorem findings_of_le {body : Body} {tokens : List Token} (h : beforeEnd tokens = body.tokens)
    (hle : body.levels ≤ maxNesting) : findings tokens = ⟨body.stmts, []⟩ := by
  rw [findings, h]
  exact program_of_le body maxNesting _ _ (Nat.le_refl _) hle

theorem findings_of_lt {body : Body} {tokens : List Token} (h : beforeEnd tokens = body.tokens)
    (hlt : maxNesting < body.levels) :
    ∃ blamed later, (findings tokens).errors = .atToken blamed .tooMuchNesting :: later := by
  rw [findings, h]
  exact program_of_lt body maxNesting _ _ (Nat.le_refl _) hlt

theorem parse_of_le {body : Body} {tokens : List Token} (h : beforeEnd tokens = body.tokens)
    (hle : body.levels ≤ maxNesting) : parse tokens = .ok body.stmts := by
  rw [parse, findings_of_le h hle]
  rfl

/-- **What is written is read back.**  A program that is written out, with or without an end token
and anything behind it, is read back as the syntax tree that it stands for if it has at most 128
levels of nesting, and is refused for its nesting if it has more. -/
theorem parse_written (body : Body) (ending : List Token) (h : beforeEnd ending = []) :
    (body.levels ≤ 128 → parse (body.tokens ++ ending) = .ok body.stmts) ∧
      (128 < body.levels → ∃ blamed later, parse (body.tokens ++ ending) =
        .error (.atToken blamed .tooMuchNesting :: later)) := by
  have hbefore := beforeEnd_append body h
  constructor
  · intro hle
    exact parse_of_le hbefore hle
  · intro hlt
    obtain ⟨blamed, later, herrors⟩ := findings_of_lt hbefore hlt
    refine ⟨blamed, later, ?_⟩
    simp only [parse, herrors]
    rfl

/-! ### The nearest `if` -/

/-- An operand without any operator around it. -/
def Phrase.alone (operand : Phrase .unary) : Phrase .expression :=
  .operation (.single (.single (.single (.single (.single (.single operand))))))

/-- The program `if (a) if (b) print a; else print b;` on one line, its `else` belonging to the
second `if`. -/
def danglingElse : Body :=
  let a : Word .identifier := ⟨⟨.identifier, "a", none, 1⟩, rfl⟩
  let b : Word .identifier := ⟨⟨.identifier, "b", none, 1⟩, rfl⟩
  let word (keyword : Keyword) (text : String) : Word (.keyword keyword) :=
    ⟨⟨.keyword keyword, text, none, 1⟩, rfl⟩
  let sign (symbol : Symbol) (text : String) : Word (.symbol symbol) :=
    ⟨⟨.symbol symbol, text, none, 1⟩, rfl⟩
  let print (name : Word .identifier) : Statement false :=
    .print (word .print "print") (.alone (.unsigned (.identifier name))) (sign .semicolon ";")
  .cons (.statement
    (.ifThen (word .if "if") (sign .leftParen "(") (.alone (.unsigned (.identifier a)))
      (sign .rightParen ")")
      (.ifElse (word .if "if") (sign .leftParen "(") (.alone (.unsigned (.identifier b)))
        (sign .rightParen ")") (print a) (word .else "else") (print b)))) .nil

theorem parse_written_danglingElse :
    beforeEnd [.endOf 1] = [] ∧ danglingElse.levels = 3 ∧
      parse (danglingElse.tokens ++ [.endOf 1]) = .ok
        [.if (.variable ⟨.identifier, "a", none, 1⟩)
          (.if (.variable ⟨.identifier, "b", none, 1⟩)
            (.print (.variable ⟨.identifier, "a", none, 1⟩))
            (some (.print (.variable ⟨.identifier, "b", none, 1⟩)))) none] :=
  ⟨rfl, rfl, (parse_written danglingElse [.endOf 1] rfl).1 (by decide)⟩

end Lox.Derivation
