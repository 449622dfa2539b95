import Lox.Proofs.Brackets.Legible
import Lox.Proofs.Parsing.Accepted

/-!
# The text of a parsed expression determines it

What the parser makes of a source is legible: its operators and names are words of the source, and
its values are those of literals there, of which a finite number has no sign.  So two expressions of
any programs with the same text are the same but for the lines of their tokens.

* `Expr.parts` and `Stmt.expressions`: all expressions in a tree, from every depth;
* `ExprIn`: the tokens and the values of an expression are from a text;
* `Phrase.exprIn` up to `Body.exprsIn`: those of trees that are parsed are so;
* `spelled_of_mem_words` and `legible_of_exprIn`: such an expression of a source is legible;
* `tree_of_display`: the main result.
-/

namespace Lox

/-! ### The expressions in a tree -/

/-- An expression and all expressions in it. -/
def Expr.parts : Expr → List Expr
  | .assign name value => .assign name value :: value.parts
  | .binary operator left right => .binary operator left right :: (left.parts ++ right.parts)
  | .grouping inner => .grouping inner :: inner.parts
  | .literal value => [.literal value]
  | .logical operator left right => .logical operator left right :: (left.parts ++ right.parts)
  | .unary operator operand => .unary operator operand :: operand.parts
  | .variable name => [.variable name]

mutual

/-- The expressions in a statement, from every depth. -/
def Stmt.expressions : Stmt → List Expr
  | .block body => expressionsAll body
  | .expression expr => expr.parts
  | .if condition thenBranch none => condition.parts ++ thenBranch.expressions
  | .if condition thenBranch (some elseBranch) =>
    condition.parts ++ (thenBranch.expressions ++ elseBranch.expressions)
  | .print expr => expr.parts
  | .var _ none => []
  | .var _ (some value) => value.parts
  | .while condition body => condition.parts ++ body.expressions

/-- The expressions in several statements. -/
def expressionsAll : List Stmt → List Expr
  | [] => []
  | statement :: rest => statement.expressions ++ expressionsAll rest

end

/-- The expressions in a loop are those of its parts.  An absent condition is one of them. -/
theorem expressions_forLoop (start : Option Stmt) (condition step : Option Expr) (body : Stmt) :
    (Stmt.forLoop start condition step body).expressions =
      start.elim [] Stmt.expressions ++ ((condition.getD (.literal (.bool true))).parts ++
        (body.expressions ++ step.elim [] Expr.parts)) := by
  cases start <;> cases step <;>
    simp [Stmt.forLoop, Stmt.withStep, Stmt.expressions, expressionsAll]

/-! ### Expressions from a text -/

/-- A value that a token of a text has as a literal, or the one that stands for an absent condition
of a loop. -/
inductive LiteralIn (tokens : List Token) : Value → Prop where
  | written {token : Token} (hmem : token ∈ tokens) :
      LiteralIn tokens (Derivation.literalValue token)
  | absent : LiteralIn tokens (.bool true)

/-- The tokens and the values of an expression are from a text. -/
structure ExprIn (tokens : List Token) (expr : Expr) : Prop where
  occurrences : Written tokens expr.occurrences
  values : ∀ value ∈ expr.literals, LiteralIn tokens value

/-- The same for each of several expressions. -/
def ExprsIn (tokens : List Token) (exprs : List Expr) : Prop := ∀ expr ∈ exprs, ExprIn tokens expr

section

variable {tokens more : List Token} {expr : Expr} {exprs others : List Expr}

theorem ExprIn.mono (h : ExprIn tokens expr) (hmore : ∀ token ∈ tokens, token ∈ more) :
    ExprIn more expr := by
  refine ⟨h.occurrences.mono hmore, fun value hvalue => ?_⟩
  cases h.values value hvalue with
  | written hmem => exact .written (hmore _ hmem)
  | absent => exact .absent

theorem ExprsIn.nil : ExprsIn tokens [] := nofun

theorem ExprsIn.append (h : ExprsIn tokens exprs) (h' : ExprsIn tokens others) :
    ExprsIn tokens (exprs ++ others) :=
  List.forall_mem_append.2 ⟨h, h'⟩

theorem ExprsIn.mono (h : ExprsIn tokens exprs) (hmore : ∀ token ∈ tokens, token ∈ more) :
    ExprsIn more exprs :=
  fun expr hmem => (h expr hmem).mono hmore

/-- What is in a part of an expression is in the expression. -/
theorem ExprIn.parts (h : ExprIn tokens expr) : ExprsIn tokens expr.parts := by
  induction expr with
  | assign name value ih | unary name value ih =>
    exact List.forall_mem_cons.2 ⟨h, ih ⟨(List.forall_mem_cons.1 h.occurrences).2, h.values⟩⟩
  | binary operator left right ihl ihr | logical operator left right ihl ihr =>
    obtain ⟨hleft, hright⟩ := List.forall_mem_append.1 (List.forall_mem_cons.1 h.occurrences).2
    obtain ⟨hleft', hright'⟩ := List.forall_mem_append.1 h.values
    exact List.forall_mem_cons.2 ⟨h, ExprsIn.append (ihl ⟨hleft, hleft'⟩) (ihr ⟨hright, hright'⟩)⟩
  | grouping inner ih => exact List.forall_mem_cons.2 ⟨h, ih ⟨h.occurrences, h.values⟩⟩
  | literal _ | «variable» _ => exact List.forall_mem_singleton.2 h

end

namespace Derivation

theorem literals_build (precedence : Precedence) (operator : Token) (left right : Expr) :
    (precedence.build operator left right).literals = left.literals ++ right.literals := by
  cases precedence <;> rfl

/-- The values in an expression are those of its literals. -/
theorem Phrase.literals_written {rule : Rule} (phrase : Phrase rule) :
    ∀ value ∈ phrase.expr.literals, ∃ token ∈ phrase.tokens, literalValue token = value := by
  induction phrase with
  | assignment name equals value ih | signed sign operand ih | group opening inner closing ih =>
    intro value hvalue
    obtain ⟨token, hmem, hliteral⟩ := ih value hvalue
    exact ⟨token, by simp [tokens, hmem], hliteral⟩
  | operation _ ih | single _ ih | unsigned _ ih => exact ih
  | @join precedence left operator right ihl ihr =>
    rw [expr, literals_build]
    refine List.forall_mem_append.2 ⟨fun value hvalue => ?_, fun value hvalue => ?_⟩
    · obtain ⟨token, hmem, hliteral⟩ := ihl value hvalue
      exact ⟨token, by simp [tokens, hmem], hliteral⟩
    · obtain ⟨token, hmem, hliteral⟩ := ihr value hvalue
      exact ⟨token, by simp [tokens, hmem], hliteral⟩
  | literal token => exact List.forall_mem_singleton.2 ⟨token.val, List.mem_cons_self, rfl⟩
  | identifier token => exact fun _ h => absurd h List.not_mem_nil

/-- An expression is from its text. -/
theorem Phrase.exprIn {rule : Rule} (phrase : Phrase rule) : ExprIn phrase.tokens phrase.expr := by
  refine ⟨phrase.written, fun value hvalue => ?_⟩
  obtain ⟨token, hmem, rfl⟩ := phrase.literals_written value hvalue
  exact .written hmem

/-- And so is each expression in it, also when there is more text around. -/
theorem Phrase.exprsIn {rule : Rule} (phrase : Phrase rule) {more : List Token}
    (hmore : ∀ token ∈ phrase.tokens, token ∈ more) : ExprsIn more phrase.expr.parts :=
  phrase.exprIn.parts.mono hmore

theorem VarDeclaration.exprsIn (declaration : VarDeclaration) :
    ExprsIn declaration.tokens declaration.stmt.expressions := by
  cases declaration with
  | plain var name semicolon => exact .nil
  | valued var name equals value semicolon => exact value.exprsIn fun _ h => by simp [tokens, h]

theorem StartClause.exprsIn (start : StartClause) :
    ExprsIn start.tokens (start.stmt?.elim [] Stmt.expressions) := by
  cases start with
  | absent semicolon => exact .nil
  | var declaration => exact declaration.exprsIn
  | expression expr semicolon => exact expr.exprsIn fun _ h => by simp [tokens, h]

/-- The condition of a loop, which is `true` if it is absent. -/
theorem Clause.exprsIn_condition (clause : Clause) :
    ExprsIn (Clause.tokens clause) ((Clause.expr? clause).getD (.literal (.bool true))).parts := by
  cases clause with
  | none => exact ExprIn.parts ⟨.nil, List.forall_mem_singleton.2 .absent⟩
  | some expr => exact expr.exprIn.parts

/-- The step of a loop, if there is one. -/
theorem Clause.exprsIn_step (clause : Clause) :
    ExprsIn (Clause.tokens clause) ((Clause.expr? clause).elim [] Expr.parts) := by
  cases clause with
  | none => exact .nil
  | some expr => exact expr.exprIn.parts

mutual

theorem Statement.exprsIn : ∀ {takesElse : Bool} (statement : Statement takesElse),
    ExprsIn statement.tokens statement.stmt.expressions
  | _, .expression expr _ => expr.exprsIn fun _ h => by simp [Statement.tokens, h]
  | _, .print _ expr _ => expr.exprsIn fun _ h => by simp [Statement.tokens, h]
  | _, .block _ body _ => body.exprsIn.mono fun _ h => by simp [Statement.tokens, h]
  | _, .loop _ _ condition _ body =>
    .append (condition.exprsIn fun _ h => by simp [Statement.tokens, h])
      (body.exprsIn.mono fun _ h => by simp [Statement.tokens, h])
  | _, .ifThen _ _ condition _ thenBranch =>
    .append (condition.exprsIn fun _ h => by simp [Statement.tokens, h])
      (thenBranch.exprsIn.mono fun _ h => by simp [Statement.tokens, h])
  | _, .ifElse _ _ condition _ thenBranch _ elseBranch =>
    .append (condition.exprsIn fun _ h => by simp [Statement.tokens, h])
      (.append (thenBranch.exprsIn.mono fun _ h => by simp [Statement.tokens, h])
        (elseBranch.exprsIn.mono fun _ h => by simp [Statement.tokens, h]))
  | _, .forLoop word opening start condition semicolon step closing body => by
    rw [stmt_forLoop word opening start condition semicolon step closing body,
      expressions_forLoop]
    have hcondition := Clause.exprsIn_condition condition
    have hstep := Clause.exprsIn_step step
    refine .append (start.exprsIn.mono ?_) (.append (hcondition.mono ?_)
      (.append (body.exprsIn.mono ?_) (hstep.mono ?_))) <;>
      intro token h <;> simp [Statement.tokens, h]

theorem Declaration.exprsIn : ∀ (declaration : Declaration),
    ExprsIn declaration.tokens declaration.stmt.expressions
  | .var declaration => declaration.exprsIn
  | .statement statement => statement.exprsIn

/-- The expressions in a program are from its text. -/
theorem Body.exprsIn : ∀ (body : Body), ExprsIn body.tokens (expressionsAll body.stmts)
  | .nil => .nil
  | .cons first rest =>
    .append (first.exprsIn.mono fun _ h => by simp [Body.tokens, h])
      (rest.exprsIn.mono fun _ h => by simp [Body.tokens, h])

end

end Derivation

/-! ### Expressions from a source -/

/-- The tokens of a source are words of the language. -/
theorem spelled_of_mem_words {source : List Char} {token : Token} (h : token ∈ words source) :
    token.Spelled := by
  obtain ⟨line, c, rest, htoken⟩ := exists_first_of_mem_words h
  obtain ⟨_, _, hproper, _⟩ := Segment.starts_first c rest
  cases hfirst : Segment.first c rest with
  | lexeme kind word =>
    rw [hfirst] at hproper htoken
    obtain ⟨value, hspells⟩ := hproper
    obtain rfl : (⟨kind, String.ofList word, Segment.literal? kind word, line⟩ : Token) = token :=
      Option.some.inj htoken
    rw [literal?_of_spells hspells, Token.Spelled, String.toList_ofList]
    exact hspells
  | _ =>
    rw [hfirst] at htoken
    cases htoken

/-- No number word has a sign, so a sign bit that is set is that of no finite number. -/
theorem number_clear {word : List Char} (finite : (number word).isFinite = true) :
    (number word).toBits.toNat < Binary64.codes := by
  have hle : (Decimal.ofText word).nearest ≤ Binary64.infinity := Nat.min_le_right _ _
  rcases Nat.lt_or_eq_of_le hle with hlt | heq
  · rw [number, Binary64.toBits_ofBits hlt]
    exact Nat.lt_trans hlt (by decide)
  · rw [number, heq] at finite
    exact absurd finite (by decide +kernel)

/-- A value is no string and, if it is a number, finite. -/
def Value.Finite (value : Value) : Prop :=
  (∀ text, value ≠ .string text) ∧ ∀ x, value = .number x → x.isFinite = true

/-- The value of a literal is legible unless it is a string or not finite. -/
theorem Token.Spelled.legible {token : Token} (h : token.Spelled)
    (finite : (Derivation.literalValue token).Finite) :
    (Derivation.literalValue token).Legible := by
  obtain ⟨kind, lexeme, literal, line⟩ := token
  obtain ⟨hstring, hnumber⟩ := finite
  unfold Token.Spelled at h
  generalize lexeme.toList = word at h
  cases h with
  | symbol _ | identifier _ _ _ => trivial
  | keyword keyword => cases keyword <;> trivial
  | whole _ _ | fraction _ _ _ _ => exact ⟨hnumber _ rfl, number_clear (hnumber _ rfl)⟩
  | string _ => exact absurd rfl (hstring _)

/-- An expression from a source is legible, unless a string or a number that is not finite is in
it. -/
theorem legible_of_exprIn {source : List Char} {expr : Expr} (h : ExprIn (words source) expr)
    (finite : ∀ value ∈ expr.literals, value.Finite) : expr.Legible := by
  refine legible_of_tokens (fun occurrence hmem => ?_) (fun value hmem => ?_)
  · have hwritten := h.occurrences occurrence hmem
    exact ⟨spelled_of_mem_words hwritten.mem, hwritten.kind⟩
  · have hfinite := finite value hmem
    cases h.values value hmem with
    | written hword => exact (spelled_of_mem_words hword).legible hfinite
    | absent => trivial

/-- The expressions in a program are from its source. -/
theorem exprsIn_of_parse {source : String} {statements : List Stmt}
    (h : Grammar.parse (scan source).tokens = .ok statements) :
    ExprsIn (words source.toList) (expressionsAll statements) := by
  obtain ⟨body, -, htokens, rfl⟩ := Derivation.body_of_findings (Derivation.findings_of_parse h)
  rw [← beforeEnd_scan, htokens]
  exact body.exprsIn

/-- **The text of an expression determines it.**  Take any two expressions, from any depth, of two
programs that are parsed from sources, and let no string and no number that is not finite be in
them.  If they are shown as the same text, they are the same but for the lines of their tokens. -/
theorem tree_of_display {source source' : String} {statements statements' : List Stmt}
    {expr expr' : Expr} (hparse : Grammar.parse (scan source).tokens = .ok statements)
    (hparse' : Grammar.parse (scan source').tokens = .ok statements')
    (hmem : expr ∈ expressionsAll statements) (hmem' : expr' ∈ expressionsAll statements')
    (finite : ∀ value ∈ expr.literals, value.Finite)
    (finite' : ∀ value ∈ expr'.literals, value.Finite) (h : expr.display = expr'.display) :
    expr.unplaced = expr'.unplaced :=
  unplaced_eq_of_display (legible_of_exprIn (exprsIn_of_parse hparse expr hmem) finite)
    (legible_of_exprIn (exprsIn_of_parse hparse' expr' hmem') finite') h

/-- An assignment on one line, and the same over two lines in a block, its number with a zero
less. -/
theorem tree_of_display_twoPlaces :
    let expr (line : Nat) (literal : List Char) : Expr :=
      .assign ⟨.identifier, "a", none, 1⟩ (.binary ⟨.symbol .plus, "+", none, line⟩
        (.literal (.number (number literal)))
        (.unary ⟨.symbol .minus, "-", none, line⟩ (.variable ⟨.identifier, "b", none, line⟩)))
    let statements := [.expression (expr 1 "1.50".toList)]
    let statements' := [.block [.print (expr 2 "1.5".toList)]]
    Grammar.parse (scan "a = 1.50 + -b;").tokens = .ok statements ∧
      Grammar.parse (scan "\x7bprint a =\n1.5 + -b;\x7d").tokens = .ok statements' ∧
      (expr 1 "1.50".toList).display = (expr 2 "1.5".toList).display ∧
      (expr 1 "1.50".toList).unplaced = (expr 2 "1.5".toList).unplaced := by
  intro expr statements statements'
  have scanned : scan "a = 1.50 + -b;" =
      ⟨[⟨.identifier, "a", none, 1⟩, ⟨.symbol .equal, "=", none, 1⟩,
        ⟨.number, "1.50", some (.number (number "1.50".toList)), 1⟩,
        ⟨.symbol .plus, "+", none, 1⟩, ⟨.symbol .minus, "-", none, 1⟩,
        ⟨.identifier, "b", none, 1⟩, ⟨.symbol .semicolon, ";", none, 1⟩, ⟨.eof, "", none, 1⟩],
        []⟩ := by decide +kernel
  have scanned' : scan "\x7bprint a =\n1.5 + -b;\x7d" =
      ⟨[⟨.symbol .leftBrace, "\x7b", none, 1⟩, ⟨.keyword .print, "print", none, 1⟩,
        ⟨.identifier, "a", none, 1⟩, ⟨.symbol .equal, "=", none, 1⟩,
        ⟨.number, "1.5", some (.number (number "1.5".toList)), 2⟩,
        ⟨.symbol .plus, "+", none, 2⟩, ⟨.symbol .minus, "-", none, 2⟩,
        ⟨.identifier, "b", none, 2⟩, ⟨.symbol .semicolon, ";", none, 2⟩,
        ⟨.symbol .rightBrace, "\x7d", none, 2⟩, ⟨.eof, "", none, 2⟩], []⟩ := by decide +kernel
  have parsed : Grammar.parse (scan "a = 1.50 + -b;").tokens = .ok statements := by
    rw [scanned]
    rfl
  have parsed' : Grammar.parse (scan "\x7bprint a =\n1.5 + -b;\x7d").tokens = .ok statements' := by
    rw [scanned']
    rfl
  have finite : ∀ line literal, (number literal).isFinite = true →
      ∀ value ∈ (expr line literal).literals, value.Finite := by
    rintro line literal hfinite _ (_ | ⟨_, ⟨⟩⟩)
    exact ⟨nofun, fun _ h => Value.number.inj h ▸ hfinite⟩
  have shown : (expr 1 "1.50".toList).display = (expr 2 "1.5".toList).display := by
    have hnumber : number "1.50".toList = number "1.5".toList := by decide +kernel
    simp only [expr, hnumber, Expr.display, Token.display]
  refine ⟨parsed, parsed', shown, ?_⟩
  refine tree_of_display parsed parsed' List.mem_cons_self List.mem_cons_self
    (finite _ _ ?_) (finite _ _ ?_) shown <;> decide +kernel

end Lox
