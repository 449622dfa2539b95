import Lox.Proofs.Parsing.Written

/-!
# What is accepted was written

When a parser is done and has reported nothing, the tokens that it took are those of a derivation
tree, in order and in full, and the syntax tree that it answers with is the one that the derivation
tree stands for.

The induction is over the levels of nesting that are left.  Inside a level each parser is taken
apart into its parts, and the derivation trees of the parts make one for the whole.  A statement
also remembers what did not follow it, so that an `else` is known to have gone to the nearest `if`.

* `SoundNested`: the parsers one level further in take derivation trees;
* `accounts_expression` and `accounts_statement`: the parsers of a level do, if those do;
* `soundNested`: so all of them do;
* `body_of_findings`: a program without errors is a derivation tree.
-/

namespace Lox.Derivation

open Lox.Grammar Lox.Parser

/-- The tokens that were taken are those of a phrase with at most so many levels of nesting, and
the expression is the one that the phrase stands for. -/
def Accounts (rule : Rule) (limit : Nat) (tokens rest : List Token) (expr : Expr) : Prop :=
  ∃ phrase : Phrase rule,
    phrase.levels ≤ limit ∧ tokens = phrase.tokens ++ rest ∧ expr = phrase.expr

/-- A statement accounts for tokens likewise, and no `else` that it would take follows. -/
def AccountsStatement (limit : Nat) (tokens rest : List Token) (stmt : Stmt) : Prop :=
  ∃ (takesElse : Bool) (statement : Statement takesElse), statement.levels ≤ limit ∧
    tokens = statement.tokens ++ rest ∧ stmt = statement.stmt ∧ Stops (elseWords takesElse) rest

/-- The parsers one level further in take derivation trees.  The level itself is counted where the
operand or the expression stands, but as a part of the statement. -/
structure SoundNested (limit : Nat) (deeper : Nested) : Prop where
  operand {theEnd : Token} {tokens rest : List Token} {expr : Expr} (hend : theEnd.kind = .eof)
    (h : deeper.operand theEnd tokens = Done expr rest) :
    ∃ levels < limit, Accounts .unary levels tokens rest expr
  expression {theEnd : Token} {tokens rest : List Token} {expr : Expr} (hend : theEnd.kind = .eof)
    (h : deeper.expression theEnd tokens = Done expr rest) :
    ∃ levels < limit, Accounts .expression levels tokens rest expr
  statement {theEnd : Token} {tokens rest : List Token} {stmt : Stmt} (hend : theEnd.kind = .eof)
    (h : deeper.statement theEnd tokens = Done stmt rest) :
    AccountsStatement limit tokens rest stmt

variable {limit : Nat} {deeper : Nested} {theEnd : Token} {tokens rest : List Token}

/-! ### Expressions -/

/-- A token that is an expression on its own is a literal or a name. -/
theorem literal_or_identifier_of_atom? {token : Token} {expr : Expr} (h : atom? token = some expr) :
    (token.kind ∈ literals ∧ expr = .literal (literalValue token)) ∨
      (token.kind = .identifier ∧ expr = .variable token) := by
  unfold atom? at h
  split at h <;> cases h <;> simp_all [literals, literalValue]

theorem accounts_grouping (sound : SoundNested limit deeper) (hend : theEnd.kind = .eof)
    {expr : Expr} (h : grouping deeper theEnd tokens = Done expr rest) :
    Accounts .primary limit tokens rest expr := by
  rw [grouping] at h
  obtain ⟨taken, afterOpening, htake, h₁⟩ := done_of_bind h
  obtain ⟨rfl, _, _⟩ | ⟨opening, rfl, rfl, hopening⟩ := done_of_take? htake
  · exact absurd h₁ not_done_of_fail
  obtain ⟨inner, afterInner, hinner, h₂⟩ := done_of_bind h₁
  obtain ⟨levels, hlevels, phrase, hle, rfl, rfl⟩ := sound.expression hend hinner
  obtain ⟨closing, afterClosing, rfl, h₃⟩ := done_of_require h₂
  obtain ⟨rfl, rfl⟩ := done_of_pure h₃
  refine ⟨.group ⟨opening, List.mem_singleton.1 hopening⟩ phrase closing, ?_, ?_, rfl⟩
  · simp only [Phrase.levels]
    omega
  · simp [Phrase.tokens]

theorem accounts_primary (sound : SoundNested limit deeper) (hend : theEnd.kind = .eof)
    {expr : Expr} (h : Rule.primary.parser deeper theEnd tokens = Done expr rest) :
    Accounts .primary limit tokens rest expr := by
  change primary deeper theEnd tokens = Done expr rest at h
  rw [primary, bind_of_done next_eq] at h
  cases hatom : atom? (tokens.headD theEnd) with
  | none =>
    rw [hatom] at h
    exact accounts_grouping sound hend h
  | some atom =>
    rw [hatom] at h
    obtain ⟨_, _, hskip, h₁⟩ := done_of_bind h
    cases hskip
    obtain ⟨rfl, rfl⟩ := done_of_pure h₁
    cases tokens with
    | nil => simp [atom?, hend] at hatom
    | cons token rest =>
      obtain ⟨hkind, rfl⟩ | ⟨hkind, rfl⟩ := literal_or_identifier_of_atom? hatom
      · exact ⟨.literal ⟨token, hkind⟩, Nat.zero_le _, rfl, rfl⟩
      · exact ⟨.identifier ⟨token, hkind⟩, Nat.zero_le _, rfl, rfl⟩

theorem accounts_unary (sound : SoundNested limit deeper) (hend : theEnd.kind = .eof)
    {expr : Expr} (h : Rule.unary.parser deeper theEnd tokens = Done expr rest) :
    Accounts .unary limit tokens rest expr := by
  rw [parser_unary] at h
  obtain ⟨taken, afterSign, htake, h₁⟩ := done_of_bind h
  obtain ⟨rfl, rfl, _⟩ | ⟨sign, rfl, rfl, hsign⟩ := done_of_take? htake
  · obtain ⟨phrase, hle, rfl, rfl⟩ := accounts_primary sound hend h₁
    exact ⟨.unsigned phrase, hle, rfl, rfl⟩
  · obtain ⟨operand, afterOperand, hoperand, h₂⟩ := done_of_bind h₁
    obtain ⟨levels, hlevels, phrase, hle, rfl, rfl⟩ := sound.operand hend hoperand
    obtain ⟨rfl, rfl⟩ := done_of_pure h₂
    exact ⟨.signed ⟨sign, hsign⟩ phrase, by simp only [Phrase.levels]; omega, rfl, rfl⟩

/-- A loop over operators takes operands of its precedence, which join what is left of it. -/
theorem accounts_chain {precedence : Precedence} {operand : Parser Expr}
    (hoperand : ∀ {tokens rest : List Token} {expr : Expr},
      operand theEnd tokens = Done expr rest → Accounts precedence.tighter limit tokens rest expr)
    (rounds : List Token) {expr : Expr} :
    ∀ (left : Phrase (.operation precedence)) (tokens : List Token), left.levels ≤ limit →
      chain precedence.tier operand rounds left.expr theEnd tokens = Done expr rest →
        Accounts (.operation precedence) limit (left.tokens ++ tokens) rest expr := by
  induction rounds with
  | nil =>
    intro left tokens hle h
    obtain ⟨rfl, rfl⟩ := done_of_pure h
    exact ⟨left, hle, rfl, rfl⟩
  | cons _ rounds ih =>
    intro left tokens hle h
    rw [chain] at h
    obtain ⟨taken, afterOperator, htake, h₁⟩ := done_of_bind h
    obtain ⟨rfl, rfl, _⟩ | ⟨operator, rfl, rfl, hoperator⟩ := done_of_take? htake
    · obtain ⟨rfl, rfl⟩ := done_of_pure h₁
      exact ⟨left, hle, rfl, rfl⟩
    · obtain ⟨right, afterRight, hright, h₂⟩ := done_of_bind h₁
      obtain ⟨phrase, hright, rfl, rfl⟩ := hoperand hright
      obtain ⟨whole, hwhole, htokens, hexpr⟩ :=
        ih (.join left ⟨operator, hoperator⟩ phrase) afterRight
          (by simp only [Phrase.levels]; omega) h₂
      refine ⟨whole, hwhole, ?_, hexpr⟩
      rw [← htokens]
      simp [Phrase.tokens]

theorem accounts_operation (precedence : Precedence) {deeper : Nested}
    (hoperand : ∀ {tokens rest : List Token} {expr : Expr},
      precedence.tighter.parser deeper theEnd tokens = Done expr rest →
        Accounts precedence.tighter limit tokens rest expr)
    {tokens rest : List Token} {expr : Expr}
    (h : (Rule.operation precedence).parser deeper theEnd tokens = Done expr rest) :
    Accounts (.operation precedence) limit tokens rest expr := by
  rw [parser_operation] at h
  obtain ⟨first, afterFirst, hfirst, h₁⟩ := done_of_bind h
  obtain ⟨rounds, _, hrounds, h₂⟩ := done_of_bind h₁
  cases hrounds
  obtain ⟨phrase, hle, rfl, rfl⟩ := hoperand hfirst
  exact accounts_chain hoperand _ (.single phrase) _ hle h₂

/-- A phrase that stands for a variable is a name and nothing else. -/
theorem tokens_of_variable {rule : Rule} (phrase : Phrase rule) {name : Token}
    (h : phrase.expr = .variable name) : phrase.tokens = [name] ∧ name.kind = .identifier := by
  induction phrase with
  | operation _ ih => exact ih h
  | single _ ih => exact ih h
  | unsigned _ ih => exact ih h
  | identifier token => cases h; exact ⟨rfl, token.property⟩
  | @join precedence left operator right _ _ => cases precedence <;> cases h
  | assignment _ _ _ _ | signed _ _ _ | literal _ | group _ _ _ _ => cases h

theorem accounts_expression (sound : SoundNested limit deeper) (hend : theEnd.kind = .eof)
    {expr : Expr} (h : Rule.expression.parser deeper theEnd tokens = Done expr rest) :
    Accounts .expression limit tokens rest expr := by
  rw [parser_expression] at h
  obtain ⟨target, afterTarget, htarget, h₁⟩ := done_of_bind h
  have htarget : Accounts (.operation .or) limit tokens afterTarget target :=
    accounts_operation .or (accounts_operation .and (accounts_operation .equality
      (accounts_operation .comparison (accounts_operation .term (accounts_operation .factor
        (accounts_unary sound hend)))))) htarget
  obtain ⟨phrase, hle, rfl, hexpr⟩ := htarget
  obtain ⟨taken, afterEquals, htake, h₂⟩ := done_of_bind h₁
  obtain ⟨rfl, rfl, _⟩ | ⟨equals, rfl, rfl, hequals⟩ := done_of_take? htake
  · obtain ⟨rfl, rfl⟩ := done_of_pure h₂
    exact ⟨.operation phrase, hle, rfl, hexpr⟩
  obtain ⟨value, afterValue, hvalue, h₃⟩ := done_of_bind h₂
  obtain ⟨levels, hlevels, valuePhrase, hvalue, rfl, rfl⟩ := sound.expression hend hvalue
  split at h₃
  · next name =>
    obtain ⟨rfl, rfl⟩ := done_of_pure h₃
    obtain ⟨htokens, hkind⟩ := tokens_of_variable phrase hexpr.symm
    refine ⟨.assignment ⟨name, hkind⟩ ⟨equals, List.mem_singleton.1 hequals⟩ valuePhrase, ?_, ?_,
      rfl⟩
    · simp only [Phrase.levels]
      omega
    · rw [htokens]
      rfl
  · -- a target that is no variable is reported, so this was not without a report
    obtain ⟨_, _, hreport, _⟩ := done_of_bind h₃
    cases hreport

/-! ### Declarations of variables and clauses of loops -/

theorem accounts_varDeclaration (sound : SoundNested limit deeper) (hend : theEnd.kind = .eof)
    {stmt : Stmt} (var : Word (.keyword .var))
    (h : varDeclaration deeper theEnd tokens = Done stmt rest) :
    ∃ declaration : VarDeclaration, declaration.levels ≤ limit ∧
      var.val :: tokens = declaration.tokens ++ rest ∧ stmt = declaration.stmt := by
  rw [varDeclaration] at h
  obtain ⟨name, afterName, rfl, h₁⟩ := done_of_require h
  obtain ⟨taken, afterEquals, htake, h₂⟩ := done_of_bind h₁
  obtain ⟨rfl, rfl, _⟩ | ⟨equals, rfl, rfl, hequals⟩ := done_of_take? htake
  · obtain ⟨semicolon, afterSemicolon, rfl, h₃⟩ := done_of_require h₂
    obtain ⟨rfl, rfl⟩ := done_of_pure h₃
    exact ⟨.plain var name semicolon, Nat.zero_le _, rfl, rfl⟩
  · obtain ⟨value, afterValue, hvalue, h₃⟩ := done_of_bind h₂
    obtain ⟨phrase, hle, rfl, rfl⟩ := accounts_expression sound hend hvalue
    obtain ⟨semicolon, afterSemicolon, rfl, h₄⟩ := done_of_require h₃
    obtain ⟨rfl, rfl⟩ := done_of_pure h₄
    refine ⟨.valued var name ⟨equals, List.mem_singleton.1 hequals⟩ phrase
      semicolon, hle, ?_, rfl⟩
    simp [VarDeclaration.tokens]

theorem accounts_expressionStatement (sound : SoundNested limit deeper)
    (hend : theEnd.kind = .eof) {stmt : Stmt}
    (h : expressionStatement deeper theEnd tokens = Done stmt rest) :
    ∃ (expr : Phrase .expression) (semicolon : Word (.symbol .semicolon)), expr.levels ≤ limit ∧
      tokens = expr.tokens ++ semicolon.val :: rest ∧ stmt = .expression expr.expr := by
  rw [expressionStatement] at h
  obtain ⟨expr, afterExpr, hexpr, h₁⟩ := done_of_bind h
  obtain ⟨phrase, hle, rfl, rfl⟩ := accounts_expression sound hend hexpr
  obtain ⟨semicolon, afterSemicolon, rfl, h₂⟩ := done_of_require h₁
  obtain ⟨rfl, rfl⟩ := done_of_pure h₂
  exact ⟨phrase, semicolon, hle, rfl, rfl⟩

/-- A parser that saw a kind of token other than that of the end token, and skipped it, has taken a
word of that kind. -/
theorem done_of_skip {α : Type} {p : Parser α} {a : α} {kind : TokenKind}
    (hend : theEnd.kind = .eof) (hkind : (tokens.headD theEnd).kind = kind) (hne : kind ≠ .eof)
    (h : (skip >>= fun _ => p) theEnd tokens = Done a rest) :
    ∃ (word : Word kind) (more : List Token),
      tokens = word.val :: more ∧ p theEnd more = Done a rest := by
  obtain ⟨_, _, hskip, hmore⟩ := done_of_bind h
  cases hskip
  cases tokens with
  | nil => exact absurd (hkind.symm.trans hend) hne
  | cons first more => exact ⟨⟨first, hkind⟩, more, rfl, hmore⟩

theorem accounts_startClause (sound : SoundNested limit deeper) (hend : theEnd.kind = .eof)
    {stmt? : Option Stmt} (h : startClause deeper theEnd tokens = Done stmt? rest) :
    ∃ start : StartClause, start.levels ≤ limit ∧ tokens = start.tokens ++ rest ∧
      stmt? = start.stmt? := by
  rw [startClause, bind_of_done next_eq] at h
  generalize hkind : (tokens.headD theEnd).kind = kind at h
  split at h
  · obtain ⟨semicolon, more, rfl, h₁⟩ := done_of_skip hend hkind (by decide) h
    obtain ⟨rfl, rfl⟩ := done_of_pure h₁
    exact ⟨.absent semicolon, Nat.zero_le _, rfl, rfl⟩
  · obtain ⟨var, more, rfl, h₁⟩ := done_of_skip hend hkind (by decide) h
    obtain ⟨stmt, afterDeclaration, hdeclaration, h₂⟩ := done_of_bind h₁
    obtain ⟨declaration, hle, hwritten, rfl⟩ :=
      accounts_varDeclaration sound hend var hdeclaration
    obtain ⟨rfl, rfl⟩ := done_of_pure h₂
    exact ⟨.var declaration, hle, hwritten, rfl⟩
  · obtain ⟨stmt, afterStatement, hstatement, h₁⟩ := done_of_bind h
    obtain ⟨expr, semicolon, hle, rfl, rfl⟩ := accounts_expressionStatement sound hend hstatement
    obtain ⟨rfl, rfl⟩ := done_of_pure h₁
    exact ⟨.expression expr semicolon, hle, by simp [StartClause.tokens], rfl⟩

theorem accounts_clause (sound : SoundNested limit deeper) (hend : theEnd.kind = .eof)
    {closing : TokenKind} {expr? : Option Expr}
    (h : clauseBefore closing deeper theEnd tokens = Done expr? rest) :
    ∃ clause : Clause, Clause.levels clause ≤ limit ∧ tokens = Clause.tokens clause ++ rest ∧
      expr? = Clause.expr? clause := by
  rw [clauseBefore, bind_of_done next_eq] at h
  split at h
  · obtain ⟨rfl, rfl⟩ := done_of_pure h
    exact ⟨none, Nat.zero_le _, rfl, rfl⟩
  · obtain ⟨expr, afterExpr, hexpr, h₁⟩ := done_of_bind h
    obtain ⟨phrase, hle, rfl, rfl⟩ := accounts_expression sound hend hexpr
    obtain ⟨rfl, rfl⟩ := done_of_pure h₁
    exact ⟨some phrase, hle, rfl, rfl⟩

/-! ### Statements -/

theorem accounts_printStatement (sound : SoundNested limit deeper) (hend : theEnd.kind = .eof)
    {stmt : Stmt} (word : Word (.keyword .print))
    (h : printStatement deeper theEnd tokens = Done stmt rest) :
    AccountsStatement (limit + 1) (word.val :: tokens) rest stmt := by
  rw [printStatement] at h
  obtain ⟨expr, afterExpr, hexpr, h₁⟩ := done_of_bind h
  obtain ⟨phrase, hle, rfl, rfl⟩ := accounts_expression sound hend hexpr
  obtain ⟨semicolon, afterSemicolon, rfl, h₂⟩ := done_of_require h₁
  obtain ⟨rfl, rfl⟩ := done_of_pure h₂
  refine ⟨_, .print word phrase semicolon, Nat.succ_le_succ hle, ?_, rfl,
    fun _ _ => List.not_mem_nil⟩
  simp [Statement.tokens]

theorem accounts_whileStatement (sound : SoundNested limit deeper) (hend : theEnd.kind = .eof)
    {stmt : Stmt} (word : Word (.keyword .while))
    (h : whileStatement deeper theEnd tokens = Done stmt rest) :
    AccountsStatement (limit + 1) (word.val :: tokens) rest stmt := by
  rw [whileStatement] at h
  obtain ⟨opening, afterOpening, rfl, h₁⟩ := done_of_require h
  obtain ⟨condition, afterCondition, hcondition, h₂⟩ := done_of_bind h₁
  obtain ⟨phrase, hphrase, rfl, rfl⟩ := accounts_expression sound hend hcondition
  obtain ⟨closing, afterClosing, rfl, h₃⟩ := done_of_require h₂
  obtain ⟨body, afterBody, hbody, h₄⟩ := done_of_bind h₃
  obtain ⟨takesElse, statement, hstatement, rfl, rfl, hstops⟩ := sound.statement hend hbody
  obtain ⟨rfl, rfl⟩ := done_of_pure h₄
  refine ⟨takesElse, .loop word opening phrase closing statement, ?_, ?_,
    rfl, hstops⟩
  · simp only [Statement.levels]
    omega
  · simp [Statement.tokens]

theorem accounts_ifStatement (sound : SoundNested limit deeper) (hend : theEnd.kind = .eof)
    {stmt : Stmt} (word : Word (.keyword .if))
    (h : ifStatement deeper theEnd tokens = Done stmt rest) :
    AccountsStatement (limit + 1) (word.val :: tokens) rest stmt := by
  rw [ifStatement] at h
  obtain ⟨opening, afterOpening, rfl, h₁⟩ := done_of_require h
  obtain ⟨condition, afterCondition, hcondition, h₂⟩ := done_of_bind h₁
  obtain ⟨phrase, hphrase, rfl, rfl⟩ := accounts_expression sound hend hcondition
  obtain ⟨closing, afterClosing, rfl, h₃⟩ := done_of_require h₂
  obtain ⟨thenStmt, afterThen, hthen, h₄⟩ := done_of_bind h₃
  obtain ⟨thenTakes, thenBranch, hthenLevels, rfl, rfl, hthenStops⟩ := sound.statement hend hthen
  obtain ⟨taken, afterElse, htake, h₅⟩ := done_of_bind h₄
  obtain ⟨rfl, rfl, hstops⟩ | ⟨otherwise, rfl, rfl, hotherwise⟩ := done_of_take? htake
  · obtain ⟨rfl, rfl⟩ := done_of_pure h₅
    refine ⟨true, .ifThen word opening phrase closing thenBranch, ?_, ?_,
      rfl, hstops⟩
    · simp only [Statement.levels]
      omega
    · simp [Statement.tokens]
  · have hthenTakes : thenTakes = false := by
      cases thenTakes with
      | false => rfl
      | true => exact absurd hotherwise (stops_cons.1 hthenStops)
    subst hthenTakes
    obtain ⟨elseStmt, afterElse, helse, h₆⟩ := done_of_bind h₅
    obtain ⟨takesElse, elseBranch, helseLevels, rfl, rfl, hstops⟩ := sound.statement hend helse
    obtain ⟨rfl, rfl⟩ := done_of_pure h₆
    refine ⟨takesElse, .ifElse word opening phrase closing thenBranch
      ⟨otherwise, List.mem_singleton.1 hotherwise⟩ elseBranch, ?_, ?_, rfl, hstops⟩
    · simp only [Statement.levels]
      omega
    · simp [Statement.tokens]

theorem accounts_forStatement (sound : SoundNested limit deeper) (hend : theEnd.kind = .eof)
    {stmt : Stmt} (word : Word (.keyword .for))
    (h : forStatement deeper theEnd tokens = Done stmt rest) :
    AccountsStatement (limit + 1) (word.val :: tokens) rest stmt := by
  rw [forStatement] at h
  obtain ⟨opening, afterOpening, rfl, h₁⟩ := done_of_require h
  obtain ⟨start, afterStart, hstart, h₂⟩ := done_of_bind h₁
  obtain ⟨start, hstart, rfl, rfl⟩ := accounts_startClause sound hend hstart
  obtain ⟨condition, afterCondition, hcondition, h₃⟩ := done_of_bind h₂
  obtain ⟨condition, hcondition, rfl, rfl⟩ := accounts_clause sound hend hcondition
  obtain ⟨semicolon, afterSemicolon, rfl, h₄⟩ := done_of_require h₃
  obtain ⟨step, afterStep, hstep, h₅⟩ := done_of_bind h₄
  obtain ⟨step, hstep, rfl, rfl⟩ := accounts_clause sound hend hstep
  obtain ⟨closing, afterClosing, rfl, h₆⟩ := done_of_require h₅
  obtain ⟨body, afterBody, hbody, h₇⟩ := done_of_bind h₆
  obtain ⟨takesElse, statement, hstatement, rfl, rfl, hstops⟩ := sound.statement hend hbody
  obtain ⟨rfl, rfl⟩ := done_of_pure h₇
  refine ⟨takesElse, .forLoop word opening start condition semicolon step
    closing statement, ?_, ?_, (stmt_forLoop ..).symm, hstops⟩
  · simp only [Statement.levels]
    omega
  · simp [Statement.tokens]

/-- The declarations in a block are those of a body, whatever ends the loop over them. -/
theorem accounts_declarations
    (sound : ∀ {tokens rest : List Token} {stmt : Stmt},
      declaration deeper theEnd tokens = Done stmt rest →
        ∃ tree : Declaration, tree.levels ≤ limit ∧ tokens = tree.tokens ++ rest ∧
          stmt = tree.stmt)
    (rounds : List Token) {tokens rest : List Token} {stmts : List Stmt}
    (h : declarations deeper rounds theEnd tokens = Done stmts rest) :
    ∃ body : Body, body.levels ≤ limit ∧ tokens = body.tokens ++ rest ∧ stmts = body.stmts := by
  induction rounds generalizing tokens rest stmts with
  | nil =>
    obtain ⟨rfl, rfl⟩ := done_of_pure h
    exact ⟨.nil, Nat.zero_le _, rfl, rfl⟩
  | cons _ rounds ih =>
    rw [declarations, bind_of_done next_eq] at h
    split at h
    · obtain ⟨rfl, rfl⟩ := done_of_pure h
      exact ⟨.nil, Nat.zero_le _, rfl, rfl⟩
    · obtain ⟨stmt, afterFirst, hfirst, h₁⟩ := done_of_bind h
      obtain ⟨first, hfirst, rfl, rfl⟩ := sound hfirst
      obtain ⟨later, afterLater, hlater, h₂⟩ := done_of_bind h₁
      obtain ⟨body, hbody, rfl, rfl⟩ := ih hlater
      obtain ⟨rfl, rfl⟩ := done_of_pure h₂
      refine ⟨.cons first body, ?_, ?_, rfl⟩
      · simp only [Body.levels]
        omega
      · simp [Body.tokens]

theorem accounts_declaration (sound : SoundNested limit deeper) (hend : theEnd.kind = .eof)
    {tokens rest : List Token} {stmt : Stmt}
    (h : declaration deeper theEnd tokens = Done stmt rest) :
    ∃ tree : Declaration, tree.levels ≤ limit ∧ tokens = tree.tokens ++ rest ∧
      stmt = tree.stmt := by
  rw [declaration] at h
  obtain ⟨taken, afterVar, htake, h₁⟩ := done_of_bind h
  obtain ⟨rfl, rfl, _⟩ | ⟨var, rfl, rfl, hvar⟩ := done_of_take? htake
  · obtain ⟨takesElse, statement, hle, htokens, rfl, _⟩ := sound.statement hend h₁
    exact ⟨.statement statement, hle, htokens, rfl⟩
  · obtain ⟨declaration, hle, htokens, rfl⟩ :=
      accounts_varDeclaration sound hend ⟨var, List.mem_singleton.1 hvar⟩ h₁
    exact ⟨.var declaration, hle, htokens, rfl⟩

theorem accounts_block (sound : SoundNested limit deeper) (hend : theEnd.kind = .eof)
    {stmt : Stmt} (opening : Word (.symbol .leftBrace))
    (h : block deeper theEnd tokens = Done stmt rest) :
    AccountsStatement (limit + 1) (opening.val :: tokens) rest stmt := by
  rw [block] at h
  obtain ⟨rounds, _, hrounds, h₁⟩ := done_of_bind h
  cases hrounds
  obtain ⟨stmts, afterBody, hbody, h₂⟩ := done_of_bind h₁
  obtain ⟨body, hle, rfl, rfl⟩ := accounts_declarations (accounts_declaration sound hend) _ hbody
  obtain ⟨closing, afterClosing, rfl, h₃⟩ := done_of_require h₂
  obtain ⟨rfl, rfl⟩ := done_of_pure h₃
  refine ⟨_, .block opening body closing, Nat.succ_le_succ hle, ?_, rfl,
    fun _ _ => List.not_mem_nil⟩
  simp [Statement.tokens]

/-- **Statements.**  A statement is told by its first token, and each kind of statement takes a
derivation tree. -/
theorem accounts_statement (sound : SoundNested limit deeper) (hend : theEnd.kind = .eof)
    {stmt : Stmt} (h : Grammar.statement deeper theEnd tokens = Done stmt rest) :
    AccountsStatement (limit + 1) tokens rest stmt := by
  rw [Grammar.statement, bind_of_done next_eq] at h
  generalize hkind : (tokens.headD theEnd).kind = kind at h
  split at h
  · obtain ⟨word, more, rfl, h₁⟩ := done_of_skip hend hkind (by decide) h
    exact accounts_forStatement sound hend word h₁
  · obtain ⟨word, more, rfl, h₁⟩ := done_of_skip hend hkind (by decide) h
    exact accounts_ifStatement sound hend word h₁
  · obtain ⟨word, more, rfl, h₁⟩ := done_of_skip hend hkind (by decide) h
    exact accounts_whileStatement sound hend word h₁
  · obtain ⟨word, more, rfl, h₁⟩ := done_of_skip hend hkind (by decide) h
    exact accounts_printStatement sound hend word h₁
  · obtain ⟨word, more, rfl, h₁⟩ := done_of_skip hend hkind (by decide) h
    exact accounts_block sound hend word h₁
  · obtain ⟨expr, semicolon, hle, rfl, rfl⟩ := accounts_expressionStatement sound hend h
    refine ⟨_, .expression expr semicolon, Nat.succ_le_succ hle, ?_, rfl,
      fun _ _ => List.not_mem_nil⟩
    simp [Statement.tokens]

/-! ### All levels -/

/-- **The parsers one level further in take derivation trees**, however many levels are left. -/
theorem soundNested (limit : Nat) : SoundNested limit (nested limit) := by
  induction limit with
  | zero =>
    constructor
    · intro theEnd tokens rest expr hend h
      exact absurd h not_done_of_fail
    · intro theEnd tokens rest expr hend h
      exact absurd h not_done_of_fail
    · intro theEnd tokens rest stmt hend h
      exact absurd h not_done_of_fail
  | succ limit ih =>
    constructor
    · intro theEnd tokens rest expr hend h
      exact ⟨limit, Nat.lt_succ_self _, accounts_unary ih hend h⟩
    · intro theEnd tokens rest expr hend h
      exact ⟨limit, Nat.lt_succ_self _, accounts_expression ih hend h⟩
    · intro theEnd tokens rest stmt hend h
      exact accounts_statement ih hend h

/-! ### Programs -/

/-- A program that leaves no error has taken all tokens in hand, if it has a round for each. -/
theorem body_of_program {theEnd : Token} (hend : theEnd.kind = .eof) (limit : Nat)
    (rounds : List Token) :
    ∀ (tokens : List Token) (stmts : List Stmt), tokens.length ≤ rounds.length →
      program (nested limit) theEnd rounds tokens = ⟨stmts, []⟩ →
        ∃ body : Body, body.levels ≤ limit ∧ tokens = body.tokens ∧ stmts = body.stmts := by
  induction rounds with
  | nil =>
    intro tokens stmts hlong h
    have htokens := List.length_eq_zero_iff.1 (Nat.le_zero.1 hlong)
    cases h
    exact ⟨.nil, Nat.zero_le _, htokens, rfl⟩
  | cons _ rounds ih =>
    intro tokens stmts hlong h
    cases tokens with
    | nil =>
      cases h
      exact ⟨.nil, Nat.zero_le _, rfl, rfl⟩
    | cons token more =>
      rcases hreply : declaration (nested limit) theEnd (token :: more) with ⟨result, left, reports⟩
      simp only [program, hreply] at h
      cases result with
      | error e => simp at h
      | ok stmt =>
        rcases hlater : program (nested limit) theEnd rounds left with ⟨later, errors⟩
        simp only [hlater, Findings.mk.injEq, List.append_eq_nil_iff] at h
        obtain ⟨rfl, rfl, rfl⟩ := h
        obtain ⟨first, hfirst, htokens, rfl⟩ :=
          accounts_declaration (soundNested limit) hend hreply
        -- the declaration has taken a token, so a round is left for each of the others
        obtain ⟨_, taken, hbegins, _⟩ := first.begins
        have hleft : left.length ≤ rounds.length := by
          have hlengths := congrArg List.length htokens
          rw [hbegins] at hlengths
          simp only [List.length_cons, List.length_append] at hlengths hlong
          omega
        obtain ⟨body, hbody, rfl, rfl⟩ := ih left later hleft hlater
        refine ⟨.cons first body, ?_, htokens, rfl⟩
        simp only [Body.levels]
        omega

theorem endToken_kind (tokens : List Token) : (endToken tokens).kind = .eof := by
  unfold endToken
  split
  · next token h => simpa [isEnd] using List.find?_some h
  · rfl

/-- The statements of a program without errors are those of a derivation tree. -/
theorem body_of_findings {tokens : List Token} {stmts : List Stmt}
    (h : findings tokens = ⟨stmts, []⟩) :
    ∃ body : Body, body.levels ≤ maxNesting ∧ beforeEnd tokens = body.tokens ∧
      stmts = body.stmts :=
  body_of_program (endToken_kind tokens) maxNesting _ _ _ (Nat.le_refl _) h

theorem findings_of_parse {tokens : List Token} {stmts : List Stmt} (h : parse tokens = .ok stmts) :
    findings tokens = ⟨stmts, []⟩ := by
  rcases hfound : findings tokens with ⟨statements, errors⟩
  simp only [parse, hfound] at h
  cases errors with
  | nil => cases h; rfl
  | cons e errors => cases h

/-- **What is accepted was written.**  If a sequence of tokens, with an end token in any place or
none, is accepted, then the tokens before the first end token are those of a program with at most
128 levels of nesting, in order and in full, and the syntax tree is the one it stands for. -/
theorem written_of_parse (tokens : List Token) (stmts : List Stmt)
    (h : parse tokens = .ok stmts) :
    ∃ body : Body, tokens.takeWhile (fun token => token.kind != .eof) = body.tokens ∧
      body.levels ≤ 128 ∧ stmts = body.stmts := by
  obtain ⟨body, hlevels, htokens, hstmts⟩ := body_of_findings (findings_of_parse h)
  exact ⟨body, htokens, hlevels, hstmts⟩

/-- The tokens of `if (a) if (b) print a; else print b;`, an end token, and one more. -/
def danglingElseTokens : List Token :=
  danglingElse.tokens ++ [.endOf 1, ⟨.symbol .rightParen, ")", none, 1⟩]

theorem written_of_parse_danglingElse :
    parse danglingElseTokens = .ok danglingElse.stmts ∧
      ∃ body : Body,
        danglingElseTokens.takeWhile (fun token => token.kind != .eof) = body.tokens ∧
          body.levels ≤ 128 ∧ danglingElse.stmts = body.stmts :=
  ⟨rfl, written_of_parse danglingElseTokens danglingElse.stmts rfl⟩

end Lox.Derivation
