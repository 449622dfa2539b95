import Lox.Proofs.Parsing.Accepted

/-!
# How deep the trees of a program are

The levels of nesting bound every path into the tree of a program as far as it leads through
parentheses, signs, assigned values, right operands and statements.  They do not bound the steps
into left operands: operators of one precedence are read in a loop, which puts the operand before
the last operator one step further down with each round.  So a flat sum is as deep as it is long.

* `Expr.depth` and `Stmt.depth`: the length of the longest path into a tree, where it is left open
  what a step into a left operand counts;
* `Expr.height` and `Stmt.height`: the same where every step counts one, which is how deep a walk
  over the tree recurs;
* `depth_phrase` and `depth_body`: the depth of what a derivation tree stands for;
* `depth_le_of_parse`: the depth of what a program stands for, told by its levels of nesting and by
  its operators;
* `height_unbounded`: no number bounds the height for all programs.
-/

namespace Lox

open Grammar

/-! ### Depth of a tree -/

/-- How many nodes the longest path into an expression has, where a step into the left operand of
an operator adds the given number and each other step adds one. -/
def Expr.depth (leftStep : Nat) : Expr → Nat
  | .assign _ value => value.depth leftStep + 1
  | .binary _ left right => max (left.depth leftStep + leftStep) (right.depth leftStep + 1)
  | .grouping inner => inner.depth leftStep + 1
  | .literal _ => 1
  | .logical _ left right => max (left.depth leftStep + leftStep) (right.depth leftStep + 1)
  | .unary _ operand => operand.depth leftStep + 1
  | .variable _ => 1

mutual

/-- The same for a statement together with the expressions in it. -/
def Stmt.depth (leftStep : Nat) : Stmt → Nat
  | .block body => depthAll leftStep body + 1
  | .expression expr => expr.depth leftStep + 1
  | .if condition thenBranch none =>
    max (condition.depth leftStep) (thenBranch.depth leftStep) + 1
  | .if condition thenBranch (some elseBranch) =>
    max (condition.depth leftStep)
      (max (thenBranch.depth leftStep) (elseBranch.depth leftStep)) + 1
  | .print expr => expr.depth leftStep + 1
  | .var _ none => 1
  | .var _ (some value) => value.depth leftStep + 1
  | .while condition body => max (condition.depth leftStep) (body.depth leftStep) + 1

/-- The depth of the deepest of several statements. -/
def depthAll (leftStep : Nat) : List Stmt → Nat
  | [] => 0
  | statement :: rest => max (statement.depth leftStep) (depthAll leftStep rest)

end

/-- How many nodes the longest path into an expression has. -/
def Expr.height (expr : Expr) : Nat := expr.depth 1

/-- How many nodes the longest path into a statement has, expressions included. -/
def Stmt.height (stmt : Stmt) : Nat := stmt.depth 1

theorem depth_le_depthAll {leftStep : Nat} {statement : Stmt} {list : List Stmt}
    (h : statement ∈ list) : statement.depth leftStep ≤ depthAll leftStep list := by
  induction list with
  | nil => cases h
  | cons first rest ih =>
    rw [depthAll]
    rcases List.mem_cons.1 h with rfl | h
    · exact Nat.le_max_left _ _
    · exact Nat.le_trans (ih h) (Nat.le_max_right _ _)

theorem depth_withStep {leftStep bound : Nat} {body : Stmt} (hbody : body.depth leftStep ≤ bound)
    {step : Option Expr} (hstep : ∀ expr ∈ step, expr.depth leftStep < bound) :
    (body.withStep step).depth leftStep ≤ bound + 1 := by
  cases step with
  | none => exact Nat.le_succ_of_le hbody
  | some step =>
    have := hstep step rfl
    simp only [Stmt.withStep, Stmt.depth, depthAll]
    omega

/-- A loop is at most three nodes deeper than its body. -/
theorem depth_forLoop {leftStep bound : Nat} {body : Stmt} (hbody : body.depth leftStep ≤ bound)
    {start : Option Stmt} (hstart : ∀ first ∈ start, first.depth leftStep ≤ bound + 2)
    {condition : Option Expr} (hcondition : ∀ expr ∈ condition, expr.depth leftStep ≤ bound + 1)
    {step : Option Expr} (hstep : ∀ expr ∈ step, expr.depth leftStep < bound) :
    (Stmt.forLoop start condition step body).depth leftStep ≤ bound + 3 := by
  have hwhole := depth_withStep hbody hstep
  have hcondition : (condition.getD (.literal (.bool true))).depth leftStep ≤ bound + 1 := by
    cases condition with
    | none => exact Nat.le_add_left _ _
    | some expr => exact hcondition expr rfl
  cases start with
  | none =>
    simp only [Stmt.forLoop, Stmt.depth]
    omega
  | some first =>
    have := hstart first rfl
    simp only [Stmt.forLoop, Stmt.depth, depthAll]
    omega

/-! ### Depth by levels and operators -/

namespace Derivation

/-- How much deeper than one level of nesting a phrase of a rule can be without another level. -/
def Rule.slack : Rule → Nat
  | .expression => 7
  | .operation .or => 7
  | .operation .and => 6
  | .operation .equality => 5
  | .operation .comparison => 4
  | .operation .term => 3
  | .operation .factor => 2
  | .unary => 1
  | .primary => 1

theorem Rule.slack_tighter (precedence : Precedence) :
    precedence.tighter.slack + 1 = (Rule.operation precedence).slack := by
  cases precedence <;> rfl

/-- Whether a token is of a kind that stands between two operands. -/
def isOperator (token : Token) : Bool :=
  (Precedence.or.onward.flatMap Precedence.operators).contains token.kind

theorem isOperator_of_mem {precedence : Precedence} {token : Token}
    (h : token.kind ∈ precedence.operators) : isOperator token = true := by
  have hall : precedence.operators ⊆ Precedence.or.onward.flatMap Precedence.operators := by
    cases precedence <;> decide
  exact List.contains_iff_mem.2 (hall h)

/-- What a token can add to a depth. -/
def share (leftStep : Nat) (token : Token) : Nat := if isOperator token then leftStep else 0

/-- What the operators among some tokens can add to a depth. -/
def toll (leftStep : Nat) (tokens : List Token) : Nat := leftStep * tokens.countP isOperator

theorem toll_append (leftStep : Nat) (before after : List Token) :
    toll leftStep (before ++ after) = toll leftStep before + toll leftStep after := by
  rw [toll, List.countP_append, Nat.mul_add]
  rfl

theorem toll_cons (leftStep : Nat) (token : Token) (rest : List Token) :
    toll leftStep (token :: rest) = share leftStep token + toll leftStep rest := by
  rw [toll, List.countP_cons, Nat.mul_add, Nat.add_comm, share]
  split <;> simp [toll]

theorem share_operator (leftStep : Nat) {precedence : Precedence}
    (operator : OneOf precedence.operators) : share leftStep operator.val = leftStep :=
  if_pos (isOperator_of_mem operator.property)

theorem depth_build (precedence : Precedence) (leftStep : Nat) (operator : Token)
    (left right : Expr) :
    (precedence.build operator left right).depth leftStep =
      max (left.depth leftStep + leftStep) (right.depth leftStep + 1) := by
  cases precedence <;> rfl

/-- **Expressions.**  A phrase is no deeper than its levels of nesting allow, left operands apart,
and each operator lets one left operand be a step further down. -/
theorem depth_phrase {rule : Rule} (phrase : Phrase rule) (leftStep : Nat) :
    phrase.expr.depth leftStep ≤ rule.slack + 7 * phrase.levels + toll leftStep phrase.tokens := by
  induction phrase with
  | assignment name equals value ih =>
    simp only [Phrase.expr, Phrase.levels, Phrase.tokens, Expr.depth, Rule.slack, toll_cons]
      at ih ⊢
    omega
  | operation _ ih => exact ih
  | @single precedence operand ih =>
    have := Rule.slack_tighter precedence
    simp only [Phrase.expr, Phrase.levels, Phrase.tokens]
    omega
  | @join precedence left operator right ihl ihr =>
    have hslack := Rule.slack_tighter precedence
    have hoperator := share_operator leftStep operator
    simp only [Phrase.expr, Phrase.levels, Phrase.tokens, depth_build, toll_append, toll_cons]
    omega
  | signed sign operand ih =>
    simp only [Phrase.expr, Phrase.levels, Phrase.tokens, Expr.depth, Rule.slack, toll_cons]
      at ih ⊢
    omega
  | unsigned _ ih => exact ih
  | literal _ | identifier _ =>
    exact Nat.le_trans (Nat.le_add_right 1 _) (Nat.le_add_right _ _)
  | group opening inner closing ih =>
    simp only [Phrase.expr, Phrase.levels, Phrase.tokens, Expr.depth, Rule.slack,
      List.cons_append, toll_append, toll_cons] at ih ⊢
    omega

theorem depth_varDeclaration (declaration : VarDeclaration) (leftStep : Nat) :
    declaration.stmt.depth leftStep ≤
      8 + 7 * declaration.levels + toll leftStep declaration.tokens := by
  cases declaration with
  | plain _ _ _ =>
    simp only [VarDeclaration.stmt, Stmt.depth]
    omega
  | valued var name equals value semicolon =>
    have hvalue := depth_phrase value leftStep
    simp only [VarDeclaration.stmt, VarDeclaration.levels, VarDeclaration.tokens, Stmt.depth,
      Rule.slack, List.cons_append, toll_append, toll_cons] at hvalue ⊢
    omega

theorem depth_startClause {start : StartClause} {first : Stmt} (h : first ∈ start.stmt?)
    (leftStep : Nat) :
    first.depth leftStep ≤ 8 + 7 * start.levels + toll leftStep start.tokens := by
  cases start with
  | absent _ => cases h
  | var declaration =>
    cases h
    exact depth_varDeclaration declaration leftStep
  | expression expr semicolon =>
    cases h
    have hexpr := depth_phrase expr leftStep
    simp only [StartClause.levels, StartClause.tokens, Stmt.depth, Rule.slack, toll_append]
      at hexpr ⊢
    omega

theorem depth_clause {clause : Clause} {expr : Expr} (h : expr ∈ Clause.expr? clause)
    (leftStep : Nat) :
    expr.depth leftStep ≤ 7 + 7 * Clause.levels clause + toll leftStep (Clause.tokens clause) := by
  cases clause with
  | none => cases h
  | some phrase =>
    cases h
    exact depth_phrase phrase leftStep

mutual

/-- **Statements.**  A statement is a level of nesting, and a loop with three clauses makes the
deepest tree out of one. -/
theorem depth_statement : ∀ {takesElse : Bool} (statement : Statement takesElse) (leftStep : Nat),
    statement.stmt.depth leftStep ≤
      4 + 7 * statement.levels + toll leftStep statement.tokens
  | _, .expression expr semicolon, leftStep => by
    have hexpr := depth_phrase expr leftStep
    simp only [Statement.stmt, Statement.levels, Statement.tokens, Stmt.depth, Rule.slack,
      toll_append] at hexpr ⊢
    omega
  | _, .print word expr semicolon, leftStep => by
    have hexpr := depth_phrase expr leftStep
    simp only [Statement.stmt, Statement.levels, Statement.tokens, Stmt.depth, Rule.slack,
      List.cons_append, toll_append, toll_cons] at hexpr ⊢
    omega
  | _, .block opening body closing, leftStep => by
    have hbody := depth_body body leftStep
    simp only [Statement.stmt, Statement.levels, Statement.tokens, Stmt.depth, List.cons_append,
      toll_append, toll_cons]
    omega
  | _, .loop word opening condition closing body, leftStep => by
    have hcondition := depth_phrase condition leftStep
    have hbody := depth_statement body leftStep
    simp only [Statement.stmt, Statement.levels, Statement.tokens, Stmt.depth, Rule.slack,
      List.cons_append, toll_append, toll_cons] at hcondition ⊢
    omega
  | _, .ifThen word opening condition closing thenBranch, leftStep => by
    have hcondition := depth_phrase condition leftStep
    have hthen := depth_statement thenBranch leftStep
    simp only [Statement.stmt, Statement.levels, Statement.tokens, Stmt.depth, Rule.slack,
      List.cons_append, toll_append, toll_cons] at hcondition ⊢
    omega
  | _, .ifElse word opening condition closing thenBranch otherwise elseBranch, leftStep => by
    have hcondition := depth_phrase condition leftStep
    have hthen := depth_statement thenBranch leftStep
    have helse := depth_statement elseBranch leftStep
    simp only [Statement.stmt, Statement.levels, Statement.tokens, Stmt.depth, Rule.slack,
      List.cons_append, toll_append, toll_cons] at hcondition ⊢
    omega
  | _, .forLoop word opening start condition semicolon step closing body, leftStep => by
    have hbody := depth_statement body leftStep
    let levels := max start.levels (max (Clause.levels condition)
      (max (Clause.levels step) body.levels))
    let tokens := toll leftStep start.tokens + toll leftStep (Clause.tokens condition) +
      toll leftStep (Clause.tokens step) + toll leftStep body.tokens
    have hloop : (Stmt.forLoop start.stmt? (Clause.expr? condition) (Clause.expr? step)
        body.stmt).depth leftStep ≤ (8 + 7 * levels + tokens) + 3 := by
      refine depth_forLoop (by omega) (fun first h => ?_) (fun expr h => ?_) (fun expr h => ?_)
      · have := depth_startClause h leftStep
        omega
      · have := depth_clause h leftStep
        omega
      · have := depth_clause h leftStep
        omega
    rw [stmt_forLoop]
    simp only [Statement.levels, Statement.tokens, List.cons_append, toll_append, toll_cons]
    omega

theorem depth_declaration : ∀ (declaration : Declaration) (leftStep : Nat),
    declaration.stmt.depth leftStep ≤
      8 + 7 * declaration.levels + toll leftStep declaration.tokens
  | .var declaration, leftStep => depth_varDeclaration declaration leftStep
  | .statement statement, leftStep =>
    Nat.le_trans (depth_statement statement leftStep) (by
      simp only [Declaration.levels, Declaration.tokens]
      omega)

/-- **Declarations.** -/
theorem depth_body : ∀ (body : Body) (leftStep : Nat),
    depthAll leftStep body.stmts ≤ 8 + 7 * body.levels + toll leftStep body.tokens
  | .nil, _ => Nat.zero_le _
  | .cons first rest, leftStep => by
    have hfirst := depth_declaration first leftStep
    have hrest := depth_body rest leftStep
    simp only [Body.stmts, Body.levels, Body.tokens, depthAll, toll_append]
    omega

end

/-! ### Depth of programs -/

/-- **How deep a program is.**  Steps into left operands apart, no path into the tree of a statement
of an accepted program is longer than 904 nodes; with them, the operators of the program bound how
much longer it can be. -/
theorem depth_le_of_parse (tokens : List Token) (stmts : List Stmt) (h : parse tokens = .ok stmts) :
    ∀ stmt ∈ stmts, stmt.depth 0 ≤ 904 ∧
      stmt.height ≤ 904 + (tokens.takeWhile fun token => token.kind != .eof).countP isOperator := by
  obtain ⟨body, hlevels, htokens, rfl⟩ := body_of_findings (findings_of_parse h)
  have hdepth (leftStep : Nat) (stmt : Stmt) (hstmt : stmt ∈ body.stmts) :
      stmt.depth leftStep ≤ 904 + toll leftStep body.tokens := by
    have := Nat.le_trans (depth_le_depthAll hstmt) (depth_body body leftStep)
    have : maxNesting = 128 := rfl
    omega
  intro stmt hstmt
  constructor
  · simpa [toll] using hdepth 0 stmt hstmt
  · have hheight := hdepth 1 stmt hstmt
    rwa [toll, Nat.one_mul, ← htokens] at hheight

/-! ### Flat sums -/

/-- The number one. -/
def one : Phrase .unary :=
  .unsigned (.literal ⟨⟨.number, "1", some (.number (Lox.number ['1'])), 1⟩, by decide⟩)

/-- A one to which so many more are added, one after the other. -/
def sumOfOnes : Nat → Phrase (.operation .term)
  | 0 => .single (.single one)
  | more + 1 =>
    .join (sumOfOnes more) ⟨⟨.symbol .plus, "+", none, 1⟩, by decide⟩ (.single one)

theorem levels_sumOfOnes (more : Nat) : (sumOfOnes more).levels = 0 := by
  induction more with
  | zero => rfl
  | succ more ih =>
    show max (sumOfOnes more).levels 0 = 0
    rw [ih]
    rfl

theorem height_sumOfOnes (more : Nat) : (sumOfOnes more).expr.height = more + 1 := by
  induction more with
  | zero => rfl
  | succ more ih =>
    show max ((sumOfOnes more).expr.height + 1) (1 + 1) = more + 1 + 1
    rw [ih]
    omega

/-- The program that is such a sum with its semicolon. -/
def sumProgram (more : Nat) : Body :=
  .cons (.statement (.expression
    (.operation (.single (.single (.single (.single (sumOfOnes more))))))
    ⟨⟨.symbol .semicolon, ";", none, 1⟩, rfl⟩)) .nil

theorem parse_sumProgram (more : Nat) :
    parse (sumProgram more).tokens = .ok [.expression (sumOfOnes more).expr] := by
  have hlevels : (sumProgram more).levels = 1 := by
    show max ((sumOfOnes more).levels + 1) 0 = 1
    rw [levels_sumOfOnes]
    rfl
  have hbefore : beforeEnd ((sumProgram more).tokens ++ []) = (sumProgram more).tokens :=
    beforeEnd_append (sumProgram more) rfl
  rw [List.append_nil] at hbefore
  refine parse_of_le hbefore ?_
  rw [hlevels]
  decide

theorem height_sumStatement (more : Nat) :
    (Stmt.expression (sumOfOnes more).expr).height = more + 2 :=
  congrArg (· + 1) (height_sumOfOnes more)

/-- **The levels of nesting do not bound the height.**  For every number there is an accepted
program, a flat sum without any nesting, whose tree is higher. -/
theorem height_unbounded :
    ¬ ∃ bound, ∀ tokens stmts, parse tokens = .ok stmts → ∀ stmt ∈ stmts, stmt.height ≤ bound := by
  rintro ⟨bound, h⟩
  have hsum := h _ _ (parse_sumProgram bound) _ List.mem_cons_self
  rw [height_sumStatement] at hsum
  omega

/-- A sum with 2000 operators is accepted.  Its tree is 2002 nodes high, and no deeper than it may
be if left operands are left out. -/
theorem depth_le_of_parse_sum :
    parse (sumProgram 2000).tokens = .ok [.expression (sumOfOnes 2000).expr] ∧
      (Stmt.expression (sumOfOnes 2000).expr).height = 2002 ∧
      (Stmt.expression (sumOfOnes 2000).expr).depth 0 ≤ 904 :=
  ⟨parse_sumProgram 2000, height_sumStatement 2000,
    (depth_le_of_parse _ _ (parse_sumProgram 2000) _ List.mem_cons_self).1⟩

end Derivation

end Lox
