import Lox.Proofs.Loops.Spaced

/-!
# Loops run directly

There is no tree for a `for` loop: it stands for a block with a `while` loop, and the body of that
loop is one more block when there is a step.  Here a loop is run as one would explain it, with one
scope for its first clause and none for its rounds, and this is what its tree does.

* `runDirectly`: a loop run directly;
* `execute_forLoop`: the tree of a loop does the same;
* `ForLoop` and `Body.forLoops`: the loops of a program, at any depth, of which there is one for
  each word `for` (`Body.words_forLoops`);
* `forLoops_run_directly`: the main result.
-/

namespace Lox

/-! ### Running a loop directly -/

/-- The truth of a condition.  One that is absent holds always. -/
def holdsOrAbsent : Option Expr → Execution Bool
  | none => return true
  | some condition => holds condition

/-- The step behind a round, if there is one. -/
def takeStep : Option Expr → Execution Unit
  | none => return
  | some step => do
    let _ ← evaluating (evaluate step)

/-- The rounds of a loop, as many as are left: the condition, the body, and the step. -/
def runRounds (rounds : Nat) (condition step : Option Expr) (body : Stmt) : Nat → Execution Unit
  | 0 => fun _ => none
  | left + 1 => do
    if ← holdsOrAbsent condition then
      execute rounds body
      takeStep step
      runRounds rounds condition step body left

/-- A loop run directly.  If it has a first clause, this is run first and has a scope, in which the
rounds take place, and which is closed whether they fail or not. -/
def runDirectly (rounds : Nat) (start : Option Stmt) (condition step : Option Expr) (body : Stmt) :
    Execution Unit :=
  match start with
  | none => runRounds rounds condition step body rounds
  | some first => inScope do
    execute rounds first
    runRounds rounds condition step body rounds

/-- The round takes place in the scope of the first clause, and nothing is left of that scope. -/
example :
    runDirectly 2 (some (.var ⟨.identifier, "a", none, 1⟩ (some (.literal (.bool true)))))
        (some (.variable ⟨.identifier, "a", none, 1⟩))
        (some (.assign ⟨.identifier, "a", none, 1⟩ (.literal (.bool false))))
        (.print (.variable ⟨.identifier, "a", none, 1⟩)) {} =
      some (.ok (), { out := { written := "true\n".toUTF8 } }) := rfl

/-! ### What the tree does -/

theorem holds_getD (condition : Option Expr) :
    holds (condition.getD (.literal (.bool true))) = holdsOrAbsent condition := by
  cases condition <;> rfl

/-- **The block around body and step is not seen**, since a body is no declaration. -/
theorem execute_withStep (rounds : Nat) {body : Stmt} (hbody : body.declares = [] ∧ body.Placed)
    (step : Option Expr) :
    execute rounds (body.withStep step) =
      (do execute rounds body; takeStep step : Execution Unit) := by
  cases step with
  | none => exact (bind_pure (execute rounds body)).symm
  | some step =>
    have hstep : executeAll rounds [body, .expression step] =
        (do execute rounds body; takeStep (some step) : Execution Unit) := by
      simp only [executeAll, execute, takeStep, bind_assoc, pure_bind]
    have same : Relates (Spaced 0) (executeAll rounds [body, .expression step])
        (executeAll rounds [body, .expression step]) (fun _ _ => Spaced 0)
        (Failing Eq (Spaced 0)) := by
      refine relates_bind (spaced_execute rounds body hbody.1 hbody.2) fun _ _ => ?_
      refine relates_bind (spaced_execute rounds (.expression step) rfl trivial) fun _ _ => ?_
      exact relates_pure fun _ _ after => after
    show execute rounds (.block [body, .expression step]) = _
    rw [execute, inScope_of_spaced same, hstep]

theorem execute_while_rounds (rounds : Nat) {body : Stmt}
    (hbody : body.declares = [] ∧ body.Placed) (condition step : Option Expr) (left : Nat) :
    loop (fun _ => none) (holds (condition.getD (.literal (.bool true))))
        (execute rounds (body.withStep step)) left =
      runRounds rounds condition step body left := by
  induction left with
  | zero => rfl
  | succ left ih =>
    rw [loop, runRounds, ih, holds_getD, execute_withStep rounds hbody]
    simp only [bind_assoc]

/-- **The tree of a loop does what the loop does when it is run directly**, if its body is no
declaration. -/
theorem execute_forLoop (rounds : Nat) {body : Stmt} (hbody : body.declares = [] ∧ body.Placed)
    (start : Option Stmt) (condition step : Option Expr) :
    execute rounds (Stmt.forLoop start condition step body) =
      runDirectly rounds start condition step body := by
  have hloop :
      execute rounds (.while (condition.getD (.literal (.bool true))) (body.withStep step)) =
        runRounds rounds condition step body rounds := by
    rw [execute, iterate_eq_loop, execute_while_rounds rounds hbody]
  cases start with
  | none => exact hloop
  | some first =>
    show execute rounds (.block [first, .while _ _]) = _
    rw [execute, executeAll, executeAll, executeAll, hloop, bind_pure]
    rfl

/-! ### The loops of a program -/

namespace Derivation

/-- A `for` loop as it is written. -/
structure ForLoop where
  {takesElse : Bool}
  word : Word (.keyword .for)
  opening : Word (.symbol .leftParen)
  start : StartClause
  condition : Clause
  semicolon : Word (.symbol .semicolon)
  step : Clause
  closing : Word (.symbol .rightParen)
  body : Statement takesElse

namespace ForLoop

/-- A loop as a statement. -/
def statement (loop : ForLoop) : Statement loop.takesElse :=
  .forLoop loop.word loop.opening loop.start loop.condition loop.semicolon loop.step loop.closing
    loop.body

theorem execute_statement (rounds : Nat) (loop : ForLoop) :
    execute rounds loop.statement.stmt =
      runDirectly rounds loop.start.stmt? (Clause.expr? loop.condition) (Clause.expr? loop.step)
        loop.body.stmt := by
  rw [statement, stmt_forLoop, execute_forLoop rounds loop.body.placed]

end ForLoop

mutual

/-- The loops in a statement, in order, an outer one before those in its body. -/
def Statement.forLoops : {takesElse : Bool} → Statement takesElse → List ForLoop
  | _, .expression _ _ => []
  | _, .print _ _ _ => []
  | _, .block _ body _ => body.forLoops
  | _, .loop _ _ _ _ body => body.forLoops
  | _, .ifThen _ _ _ _ thenBranch => thenBranch.forLoops
  | _, .ifElse _ _ _ _ thenBranch _ elseBranch => thenBranch.forLoops ++ elseBranch.forLoops
  | _, .forLoop word opening start condition semicolon step closing body =>
    ⟨word, opening, start, condition, semicolon, step, closing, body⟩ :: body.forLoops

/-- The loops in a declaration. -/
def Declaration.forLoops : Declaration → List ForLoop
  | .var _ => []
  | .statement statement => statement.forLoops

/-- The loops in several declarations. -/
def Body.forLoops : Body → List ForLoop
  | .nil => []
  | .cons first rest => first.forLoops ++ rest.forLoops

end

/-- The words `for` among some tokens. -/
def forWords (tokens : List Token) : List Token :=
  tokens.filter fun token => token.kind == .keyword .for

@[simp] theorem forWords_nil : forWords [] = [] := rfl

@[simp] theorem forWords_append (tokens more : List Token) :
    forWords (tokens ++ more) = forWords tokens ++ forWords more :=
  List.filter_append ..

@[simp] theorem forWords_cons_for (word : Word (.keyword .for)) (tokens : List Token) :
    forWords (word.val :: tokens) = word.val :: forWords tokens :=
  List.filter_cons_of_pos (by simp [word.property])

theorem forWords_cons {kind : TokenKind} (word : Word kind) (hkind : kind ≠ .keyword .for)
    (tokens : List Token) : forWords (word.val :: tokens) = forWords tokens :=
  List.filter_cons_of_neg (by simp [word.property, hkind])

@[simp] theorem forWords_phrase {rule : Rule} (phrase : Phrase rule) :
    forWords phrase.tokens = [] := by
  refine List.filter_eq_nil_iff.2 fun token htoken => ?_
  have hkind : token.kind ≠ .keyword .for :=
    ne_of_mem_of_not_mem (phrase.kind_mem token htoken) (by decide)
  simpa using hkind

@[simp] theorem forWords_varDeclaration (declaration : VarDeclaration) :
    forWords declaration.tokens = [] := by
  cases declaration with
  | plain var name semicolon =>
    rw [VarDeclaration.tokens, forWords_cons var (by decide), forWords_cons name (by decide),
      forWords_cons semicolon (by decide)]
    rfl
  | valued var name equals value semicolon =>
    rw [VarDeclaration.tokens, List.cons_append, forWords_cons var (by decide), List.cons_append,
      forWords_cons name (by decide), List.cons_append, forWords_cons equals (by decide),
      forWords_append, forWords_phrase, forWords_cons semicolon (by decide)]
    rfl

@[simp] theorem forWords_startClause (start : StartClause) : forWords start.tokens = [] := by
  cases start with
  | absent semicolon => exact forWords_cons semicolon (by decide) []
  | var declaration => exact forWords_varDeclaration declaration
  | expression expr semicolon =>
    rw [StartClause.tokens, forWords_append, forWords_phrase, forWords_cons semicolon (by decide)]
    rfl

@[simp] theorem forWords_clause (clause : Clause) : forWords (Clause.tokens clause) = [] := by
  cases clause with
  | none => rfl
  | some expr => exact forWords_phrase expr

mutual

theorem Statement.words_forLoops : ∀ {takesElse : Bool} (statement : Statement takesElse),
    statement.forLoops.map (fun loop => loop.word.val) = forWords statement.tokens
  | _, .expression expr semicolon => by
    simp [Statement.forLoops, Statement.tokens, forWords_cons semicolon]
  | _, .print word expr semicolon => by
    simp [Statement.forLoops, Statement.tokens, forWords_cons word, forWords_cons semicolon]
  | _, .block opening body closing => by
    simp [Statement.forLoops, Statement.tokens, forWords_cons opening, forWords_cons closing,
      Body.words_forLoops body]
  | _, .loop word opening condition closing body => by
    simp [Statement.forLoops, Statement.tokens, forWords_cons word, forWords_cons opening,
      forWords_cons closing, Statement.words_forLoops body]
  | _, .ifThen word opening condition closing thenBranch => by
    simp [Statement.forLoops, Statement.tokens, forWords_cons word, forWords_cons opening,
      forWords_cons closing, Statement.words_forLoops thenBranch]
  | _, .ifElse word opening condition closing thenBranch otherwise elseBranch => by
    simp [Statement.forLoops, Statement.tokens, forWords_cons word, forWords_cons opening,
      forWords_cons closing, forWords_cons otherwise, Statement.words_forLoops thenBranch,
      Statement.words_forLoops elseBranch]
  | _, .forLoop word opening start condition semicolon step closing body => by
    simp [Statement.forLoops, Statement.tokens, forWords_cons opening, forWords_cons semicolon,
      forWords_cons closing, Statement.words_forLoops body]

theorem Declaration.words_forLoops : ∀ (declaration : Declaration),
    declaration.forLoops.map (fun loop => loop.word.val) = forWords declaration.tokens
  | .var declaration => (forWords_varDeclaration declaration).symm
  | .statement statement => Statement.words_forLoops statement

/-- There is one loop for each word `for`, in the order of these words. -/
theorem Body.words_forLoops : ∀ (body : Body),
    body.forLoops.map (fun loop => loop.word.val) = forWords body.tokens
  | .nil => rfl
  | .cons first rest => by
    simp [Body.forLoops, Body.tokens, Declaration.words_forLoops first, Body.words_forLoops rest]

end

end Derivation

/-- **A loop means what it means directly.**  The statements of a program that is accepted are those
of derivation trees, in which there is one loop for each word `for` of the program.  The tree of
each of these loops, whichever of its clauses are there and whatever its body is, does on every
machine what the loop does when it is run directly: within the same rounds it comes to an end or
does not, with the same error or none, the same variables and the same output. -/
theorem forLoops_run_directly (tokens : List Token) (statements : List Stmt)
    (accepted : Grammar.parse tokens = .ok statements) :
    ∃ body : Derivation.Body,
      tokens.takeWhile (fun token => token.kind != .eof) = body.tokens ∧ statements = body.stmts ∧
        body.forLoops.map (fun loop => loop.word.val) =
          body.tokens.filter (fun token => token.kind == .keyword .for) ∧
        ∀ loop ∈ body.forLoops, ∀ (rounds : Nat) (machine : Machine),
          execute rounds loop.statement.stmt machine =
            runDirectly rounds loop.start.stmt? (Derivation.Clause.expr? loop.condition)
              (Derivation.Clause.expr? loop.step) loop.body.stmt machine := by
  obtain ⟨body, _, htokens, hstatements⟩ :=
    Derivation.body_of_findings (Derivation.findings_of_parse accepted)
  refine ⟨body, htokens, hstatements, body.words_forLoops, fun loop _ rounds machine => ?_⟩
  exact congrFun (loop.execute_statement rounds) machine

/-- The tokens of `for (var a = true; a; a = false) print a;`. -/
def flaggedLoopTokens : List Token :=
  [⟨.keyword .for, "for", none, 1⟩, ⟨.symbol .leftParen, "(", none, 1⟩,
    ⟨.keyword .var, "var", none, 1⟩, ⟨.identifier, "a", none, 1⟩, ⟨.symbol .equal, "=", none, 1⟩,
    ⟨.keyword .true, "true", none, 1⟩, ⟨.symbol .semicolon, ";", none, 1⟩,
    ⟨.identifier, "a", none, 1⟩, ⟨.symbol .semicolon, ";", none, 1⟩,
    ⟨.identifier, "a", none, 1⟩, ⟨.symbol .equal, "=", none, 1⟩,
    ⟨.keyword .false, "false", none, 1⟩, ⟨.symbol .rightParen, ")", none, 1⟩,
    ⟨.keyword .print, "print", none, 1⟩, ⟨.identifier, "a", none, 1⟩,
    ⟨.symbol .semicolon, ";", none, 1⟩]

/-- The tree of that loop. -/
def flaggedLoop : Stmt :=
  Stmt.forLoop (some (.var ⟨.identifier, "a", none, 1⟩ (some (.literal (.bool true)))))
    (some (.variable ⟨.identifier, "a", none, 1⟩))
    (some (.assign ⟨.identifier, "a", none, 1⟩ (.literal (.bool false))))
    (.print (.variable ⟨.identifier, "a", none, 1⟩))

theorem forLoops_run_directly_flagged :
    Grammar.parse flaggedLoopTokens = .ok [flaggedLoop] ∧
      ∃ body : Derivation.Body, [flaggedLoop] = body.stmts ∧
        ∃ loop ∈ body.forLoops, loop.word.val = ⟨.keyword .for, "for", none, 1⟩ ∧
          ∀ (rounds : Nat) (machine : Machine),
            execute rounds loop.statement.stmt machine =
              runDirectly rounds loop.start.stmt? (Derivation.Clause.expr? loop.condition)
                (Derivation.Clause.expr? loop.step) loop.body.stmt machine := by
  have accepted : Grammar.parse flaggedLoopTokens = .ok [flaggedLoop] := rfl
  refine ⟨accepted, ?_⟩
  obtain ⟨body, htokens, hstatements, hwords, direct⟩ :=
    forLoops_run_directly flaggedLoopTokens [flaggedLoop] accepted
  rw [← htokens] at hwords
  have hword : (⟨.keyword .for, "for", none, 1⟩ : Token) ∈
      body.forLoops.map fun loop => loop.word.val := by
    rw [hwords]
    exact List.mem_cons_self
  obtain ⟨loop, hloop, hword⟩ := List.mem_map.1 hword
  exact ⟨body, hstatements, loop, hloop, hword, direct loop hloop⟩

end Lox
