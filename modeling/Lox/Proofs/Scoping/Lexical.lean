import Lox.Proofs.Parsing.Accepted
import Lox.Proofs.Scoping.Agreement

/-!
# Scoping is lexical

A program that searches for its variables and one whose names are resolved beforehand are run side
by side.  What carries through each step is that the frames are those of the blocks that are open,
and that all accesses so far were to the frame that the text tells.

* `Stmt.Placed`: no branch and no loop body is itself a declaration, as the grammar has it
  (`Body.placed`), so that a block knows from its own list what it has declared;
* `Follows`: what holds of a watched machine and another one between two steps;
* `follows_execute`: a watched statement side by side with one that is run on a machine;
* `scoping_is_lexical`: the main result.
-/

namespace Lox

/-! ### Branches and bodies -/

mutual

/-- No branch and no loop body in the statement is itself a declaration. -/
def Stmt.Placed : Stmt → Prop
  | .block body => AllPlaced body
  | .if _ thenBranch none => thenBranch.declares = [] ∧ thenBranch.Placed
  | .if _ thenBranch (some elseBranch) =>
    (thenBranch.declares = [] ∧ thenBranch.Placed) ∧
      elseBranch.declares = [] ∧ elseBranch.Placed
  | .while _ body => body.declares = [] ∧ body.Placed
  | _ => True

/-- The same for each of several statements. -/
def AllPlaced : List Stmt → Prop
  | [] => True
  | statement :: rest => statement.Placed ∧ AllPlaced rest

end

theorem placed_withStep {body : Stmt} (h : body.declares = [] ∧ body.Placed) (step : Option Expr) :
    (body.withStep step).declares = [] ∧ (body.withStep step).Placed := by
  cases step with
  | none => exact h
  | some step => exact ⟨rfl, h.2, trivial, trivial⟩

theorem placed_forLoop {start : Option Stmt} {body : Stmt} (h : body.declares = [] ∧ body.Placed)
    (hstart : ∀ first, start = some first → first.Placed) (condition step : Option Expr) :
    (Stmt.forLoop start condition step body).declares = [] ∧
      (Stmt.forLoop start condition step body).Placed := by
  have hloop := placed_withStep h step
  cases start with
  | none => exact ⟨rfl, hloop⟩
  | some first => exact ⟨rfl, hstart first rfl, hloop, trivial⟩

namespace Derivation

theorem VarDeclaration.placed (declaration : VarDeclaration) : declaration.stmt.Placed := by
  cases declaration <;> trivial

theorem StartClause.placed {start : StartClause} {stmt : Stmt} (h : start.stmt? = some stmt) :
    stmt.Placed := by
  cases start with
  | absent semicolon => cases h
  | var declaration =>
    cases h
    exact declaration.placed
  | expression expr semicolon =>
    cases h
    trivial

mutual

/-- A statement that was written is no declaration, and declarations stand where they may. -/
theorem Statement.placed : ∀ {takesElse : Bool} (statement : Statement takesElse),
    statement.stmt.declares = [] ∧ statement.stmt.Placed
  | _, .expression _ _ | _, .print _ _ _ => ⟨rfl, trivial⟩
  | _, .block _ body _ => ⟨rfl, body.placed⟩
  | _, .loop _ _ _ _ body => ⟨rfl, body.placed⟩
  | _, .ifThen _ _ _ _ thenBranch => ⟨rfl, thenBranch.placed⟩
  | _, .ifElse _ _ _ _ thenBranch _ elseBranch => ⟨rfl, thenBranch.placed, elseBranch.placed⟩
  | _, .forLoop word opening start condition semicolon step closing body => by
    rw [stmt_forLoop word opening start condition semicolon step closing body]
    exact placed_forLoop body.placed (fun _ h => StartClause.placed h) _ _

theorem Declaration.placed : ∀ (declaration : Declaration), declaration.stmt.Placed
  | .var declaration => declaration.placed
  | .statement statement => statement.placed.2

theorem Body.placed : ∀ (body : Body), AllPlaced body.stmts
  | .nil => trivial
  | .cons first rest => ⟨first.placed, rest.placed⟩

end

end Derivation

/-! ### Side by side -/

/-- A watched machine and another one inside of some blocks: they are the same, their frames are
those of the blocks, and all accesses so far were as the text tells. -/
structure Follows (scopes : Scopes) (watched : Watched) (machine : Machine) : Prop where
  same : watched.machine = machine
  agree : scopes.Agree machine.environment
  lexical : ∀ access ∈ watched.accesses, access.Lexical

/-- The same behind some more statements of the innermost block. -/
def FollowsLater (scopes : Scopes) (watched : Watched) (machine : Machine) : Prop :=
  ∃ names, Follows (scopes.declare names) watched machine

/-- How a watched step and another one fail together. -/
inductive Interrupts (scopes : Scopes) :
    Option (Interruption × Watched) → Option (RuntimeError × Machine) → Prop where
  | failure {e : RuntimeError} {watched : Watched} {machine : Machine}
      (h : FollowsLater scopes watched machine) :
      Interrupts scopes (some (.failure e, watched)) (some (e, machine))
  | exhausted {watched : Watched} {machine : Machine} (h : FollowsLater scopes watched machine) :
      Interrupts scopes (some (.exhausted, watched)) none

theorem Follows.later {scopes : Scopes} {watched : Watched} {machine : Machine}
    (h : Follows scopes watched machine) : FollowsLater scopes watched machine :=
  ⟨[], by rw [Scopes.declare_nil]; exact h⟩

theorem lexical_noting {scopes : Scopes} {environment : Environment} {accesses : List Access}
    (agree : scopes.Agree environment) (name : Token)
    (lexical : ∀ access ∈ accesses, access.Lexical) :
    ∀ access ∈ ⟨name, scopes.binding name.lexeme, environment⟩ :: accesses,
      Access.Lexical access := by
  intro access hmem
  rcases List.mem_cons.1 hmem with rfl | hmem
  · exact lexical_of_agree agree name
  · exact lexical access hmem

section

variable {look : Binding → Token → Environment → Except RuntimeError Value}
  {give : Binding → Token → Value → Environment → Except RuntimeError Environment}

/-- A way to get at variables that finds what a search finds wherever frames and blocks agree. -/
structure Finds (look : Binding → Token → Environment → Except RuntimeError Value)
    (give : Binding → Token → Value → Environment → Except RuntimeError Environment) : Prop where
  look_eq : ∀ (scopes : Scopes) (environment : Environment) (name : Token),
    scopes.Agree environment →
      look (scopes.binding name.lexeme) name environment = environment.read name
  give_eq : ∀ (scopes : Scopes) (environment : Environment) (name : Token) (value : Value),
    scopes.Agree environment →
      give (scopes.binding name.lexeme) name value environment = environment.assign name value

theorem follows_read (h : Finds look give) (scopes : Scopes) (name : Token) :
    Relates (Follows scopes) (Setting.watching.read name (scopes.binding name.lexeme))
      ((Setting.plain look give).read name (scopes.binding name.lexeme))
      (Equally (Follows scopes)) (Interrupts scopes) := by
  rintro watched machine ⟨rfl, agree, lexical⟩
  have noted := lexical_noting agree name lexical
  have hlook := h.look_eq scopes watched.machine.environment name agree
  show Alike _ _ (some ((watched.machine.environment.read name).mapError _, _))
    (some (look _ name watched.machine.environment, watched.machine))
  rw [hlook]
  cases watched.machine.environment.read name with
  | ok value => exact .done ⟨rfl, rfl, agree, noted⟩
  | error e => exact alike_error (.failure (Follows.later ⟨rfl, agree, noted⟩))

theorem follows_assign (h : Finds look give) (scopes : Scopes) (name : Token) (value : Value) :
    Relates (Follows scopes) (Setting.watching.assign name (scopes.binding name.lexeme) value)
      ((Setting.plain look give).assign name (scopes.binding name.lexeme) value)
      (Equally (Follows scopes)) (Interrupts scopes) := by
  rintro watched machine ⟨rfl, agree, lexical⟩
  have noted := lexical_noting agree name lexical
  have hgive := h.give_eq scopes watched.machine.environment name value agree
  simp only [Setting.watching, Setting.plain, noting, assigning, hgive]
  cases hassign : watched.machine.environment.assign name value with
  | ok after =>
    exact .done ⟨rfl, rfl, Environment.agree_assign agree hassign, noted⟩
  | error e => exact alike_error (.failure (Follows.later ⟨rfl, agree, noted⟩))

theorem follows_answer (scopes : Scopes) (answer : Except RuntimeError Value) :
    Relates (Follows scopes) (Setting.watching.answer answer)
      ((Setting.plain look give).answer answer) (Equally (Follows scopes)) (Interrupts scopes) :=
  relates_settled answer fun _ _ _ h => .failure h.later

theorem follows_evaluate (h : Finds look give) (scopes : Scopes) (expr : Expr) :
    Relates (Follows scopes) (Setting.watching.evaluate (expr.resolve scopes))
      ((Setting.plain look give).evaluate (expr.resolve scopes))
      (Equally (Follows scopes)) (Interrupts scopes) := by
  induction expr with
  | literal value => exact relates_pure fun _ _ before => ⟨rfl, before⟩
  | «variable» name => exact follows_read h scopes name
  | grouping inner ih => exact ih
  | assign name value ih => exact relates_bind_equally ih (follows_assign h scopes name)
  | unary operator operand ih =>
    exact relates_bind_equally ih fun operand => follows_answer scopes _
  | binary operator left right ihl ihr =>
    refine relates_bind_equally ihr fun right => ?_
    exact relates_bind_equally ihl fun left => follows_answer scopes _
  | logical operator left right ihl ihr =>
    refine relates_bind_equally ihl fun left => ?_
    cases decidesEarly operator left with
    | true => exact relates_pure fun _ _ before => ⟨rfl, before⟩
    | false => exact ihr

theorem follows_holds (h : Finds look give) (scopes : Scopes) (condition : Expr) :
    Relates (Follows scopes) (Setting.watching.holds (condition.resolve scopes))
      ((Setting.plain look give).holds (condition.resolve scopes))
      (Equally (Follows scopes)) (Interrupts scopes) :=
  relates_bind_equally (follows_evaluate h scopes condition) fun _ =>
    relates_pure fun _ _ before => ⟨rfl, before⟩

theorem follows_print (scopes : Scopes) (value : Value) :
    Relates (Follows scopes)
      (modify (Setting.watching.change (Machine.printing value)) : Action _ _ Unit)
      (modify ((Setting.plain look give).change (Machine.printing value)) : Action _ _ Unit)
      (fun _ _ => Follows scopes) (Interrupts scopes) := by
  refine relates_modify ?_
  rintro watched machine ⟨rfl, agree, lexical⟩
  exact ⟨rfl, agree, lexical⟩

theorem follows_define (scopes : Scopes) (name : Token) (value : Value) :
    Relates (Follows scopes)
      (modify (Setting.watching.change (Machine.defining name value)) : Action _ _ Unit)
      (modify ((Setting.plain look give).change (Machine.defining name value)) : Action _ _ Unit)
      (fun _ _ => Follows (scopes.declare [name.lexeme])) (Interrupts scopes) := by
  refine relates_modify ?_
  rintro watched machine ⟨rfl, agree, lexical⟩
  exact ⟨rfl, Environment.agree_define agree name.lexeme value, lexical⟩

theorem follows_leave {declared : List String} {outer : Scopes} {watched : Watched}
    {machine : Machine} (h : FollowsLater (declared :: outer) watched machine) :
    Follows outer (Setting.watching.change Machine.leaving watched) machine.leaving := by
  obtain ⟨names, rfl, agree, lexical⟩ := h
  exact ⟨rfl, Environment.agree_pop agree, lexical⟩

theorem follows_block {a : Action Interruption Watched Unit} {b : Action RuntimeError Machine Unit}
    {scopes : Scopes} (h : Relates (Follows ([] :: scopes)) a b
      (fun _ _ => FollowsLater ([] :: scopes)) (Interrupts ([] :: scopes))) :
    Relates (Follows scopes)
      (within (Setting.watching.change Machine.entering)
        (Setting.watching.change Machine.leaving) a)
      (within Machine.entering Machine.leaving b)
      (fun _ _ => Follows scopes) (Interrupts scopes) := by
  refine relates_within h ?_ ?_ ?_
  · rintro watched machine ⟨rfl, agree, lexical⟩
    exact ⟨rfl, Environment.agree_push agree, lexical⟩
  · intro _ _ watched machine after
    exact follows_leave after
  · intro f f' fails
    cases fails with
    | failure after => exact .failure (follows_leave after).later
    | exhausted after => exact .exhausted (follows_leave after).later

theorem follows_stay {a : Action Interruption Watched Unit} {b : Action RuntimeError Machine Unit}
    {scopes : Scopes}
    (h : Relates (Follows scopes) a b (fun _ _ => Follows scopes) (Interrupts scopes)) :
    Relates (Follows scopes) a b (fun _ _ => Follows (scopes.declare [])) (Interrupts scopes) := by
  rw [Scopes.declare_nil]
  exact h

theorem followsLater_of_declare {scopes : Scopes} {names : List String} {watched : Watched}
    {machine : Machine} (h : FollowsLater (scopes.declare names) watched machine) :
    FollowsLater scopes watched machine := by
  obtain ⟨more, h⟩ := h
  rw [Scopes.declare_declare] at h
  exact ⟨_, h⟩

theorem interrupts_of_declare {scopes : Scopes} {names : List String}
    {f : Option (Interruption × Watched)} {f' : Option (RuntimeError × Machine)}
    (h : Interrupts (scopes.declare names) f f') : Interrupts scopes f f' := by
  cases h with
  | failure h => exact .failure (followsLater_of_declare h)
  | exhausted h => exact .exhausted (followsLater_of_declare h)

mutual

/-- **Statements side by side.**  A watched statement and the same one run with any way to get at
variables that finds what a search finds come to the same end, or fail together, and all accesses
are as the text tells.  Behind the statement its block has declared one more name if the statement
is a declaration. -/
theorem follows_execute (h : Finds look give) (rounds : Nat) :
    ∀ (statement : Stmt) (scopes : Scopes), statement.Placed →
      Relates (Follows scopes) (Setting.watching.execute rounds (statement.resolve scopes))
        ((Setting.plain look give).execute rounds (statement.resolve scopes))
        (fun _ _ => Follows (scopes.declare statement.declares)) (Interrupts scopes)
  | .block body, scopes, placed => by
    refine follows_stay ?_
    rw [Stmt.resolve, Setting.execute, Setting.execute]
    exact follows_block (follows_executeAll h rounds body [] scopes placed)
  | .expression expr, scopes, _ => by
    refine follows_stay ?_
    rw [Stmt.resolve, Setting.execute, Setting.execute]
    exact relates_bind_equally (follows_evaluate h scopes expr) fun _ =>
      relates_pure fun _ _ after => after
  | .if condition thenBranch none, scopes, placed => by
    have hthen := follows_execute h rounds thenBranch scopes placed.2
    rw [placed.1, Scopes.declare_nil] at hthen
    refine follows_stay ?_
    rw [Stmt.resolve, Setting.execute, Setting.execute]
    refine relates_bind_equally (follows_holds h scopes condition) fun holds => ?_
    cases holds with
    | true => exact hthen
    | false => exact relates_pure fun _ _ after => after
  | .if condition thenBranch (some elseBranch), scopes, placed => by
    have hthen := follows_execute h rounds thenBranch scopes placed.1.2
    have helse := follows_execute h rounds elseBranch scopes placed.2.2
    rw [placed.1.1, Scopes.declare_nil] at hthen
    rw [placed.2.1, Scopes.declare_nil] at helse
    refine follows_stay ?_
    rw [Stmt.resolve, Setting.execute, Setting.execute]
    refine relates_bind_equally (follows_holds h scopes condition) fun holds => ?_
    cases holds with
    | true => exact hthen
    | false => exact helse
  | .print expr, scopes, _ => by
    refine follows_stay ?_
    rw [Stmt.resolve, Setting.execute, Setting.execute]
    exact relates_bind_equally (follows_evaluate h scopes expr) (follows_print scopes)
  | .var name none, scopes, _ => follows_define scopes name .nil
  | .var name (some value), scopes, _ => by
    rw [Stmt.resolve, Setting.execute, Setting.execute]
    exact relates_bind_equally (follows_evaluate h scopes value) (follows_define scopes name)
  | .while condition body, scopes, placed => by
    have hbody := follows_execute h rounds body scopes placed.2
    rw [placed.1, Scopes.declare_nil] at hbody
    have hexhausted : Relates (Follows scopes) Setting.watching.exhausted
        (Setting.plain look give).exhausted (fun _ _ => Follows scopes) (Interrupts scopes) :=
      fun _ _ before => Alike.failed (Interrupts.exhausted before.later)
    refine follows_stay ?_
    rw [Stmt.resolve, Setting.execute, Setting.execute]
    exact relates_loop hexhausted (follows_holds h scopes condition) hbody rounds

/-- The same of the statements of a block in order. -/
theorem follows_executeAll (h : Finds look give) (rounds : Nat) :
    ∀ (statements : List Stmt) (declared : List String) (outer : Scopes), AllPlaced statements →
      Relates (Follows (declared :: outer))
        (Setting.watching.executeAll rounds (resolveAll declared outer statements))
        ((Setting.plain look give).executeAll rounds (resolveAll declared outer statements))
        (fun _ _ => FollowsLater (declared :: outer)) (Interrupts (declared :: outer))
  | [], declared, outer, _ => relates_pure fun _ _ after => after.later
  | statement :: rest, declared, outer, placed => by
    have hfirst := follows_execute h rounds statement (declared :: outer) placed.1
    have hrest := follows_executeAll h rounds rest (statement.declares ++ declared) outer placed.2
    rw [resolveAll, Setting.executeAll, Setting.executeAll]
    refine relates_bind hfirst fun _ _ => ?_
    exact relates_mono hrest (fun _ _ before => before)
      (fun _ _ _ _ => @followsLater_of_declare (declared :: outer) statement.declares _ _)
      (fun _ _ => @interrupts_of_declare (declared :: outer) statement.declares _ _)

end

/-- A watched program and the same one run with any such way to get at variables. -/
theorem follows_watch (h : Finds look give) (rounds : Nat) (statements : List Stmt)
    (placed : AllPlaced statements) (watched : Watched) (machine : Machine)
    (before : Follows [] watched machine) :
    let run := watch rounds (resolveProgram statements) watched
    (run.1.map fun errors => (errors, run.2.machine)) =
        (Setting.plain look give).interpret rounds (resolveProgram statements) machine ∧
      ∀ access ∈ run.2.accesses, access.Lexical := by
  induction statements generalizing watched machine with
  | nil =>
    obtain ⟨rfl, agree, lexical⟩ := before
    exact ⟨rfl, lexical⟩
  | cons statement rest ih =>
    have ends := follows_execute h rounds statement [] placed.1 watched machine before
    simp only [resolveProgram, List.map_cons, watch, Setting.interpret]
    generalize Setting.watching.execute rounds (statement.resolve []) watched = left,
      (Setting.plain look give).execute rounds (statement.resolve []) machine = right at ends
    cases ends with
    | done after => exact ih placed.2 _ _ after
    | failed fails =>
      cases fails with
      | exhausted after =>
        obtain ⟨names, after⟩ := after
        exact ⟨rfl, after.lexical⟩
      | @failure e watched machine after =>
        obtain ⟨names, after⟩ := after
        obtain ⟨same, lexical⟩ := ih placed.2 _ _ after
        refine ⟨?_, lexical⟩
        show _ = Option.map _ ((Setting.plain look give).interpret rounds (resolveProgram rest) _)
        rw [← same]
        show Option.map _ (Option.map _ _) = _
        rw [Option.map_map, Option.map_map]
        rfl

end

theorem finds_direct :
    Finds (fun binding name environment => environment.readAt binding name)
      (fun binding name value environment => environment.assignAt binding name value) where
  look_eq _ _ name h := Environment.readAt_of_agree h name
  give_eq _ _ name value h := Environment.assignAt_of_agree h name value

theorem finds_searching :
    Finds (fun _ name environment => environment.read name)
      (fun _ name value environment => environment.assign name value) where
  look_eq _ _ _ _ := rfl
  give_eq _ _ _ _ _ := rfl

/-- **Scoping is lexical.**  Let a program that is accepted be run where there are only global
variables.  Watching it changes nothing, and each of its accesses, also of a run that does not come
to its end, is to the frame that the text tells, and fails exactly when that is the global frame and
it does not bind the name.  So the program does the same when its names are resolved beforehand and
nothing is searched: it ends with the same errors, output and variables, or not at all. -/
theorem scoping_is_lexical (rounds : Nat) (tokens : List Token) (statements : List Stmt)
    (machine : Machine) (frame : Frame) (accepted : Grammar.parse tokens = .ok statements)
    (onlyGlobals : machine.environment = .globals frame) :
    let run := watch rounds (resolveProgram statements) ⟨machine, []⟩
    (run.1.map fun errors => (errors, run.2.machine)) = interpret rounds statements machine ∧
      (∀ access ∈ run.2.accesses, access.Lexical) ∧
      Setting.direct.interpret rounds (resolveProgram statements) machine =
        interpret rounds statements machine := by
  obtain ⟨body, _, _, rfl⟩ := Derivation.body_of_findings (Derivation.findings_of_parse accepted)
  have before : Follows [] ⟨machine, []⟩ machine :=
    ⟨rfl, onlyGlobals ▸ .globals frame, by simp⟩
  have searched := follows_watch finds_searching rounds _ body.placed _ _ before
  have direct := follows_watch finds_direct rounds _ body.placed _ _ before
  have same := Setting.interpret_searching rounds body.stmts machine
  exact ⟨searched.1.trans same, searched.2, direct.1.symm.trans (searched.1.trans same)⟩

/-- The tokens of a block in which a name is assigned, declared, and then read:
`a = nil; var a; b = a;`. -/
def shadowingTokens : List Token :=
  [⟨.symbol .leftBrace, "\x7b", none, 1⟩,
    ⟨.identifier, "a", none, 1⟩, ⟨.symbol .equal, "=", none, 1⟩, ⟨.keyword .nil, "nil", none, 1⟩,
    ⟨.symbol .semicolon, ";", none, 1⟩,
    ⟨.keyword .var, "var", none, 2⟩, ⟨.identifier, "a", none, 2⟩,
    ⟨.symbol .semicolon, ";", none, 2⟩,
    ⟨.identifier, "b", none, 3⟩, ⟨.symbol .equal, "=", none, 3⟩, ⟨.identifier, "a", none, 3⟩,
    ⟨.symbol .semicolon, ";", none, 3⟩,
    ⟨.symbol .rightBrace, "\x7d", none, 4⟩]

/-- The tree of that block. -/
def shadowing : List Stmt :=
  [.block
    [.expression (.assign ⟨.identifier, "a", none, 1⟩ (.literal .nil)),
      .var ⟨.identifier, "a", none, 2⟩ none,
      .expression (.assign ⟨.identifier, "b", none, 3⟩ (.variable ⟨.identifier, "a", none, 3⟩))]]

/-- A machine on which that name is a global variable. -/
def oneGlobal : Machine := { environment := .globals [("a", .bool true)] }

theorem scoping_is_lexical_shadowing :
    Grammar.parse shadowingTokens = .ok shadowing ∧
      oneGlobal.environment = .globals [("a", .bool true)] ∧
      let run := watch 1 (resolveProgram shadowing) ⟨oneGlobal, []⟩
      (run.1.map fun errors => (errors, run.2.machine)) = interpret 1 shadowing oneGlobal ∧
        (∀ access ∈ run.2.accesses, access.Lexical) ∧
        Setting.direct.interpret 1 (resolveProgram shadowing) oneGlobal =
          interpret 1 shadowing oneGlobal :=
  ⟨rfl, rfl, scoping_is_lexical 1 shadowingTokens shadowing oneGlobal _ rfl rfl⟩

end Lox
