import Lox.Proofs.Occurrences.Written
import Lox.Proofs.Relabeling.Runs
import Lox.Proofs.Scoping.Lexical

/-!
# What runtime errors can arise

A runtime error blames a token of the statement that failed, and which tokens it can blame depends
on what went wrong.  A tree may hold any token anywhere, and then there are errors for operators
that are none.  The trees of a program that was parsed do not give rise to these.

* `Blames`: the error and the token of a tree to which it is due;
* `blames_of_applyUnary`, `blames_of_applyBinary`: what operators blame;
* `replaces_blaming`: each step of a program, when it fails, blames a token of that program;
* `blames_of_execute`, `blames_of_interpret`: so do statements and programs;
* `runtimeErrors_of_parse`: the main result.
-/

namespace Lox

/-! ### Whom an error blames -/

/-- The kinds of operators that are for numbers only. -/
def numeric : List TokenKind :=
  [.symbol .minus, .symbol .star, .symbol .slash,
    .symbol .greater, .symbol .greaterEqual, .symbol .less, .symbol .lessEqual]

/-- An error and the token of a tree that it blames. -/
inductive Blames : RuntimeError → Occurrence → Prop where
  | operandNotNumber {operator : Token} (h : operator.kind = .symbol .minus) :
      Blames ⟨operator, .operandNotNumber⟩ ⟨.sign, operator⟩
  | noUnaryOperator {operator : Token} (h : operator.kind ∉ Role.sign.kinds) :
      Blames ⟨operator, .noUnaryOperator⟩ ⟨.sign, operator⟩
  | operandsNotNumbers {operator : Token} (h : operator.kind ∈ numeric) :
      Blames ⟨operator, .operandsNotNumbers⟩ ⟨.operator, operator⟩
  | operandsNotAddable {operator : Token} (h : operator.kind = .symbol .plus) :
      Blames ⟨operator, .operandsNotAddable⟩ ⟨.operator, operator⟩
  | noBinaryOperator {operator : Token} (h : operator.kind ∉ Role.operator.kinds) :
      Blames ⟨operator, .noBinaryOperator⟩ ⟨.operator, operator⟩
  | undefinedVariable {name : Token} : Blames ⟨name, .undefinedVariable⟩ ⟨.variable, name⟩
  | undefinedTarget {name : Token} : Blames ⟨name, .undefinedVariable⟩ ⟨.target, name⟩

theorem Blames.token_eq {e : RuntimeError} {occurrence : Occurrence} (h : Blames e occurrence) :
    e.token = occurrence.token := by
  cases h <;> rfl

/-! ### Steps that fail -/

variable {e : RuntimeError} {operator name : Token}

theorem blames_of_applyUnary {operand : Value} (h : applyUnary operator operand = .error e) :
    Blames e ⟨.sign, operator⟩ := by
  unfold applyUnary at h
  split at h
  · cases h
  · next hminus =>
    cases operand <;> cases h
    all_goals exact .operandNotNumber hminus
  · next hbang hminus =>
    cases h
    exact .noUnaryOperator (by simpa [Role.kinds] using And.intro hbang hminus)

theorem blames_of_onNumbers {left right : Value} {operation : Float → Float → Value}
    (hkind : operator.kind ∈ numeric) (h : onNumbers operator left right operation = .error e) :
    Blames e ⟨.operator, operator⟩ := by
  unfold onNumbers at h
  split at h
  · cases h
  · cases h
    exact .operandsNotNumbers hkind

theorem blames_of_applyPlus {left right : Value} (hkind : operator.kind = .symbol .plus)
    (h : applyPlus operator left right = .error e) : Blames e ⟨.operator, operator⟩ := by
  cases left <;> cases right <;> cases h
  all_goals exact .operandsNotAddable hkind

theorem blames_of_applyBinary {left right : Value}
    (h : applyBinary operator left right = .error e) : Blames e ⟨.operator, operator⟩ := by
  unfold applyBinary at h
  split at h
  case h_1 hplus => exact blames_of_applyPlus hplus h
  case h_2 hkind | h_3 hkind | h_4 hkind | h_5 hkind | h_6 hkind | h_7 hkind | h_8 hkind =>
    exact blames_of_onNumbers (by rw [hkind]; decide) h
  case h_9 | h_10 => cases h
  case h_11 =>
    -- the operator is none of those above
    cases h
    refine .noBinaryOperator ?_
    simp_all [Role.kinds]

theorem blames_of_read {environment : Environment} (h : environment.read name = .error e) :
    Blames e ⟨.variable, name⟩ := by
  unfold Environment.read at h
  split at h <;> cases h
  exact .undefinedVariable

theorem blames_of_assign {environment : Environment} {value : Value}
    (h : environment.assign name value = .error e) : Blames e ⟨.target, name⟩ := by
  unfold Environment.assign at h
  split at h <;> cases h
  exact .undefinedTarget

/-! ### Programs that fail -/

/-- The error is one and the same, and it blames a token with the property. -/
def BlamesSome (p : Occurrence → Prop) (e e' : RuntimeError) : Prop :=
  e = e' ∧ ∃ occurrence, p occurrence ∧ Blames e occurrence

/-- **Steps blame tokens of the program.**  The program is compared with itself. -/
theorem replaces_blaming (p : Occurrence → Prop) :
    Replaces p (fun _ => Eq) (BlamesSome p) id id where
  read _ name hname machine _ same := by
    subst same
    exact relates_settled_self (fun _ h => ⟨rfl, _, hname, blames_of_read h⟩) machine machine rfl
  assign _ name value hname machine _ same := by
    subst same
    simp only [assigning, id]
    cases hassign : machine.environment.assign name value with
    | ok after => exact .done ⟨rfl, rfl⟩
    | error e => exact alike_error (.some ⟨⟨rfl, _, hname, blames_of_assign hassign⟩, rfl⟩)
  unary _ _ _ hsign :=
    relates_settled_self fun _ h => ⟨rfl, _, hsign, blames_of_applyUnary h⟩
  binary _ _ _ _ hoperator :=
    relates_settled_self fun _ h => ⟨rfl, _, hoperator, blames_of_applyBinary h⟩
  early _ _ _ := rfl
  print _ _ _ _ same := by rw [same]
  define _ _ _ _ _ _ same := by rw [same]; rfl
  enter _ _ _ same := by rw [same]
  leave _ _ _ same := by rw [same]
  flush _ _ same := by rw [same]

/-- The error of a statement blames a token of that statement. -/
theorem blames_of_execute {rounds : Nat} {statement : Stmt} {before after : Machine}
    (h : execute rounds statement before = some (.error e, after)) :
    ∃ occurrence ∈ statement.occurrences, Blames e occurrence := by
  have ends := relates_execute (replaces_blaming (· ∈ statement.occurrences)) rounds statement 0
    (fun _ hmem => hmem) before before rfl
  rw [statement.relabel_id, h] at ends
  obtain ⟨_, hblames⟩ := (error_of_alike ends).1
  exact hblames

/-- The errors of a program blame tokens of that program. -/
theorem blames_of_interpret {rounds : Nat} {statements : List Stmt} {machine last : Machine}
    {errors : List RuntimeError} (h : interpret rounds statements machine = some (errors, last)) :
    ∀ e ∈ errors, ∃ occurrence ∈ occurrencesAll statements, Blames e occurrence := by
  have ends := relates_interpret (replaces_blaming (· ∈ occurrencesAll statements)) rounds
    statements (fun _ hmem => hmem) machine machine rfl
  rw [relabelAll_id, h] at ends
  cases ends with
  | some fit =>
    have each := List.forall₂_same.1 fit.1
    exact fun e he => (each e he).2

/-! ### Programs that were parsed -/

/-- An error as it can be of a program that was parsed: what it says, and of which token. -/
def RuntimeError.Ordinary (e : RuntimeError) : Prop :=
  (e.message = "Operand must be a number." ∧ e.token.kind = .symbol .minus) ∨
    (e.message = "Operands must be numbers." ∧ e.token.kind ∈ numeric) ∨
    (e.message = "Operands must be two numbers or two strings." ∧ e.token.kind = .symbol .plus) ∨
    (e.message = "Undefined variable '" ++ e.token.lexeme ++ "'." ∧ e.token.kind = .identifier)

theorem ordinary_of_blames {occurrence : Occurrence} (h : Blames e occurrence)
    (hkind : occurrence.token.kind ∈ occurrence.role.kinds) : e.Ordinary := by
  cases h with
  | operandNotNumber hminus => exact .inl ⟨rfl, hminus⟩
  | operandsNotNumbers hnumeric => exact .inr (.inl ⟨rfl, hnumeric⟩)
  | operandsNotAddable hplus => exact .inr (.inr (.inl ⟨rfl, hplus⟩))
  | noUnaryOperator hnone | noBinaryOperator hnone => exact absurd hkind hnone
  | undefinedVariable | undefinedTarget =>
    exact .inr (.inr (.inr ⟨rfl, List.mem_singleton.1 hkind⟩))

/-- None of these errors is about an operator that is none. -/
theorem RuntimeError.Ordinary.message_ne (h : e.Ordinary) :
    e.message ≠ "Expected a unary operator." ∧ e.message ≠ "Expected a binary operator." := by
  rcases h with ⟨h, _⟩ | ⟨h, _⟩ | ⟨h, _⟩ | ⟨h, _⟩
  · rw [h]; decide
  · rw [h]; decide
  · rw [h]; decide
  · -- the name is any text, but the first letter tells
    rw [h]
    refine ⟨fun same => ?_, fun same => ?_⟩
    all_goals
      have first := congrArg (·.toList.head?) same
      simp at first

/-- **Runtime errors of programs that were parsed.**  Let a list of tokens be accepted.  At every
depth of its trees each operator and each name is of a kind that its place calls for, and no branch
and no loop body is a declaration.  So an operator between operands of which one may be left out is
`and` if it is not `or`.  And whatever the machine on which the program is run, each of its errors
is an ordinary one, and none says that there is no operator where one is expected. -/
theorem runtimeErrors_of_parse (tokens : List Token) (statements : List Stmt)
    (accepted : Grammar.parse tokens = .ok statements) :
    (∀ occurrence ∈ occurrencesAll statements,
        occurrence.token.kind ∈ occurrence.role.kinds) ∧
      AllPlaced statements ∧
      (∀ occurrence ∈ occurrencesAll statements, occurrence.role = .connective →
        occurrence.token.kind ≠ .keyword .or → occurrence.token.kind = .keyword .and) ∧
      ∀ rounds machine errors last, interpret rounds statements machine = some (errors, last) →
        ∀ e ∈ errors, e.Ordinary ∧
          e.message ≠ "Expected a unary operator." ∧ e.message ≠ "Expected a binary operator." := by
  obtain ⟨body, _, _, rfl⟩ := Derivation.body_of_findings (Derivation.findings_of_parse accepted)
  have written : Written body.tokens (occurrencesAll body.stmts) := body.written
  refine ⟨fun occurrence h => (written occurrence h).kind, body.placed, ?_, ?_⟩
  · intro occurrence hmem hrole hor
    have hkind := (written occurrence hmem).kind
    rw [hrole] at hkind
    simpa [Role.kinds, hor] using hkind
  · intro rounds machine errors last hrun e he
    obtain ⟨occurrence, hmem, hblames⟩ := blames_of_interpret hrun e he
    have ordinary : e.Ordinary := ordinary_of_blames hblames (written occurrence hmem).kind
    exact ⟨ordinary, ordinary.message_ne⟩

/-- The tokens of `!a and -nil;` with an end token and another one behind. -/
def connectedTokens : List Token :=
  [⟨.symbol .bang, "!", none, 1⟩, ⟨.identifier, "a", none, 1⟩, ⟨.keyword .and, "and", none, 1⟩,
    ⟨.symbol .minus, "-", none, 1⟩, ⟨.keyword .nil, "nil", none, 1⟩,
    ⟨.symbol .semicolon, ";", none, 1⟩, .endOf 1, ⟨.symbol .rightParen, ")", none, 1⟩]

/-- The tree of that statement. -/
def connected : List Stmt :=
  [.expression (.logical ⟨.keyword .and, "and", none, 1⟩
    (.unary ⟨.symbol .bang, "!", none, 1⟩ (.variable ⟨.identifier, "a", none, 1⟩))
    (.unary ⟨.symbol .minus, "-", none, 1⟩ (.literal .nil)))]

/-- Where the name is bound the minus sign is at fault, and where it is not the name is. -/
theorem runtimeErrors_of_parse_connected :
    let minus : RuntimeError := ⟨⟨.symbol .minus, "-", none, 1⟩, .operandNotNumber⟩
    let unbound : RuntimeError := ⟨⟨.identifier, "a", none, 1⟩, .undefinedVariable⟩
    let machine : Machine := { environment := .globals [("a", .nil)] }
    Grammar.parse connectedTokens = .ok connected ∧
      (interpret 0 connected machine = some ([minus], machine) ∧ minus.Ordinary) ∧
      interpret 0 connected {} = some ([unbound], {}) ∧ unbound.Ordinary := by
  intro minus unbound machine
  have accepted : Grammar.parse connectedTokens = .ok connected := rfl
  have bound : interpret 0 connected machine = some ([minus], machine) := rfl
  have empty : interpret 0 connected {} = some ([unbound], {}) := rfl
  have errors := (runtimeErrors_of_parse connectedTokens connected accepted).2.2.2
  exact ⟨accepted, ⟨bound, (errors 0 machine _ _ bound minus List.mem_cons_self).1⟩,
    empty, (errors 0 {} _ _ empty unbound List.mem_cons_self).1⟩

end Lox
