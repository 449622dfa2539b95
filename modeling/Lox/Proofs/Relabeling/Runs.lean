import Lox.Proofs.Execution.SideBySide
import Lox.Proofs.Occurrences.Roles
import Lox.Proofs.Relabeling.Trees
import Mathlib.Data.List.Forall2

/-!
# Runs of trees with other tokens

When a program's tokens are replaced, it does the same as long as each of its steps does: looking a
name up, giving it a value, applying an operator.  The machines on both sides are in a relation,
which may depend on how many scopes the program has opened.

* `Replaces`: what the steps have to do, for machines that are in a relation to each other;
* `relates_evaluate`, `relates_execute`, `relates_interpret`: then expressions, statements and
  programs do it too;
* `interpret_eq_map`: the same for a change of machines and of errors;
* `relabelAll_id`: a program beside itself;
* `interpret_later`: a program further down in a source does the same, only its errors are further
  down as well.
-/

namespace Lox

section

variable {p : Occurrence → Prop} {M : Nat → Machine → Machine → Prop}
  {E : RuntimeError → RuntimeError → Prop} {names operators : Token → Token}

/-- What the steps of a program have to do when its names and operators are replaced: from machines
in the relation `M` they come to such machines with the same value, or fail with errors in the
relation `E`.  Only tokens with the property `p` have to be considered. -/
structure Replaces (p : Occurrence → Prop) (M : Nat → Machine → Machine → Prop)
    (E : RuntimeError → RuntimeError → Prop) (names operators : Token → Token) : Prop where
  read : ∀ scopes name, p ⟨.variable, name⟩ →
    Relates (M scopes) (reading (·.read (names name))) (reading (·.read name))
      (Equally (M scopes)) (Failing E (M scopes))
  assign : ∀ scopes name value, p ⟨.target, name⟩ →
    Relates (M scopes) (assigning (·.assign (names name) value) value)
      (assigning (·.assign name value) value) (Equally (M scopes)) (Failing E (M scopes))
  unary : ∀ scopes operator operand, p ⟨.sign, operator⟩ →
    Relates (M scopes) (settled (applyUnary (operators operator) operand))
      (settled (applyUnary operator operand)) (Equally (M scopes)) (Failing E (M scopes))
  binary : ∀ scopes operator left right, p ⟨.operator, operator⟩ →
    Relates (M scopes) (settled (applyBinary (operators operator) left right))
      (settled (applyBinary operator left right)) (Equally (M scopes)) (Failing E (M scopes))
  early : ∀ operator left, p ⟨.connective, operator⟩ →
    decidesEarly (operators operator) left = decidesEarly operator left
  print : ∀ scopes value s t, M scopes s t → M scopes (s.printing value) (t.printing value)
  define : ∀ scopes name value s t, p ⟨.declared, name⟩ → M scopes s t →
    M scopes (s.defining (names name) value) (t.defining name value)
  enter : ∀ scopes s t, M scopes s t → M (scopes + 1) s.entering t.entering
  leave : ∀ scopes s t, M (scopes + 1) s t → M scopes s.leaving t.leaving
  flush : ∀ s t, M 0 s t → M 0 s.flushing t.flushing

theorem relates_evaluate (h : Replaces p M E names operators) (scopes : Nat) (expr : Expr)
    (hp : ∀ occurrence ∈ expr.occurrences, p occurrence) :
    Relates (M scopes) (evaluating (evaluate (expr.relabel names operators)))
      (evaluating (evaluate expr)) (Equally (M scopes)) (Failing E (M scopes)) := by
  induction expr with
  | literal value => exact relates_pure fun _ _ before => ⟨rfl, before⟩
  | «variable» name =>
    rw [Expr.relabel, evaluating_variable, evaluating_variable]
    exact h.read scopes name (hp _ List.mem_cons_self)
  | grouping inner ih => exact ih hp
  | assign name value ih =>
    obtain ⟨hname, hvalue⟩ := List.forall_mem_cons.1 hp
    simp only [Expr.relabel, evaluate, evaluating_bind, evaluating_assignTo]
    exact relates_bind_equally (ih hvalue) fun value => h.assign scopes name value hname
  | unary operator operand ih =>
    obtain ⟨hoperator, hoperand⟩ := List.forall_mem_cons.1 hp
    simp only [Expr.relabel, evaluate, evaluating_bind, evaluating_lift]
    exact relates_bind_equally (ih hoperand) fun operand =>
      h.unary scopes operator operand hoperator
  | binary operator left right ihl ihr =>
    obtain ⟨hoperator, hoperands⟩ := List.forall_mem_cons.1 hp
    obtain ⟨hleft, hright⟩ := List.forall_mem_append.1 hoperands
    simp only [Expr.relabel, evaluate, evaluating_bind, evaluating_lift]
    refine relates_bind_equally (ihr hright) fun right => ?_
    exact relates_bind_equally (ihl hleft) fun left => h.binary scopes operator left right hoperator
  | logical operator left right ihl ihr =>
    obtain ⟨hoperator, hoperands⟩ := List.forall_mem_cons.1 hp
    obtain ⟨hleft, hright⟩ := List.forall_mem_append.1 hoperands
    simp only [Expr.relabel, evaluate, evaluating_bind]
    refine relates_bind_equally (ihl hleft) fun left => ?_
    rw [h.early operator left hoperator]
    cases decidesEarly operator left with
    | true => exact relates_pure fun _ _ before => ⟨rfl, before⟩
    | false => exact ihr hright

theorem relates_holds (h : Replaces p M E names operators) (scopes : Nat) (condition : Expr)
    (hp : ∀ occurrence ∈ condition.occurrences, p occurrence) :
    Relates (M scopes) (holds (condition.relabel names operators)) (holds condition)
      (Equally (M scopes)) (Failing E (M scopes)) :=
  relates_bind_equally (relates_evaluate h scopes condition hp) fun _ =>
    relates_pure fun _ _ before => ⟨rfl, before⟩

theorem relates_define (h : Replaces p M E names operators) (scopes : Nat) (name : Token)
    (value : Value) (hname : p ⟨.declared, name⟩) :
    Relates (M scopes) (defineVariable (names name) value) (defineVariable name value)
      (fun _ _ => M scopes) (Failing E (M scopes)) :=
  relates_modify fun s t => h.define scopes name value s t hname

/-- What is done in a scope of its own is done with one more scope open. -/
theorem relates_inScope (h : Replaces p M E names operators) (scopes : Nat) {a b : Execution Unit}
    (hab : Relates (M (scopes + 1)) a b (fun _ _ => M (scopes + 1)) (Failing E (M (scopes + 1)))) :
    Relates (M scopes) (inScope a) (inScope b) (fun _ _ => M scopes) (Failing E (M scopes)) := by
  rw [inScope_eq_within, inScope_eq_within]
  refine relates_within hab (h.enter scopes) (fun _ _ => h.leave scopes) ?_
  intro failure failure' fails
  cases fails with
  | none => exact .none
  | some fails => exact .some ⟨fails.1, h.leave scopes _ _ fails.2⟩

mutual

/-- **Statements with other tokens.**  If each step does the same with the other tokens, so does
a statement. -/
theorem relates_execute (h : Replaces p M E names operators) (rounds : Nat) :
    ∀ (statement : Stmt) (scopes : Nat), (∀ occurrence ∈ statement.occurrences, p occurrence) →
      Relates (M scopes) (execute rounds (statement.relabel names operators))
        (execute rounds statement) (fun _ _ => M scopes) (Failing E (M scopes))
  | .block body, scopes, hp => by
    rw [Stmt.relabel, execute, execute]
    exact relates_inScope h scopes (relates_executeAll h rounds body (scopes + 1) hp)
  | .expression expr, scopes, hp => by
    rw [Stmt.relabel, execute, execute]
    exact relates_bind_equally (relates_evaluate h scopes expr hp) fun _ =>
      relates_pure fun _ _ after => after
  | .if condition thenBranch none, scopes, hp => by
    obtain ⟨hcondition, hthen⟩ := List.forall_mem_append.1 hp
    rw [Stmt.relabel, execute, execute]
    refine relates_bind_equally (relates_holds h scopes condition hcondition) fun holds => ?_
    cases holds with
    | true => exact relates_execute h rounds thenBranch scopes hthen
    | false => exact relates_pure fun _ _ after => after
  | .if condition thenBranch (some elseBranch), scopes, hp => by
    obtain ⟨hcondition, hbranches⟩ := List.forall_mem_append.1 hp
    obtain ⟨hthen, helse⟩ := List.forall_mem_append.1 hbranches
    rw [Stmt.relabel, execute, execute]
    refine relates_bind_equally (relates_holds h scopes condition hcondition) fun holds => ?_
    cases holds with
    | true => exact relates_execute h rounds thenBranch scopes hthen
    | false => exact relates_execute h rounds elseBranch scopes helse
  | .print expr, scopes, hp => by
    rw [Stmt.relabel, execute, execute]
    exact relates_bind_equally (relates_evaluate h scopes expr hp) fun value =>
      relates_modify (h.print scopes value)
  | .var name none, scopes, hp => by
    rw [Stmt.relabel, execute, execute]
    exact relates_define h scopes name .nil (hp _ List.mem_cons_self)
  | .var name (some value), scopes, hp => by
    obtain ⟨hname, hvalue⟩ := List.forall_mem_cons.1 hp
    rw [Stmt.relabel, execute, execute]
    exact relates_bind_equally (relates_evaluate h scopes value hvalue) fun value =>
      relates_define h scopes name value hname
  | .while condition body, scopes, hp => by
    obtain ⟨hcondition, hbody⟩ := List.forall_mem_append.1 hp
    rw [Stmt.relabel, execute, execute, iterate_eq_loop, iterate_eq_loop]
    exact relates_loop (fun _ _ _ => alike_none .none)
      (relates_holds h scopes condition hcondition) (relates_execute h rounds body scopes hbody)
      rounds

theorem relates_executeAll (h : Replaces p M E names operators) (rounds : Nat) :
    ∀ (statements : List Stmt) (scopes : Nat),
      (∀ occurrence ∈ occurrencesAll statements, p occurrence) →
      Relates (M scopes) (executeAll rounds (relabelAll names operators statements))
        (executeAll rounds statements) (fun _ _ => M scopes) (Failing E (M scopes))
  | [], _, _ => relates_pure fun _ _ after => after
  | statement :: rest, scopes, hp => by
    obtain ⟨hfirst, hrest⟩ := List.forall_mem_append.1 hp
    rw [relabelAll, executeAll, executeAll]
    exact relates_bind (relates_execute h rounds statement scopes hfirst) fun _ _ =>
      relates_executeAll h rounds rest scopes hrest

end

/-- **Programs with other tokens.**  Then so does a program: it comes to an end on both sides or on
neither, and the errors fit one by one. -/
theorem relates_interpret (h : Replaces p M E names operators) (rounds : Nat)
    (statements : List Stmt) (hp : ∀ occurrence ∈ occurrencesAll statements, p occurrence)
    (s t : Machine) (before : M 0 s t) :
    Option.Rel (fun ends ends' => List.Forall₂ E ends.1 ends'.1 ∧ M 0 ends.2 ends'.2)
      (interpret rounds (relabelAll names operators statements) s)
      (interpret rounds statements t) := by
  induction statements generalizing s t with
  | nil => exact .some ⟨.nil, h.flush s t before⟩
  | cons statement rest ih =>
    obtain ⟨hfirst, hrest⟩ := List.forall_mem_append.1 hp
    have ends := relates_execute h rounds statement 0 hfirst s t before
    rw [relabelAll, interpret, interpret]
    generalize execute rounds (statement.relabel names operators) s = left,
      execute rounds statement t = right at ends
    cases ends with
    | done after => exact ih hrest _ _ after
    | failed fails =>
      cases fails with
      | none => exact .none
      | @some failure failure' fails =>
        have later := ih hrest failure.2 failure'.2 fails.2
        exact optionRel_map later fun _ _ later => ⟨.cons fails.1 later.1, later.2⟩

/-- If each step on a changed machine leaves the same change and fails with the same errors up to a
change of them, then so does a program. -/
theorem interpret_eq_map {f : Machine → Machine} {g : RuntimeError → RuntimeError}
    (h : Replaces (fun _ => True) (fun _ s t => s = f t) (fun e e' => e = g e') names operators)
    (rounds : Nat) (statements : List Stmt) (machine : Machine) :
    interpret rounds (relabelAll names operators statements) (f machine) =
      (interpret rounds statements machine).map (Prod.map (List.map g) f) := by
  have ends := relates_interpret h rounds statements (fun _ _ => trivial) (f machine) machine rfl
  generalize interpret rounds (relabelAll names operators statements) (f machine) = left,
    interpret rounds statements machine = right at ends ⊢
  cases ends with
  | none => rfl
  | @some ends ends' fit =>
    have herrors : ends.1 = ends'.1.map g := by
      have fits := fit.1
      rwa [← List.forall₂_map_right_iff, List.forall₂_eq_eq_eq] at fits
    exact congrArg some (Prod.ext herrors fit.2)

end

/-! ### A program beside itself -/

theorem Expr.relabel_id (expr : Expr) : expr.relabel id id = expr := by
  induction expr <;> simp_all [Expr.relabel]

mutual

theorem Stmt.relabel_id : ∀ statement : Stmt, statement.relabel id id = statement
  | .block body => by rw [Stmt.relabel, relabelAll_id body]
  | .expression expr => by rw [Stmt.relabel, expr.relabel_id]
  | .if condition thenBranch none => by
    rw [Stmt.relabel, condition.relabel_id, Stmt.relabel_id thenBranch]
  | .if condition thenBranch (some elseBranch) => by
    rw [Stmt.relabel, condition.relabel_id, Stmt.relabel_id thenBranch, Stmt.relabel_id elseBranch]
  | .print expr => by rw [Stmt.relabel, expr.relabel_id]
  | .var name none => rfl
  | .var name (some value) => by rw [Stmt.relabel, value.relabel_id, id]
  | .while condition body => by
    rw [Stmt.relabel, condition.relabel_id, Stmt.relabel_id body]

theorem relabelAll_id : ∀ statements : List Stmt, relabelAll id id statements = statements
  | [] => rfl
  | statement :: rest => by rw [relabelAll, statement.relabel_id, relabelAll_id rest]

end

/-! ### Further down in a source -/

/-- An error so many lines further down. -/
def RuntimeError.later (lines : Nat) (e : RuntimeError) : RuntimeError :=
  { e with token := e.token.later lines }

theorem onNumbers_later (lines : Nat) (operator : Token) (left right : Value)
    (operation : Float → Float → Value) :
    onNumbers (operator.later lines) left right operation =
      (onNumbers operator left right operation).mapError (RuntimeError.later lines) := by
  cases left <;> cases right <;> rfl

theorem applyPlus_later (lines : Nat) (operator : Token) (left right : Value) :
    applyPlus (operator.later lines) left right =
      (applyPlus operator left right).mapError (RuntimeError.later lines) := by
  cases left <;> cases right <;> rfl

theorem applyUnary_later (lines : Nat) (operator : Token) (operand : Value) :
    applyUnary (operator.later lines) operand =
      (applyUnary operator operand).mapError (RuntimeError.later lines) := by
  have hkind : (operator.later lines).kind = operator.kind := rfl
  unfold applyUnary
  rw [hkind]
  split
  · rfl
  · cases operand <;> rfl
  · rfl

theorem applyBinary_later (lines : Nat) (operator : Token) (left right : Value) :
    applyBinary (operator.later lines) left right =
      (applyBinary operator left right).mapError (RuntimeError.later lines) := by
  have hkind : (operator.later lines).kind = operator.kind := rfl
  unfold applyBinary
  rw [hkind]
  simp only [onNumbers_later, applyPlus_later]
  split <;> rfl

/-- An error of the first run is one of the second, further down. -/
def FailsLater (lines : Nat) (e e' : RuntimeError) : Prop := e = e'.later lines

theorem settled_later (lines : Nat) {answer answer' : Except RuntimeError Value}
    (h : answer = answer'.mapError (RuntimeError.later lines)) :
    Relates Eq (settled answer : Execution Value) (settled answer') (Equally Eq)
      (Failing (FailsLater lines) Eq) := by
  rw [h]
  exact relates_settled answer' fun e s t same => .some ⟨rfl, same⟩

theorem reading_later (lines : Nat) (name : Token) :
    Relates Eq (reading (·.read (name.later lines))) (reading (·.read name)) (Equally Eq)
      (Failing (FailsLater lines) Eq) := by
  rintro machine _ rfl
  have hread : machine.environment.read (name.later lines) =
      (machine.environment.read name).mapError (RuntimeError.later lines) := by
    have hlexeme : (name.later lines).lexeme = name.lexeme := rfl
    unfold Environment.read
    rw [hlexeme]
    cases machine.environment.get? name.lexeme <;> rfl
  exact settled_later lines hread machine machine rfl

theorem assigning_later (lines : Nat) (name : Token) (value : Value) :
    Relates Eq (assigning (·.assign (name.later lines) value) value)
      (assigning (·.assign name value) value) (Equally Eq) (Failing (FailsLater lines) Eq) := by
  rintro machine _ rfl
  have hassign : machine.environment.assign (name.later lines) value =
      (machine.environment.assign name value).mapError (RuntimeError.later lines) := by
    have hlexeme : (name.later lines).lexeme = name.lexeme := rfl
    unfold Environment.assign
    rw [hlexeme]
    cases machine.environment.replace? name.lexeme value <;> rfl
  simp only [assigning, hassign]
  cases machine.environment.assign name value with
  | ok environment => exact .done ⟨rfl, rfl⟩
  | error e => exact alike_error (.some ⟨rfl, rfl⟩)

theorem replaces_later (lines : Nat) :
    Replaces (fun _ => True) (fun _ => Eq) (FailsLater lines) (Token.later lines)
      (Token.later lines) where
  read _ name _ := reading_later lines name
  assign _ name value _ := assigning_later lines name value
  unary _ operator operand _ := settled_later lines (applyUnary_later lines operator operand)
  binary _ operator left right _ :=
    settled_later lines (applyBinary_later lines operator left right)
  early _ _ _ := rfl
  print _ _ _ _ same := by rw [same]
  define _ _ _ _ _ _ same := by rw [same]; rfl
  enter _ _ _ same := by rw [same]
  leave _ _ _ same := by rw [same]
  flush _ _ same := by rw [same]

/-- **Programs further down.**  A program whose tokens are further down does the same to the
machine, and has the same errors further down. -/
theorem interpret_later (lines rounds : Nat) (statements : List Stmt) (machine : Machine) :
    interpret rounds (relabelAll (Token.later lines) (Token.later lines) statements) machine =
      (interpret rounds statements machine).map
        (Prod.map (List.map (RuntimeError.later lines)) id) := by
  have hsteps : Replaces (fun _ => True) (fun _ s t => s = id t)
      (fun e e' => e = e'.later lines) (Token.later lines) (Token.later lines) :=
    replaces_later lines
  exact interpret_eq_map hsteps rounds statements machine

end Lox
