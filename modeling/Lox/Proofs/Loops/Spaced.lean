import Lox.Proofs.Effects.Mentioned
import Lox.Proofs.Scoping.Lexical

/-!
# An empty frame is not seen

A block opens a frame.  If none of its own statements is a declaration, the frame stays empty and
the block does what its statements do without it: a name that is looked up is not in that frame,
and the frames that inner blocks open are in front of it.

* `Environment.Spaced`: an environment with an empty frame more than another, which each step
  preserves as long as it does not declare a name in that frame (`Spaced.define` and the like);
* `spaced_execute`: a statement that is no declaration, with the empty frame and without it;
* `inScope_of_spaced`: so the frame can be left out.
-/

namespace Lox

/-! ### Environments -/

/-- The first environment has an empty frame that the other has not.  In front of it are so many
frames as there are scopes, and they are the same in both. -/
inductive Environment.Spaced : Nat → Environment → Environment → Prop where
  | here (environment : Environment) : Spaced 0 environment.push environment
  | scope {scopes : Nat} {outer outer' : Environment} (frame : Frame)
      (further : Spaced scopes outer outer') :
      Spaced (scopes + 1) (.scope frame outer) (.scope frame outer')

namespace Environment.Spaced

variable {scopes : Nat} {environment other : Environment}

/-- The empty frame answers nothing. -/
theorem get? (h : Spaced scopes environment other) (name : String) :
    environment.get? name = other.get? name := by
  induction h with
  | here environment => rfl
  | scope frame _ ih => simp only [Environment.get?, ih]

theorem push (h : Spaced scopes environment other) :
    Spaced (scopes + 1) environment.push other.push :=
  .scope [] h

theorem pop (h : Spaced (scopes + 1) environment other) :
    Spaced scopes environment.pop other.pop := by
  cases h with
  | scope _ further => exact further

/-- A declaration goes to the innermost frame, which must not be the empty one. -/
theorem define (h : Spaced scopes environment other) (hscopes : 0 < scopes) (name : String)
    (value : Value) : Spaced scopes (environment.define name value) (other.define name value) := by
  cases h with
  | here _ => cases hscopes
  | scope frame further => exact .scope _ further

/-- An assignment passes the empty frame by. -/
theorem replace? (h : Spaced scopes environment other) (name : String) (value : Value) :
    Option.Rel (Spaced scopes) (environment.replace? name value) (other.replace? name value) := by
  induction h with
  | here environment =>
    show Option.Rel _ ((environment.replace? name value).map (Environment.scope [])) _
    cases environment.replace? name value with
    | none => exact .none
    | some after => exact .some (.here after)
  | @scope scopes outer outer' frame further ih =>
    simp only [Environment.replace?]
    cases frame.replace? name value with
    | some changed => exact .some (.scope changed further)
    | none => exact optionRel_map ih fun _ _ hafter => .scope frame hafter

end Environment.Spaced

/-! ### Machines side by side -/

/-- Machines whose environments differ by an empty frame, and with the same output. -/
def Spaced (scopes : Nat) (s t : Machine) : Prop :=
  s.environment.Spaced scopes t.environment ∧ s.out = t.out

theorem spaced_reading (scopes : Nat) (name : Token) :
    Relates (Spaced scopes) (reading (·.read name)) (reading (·.read name))
      (Equally (Spaced scopes)) (Failing Eq (Spaced scopes)) := by
  intro s t before
  have hread : s.environment.read name = t.environment.read name := by
    rw [Environment.read, Environment.read, before.1.get?]
  show Alike _ _ (settled (s.environment.read name) s) (settled (t.environment.read name) t)
  rw [hread]
  exact relates_settled_self (fun _ _ => rfl) s t before

theorem spaced_assigning (scopes : Nat) (name : Token) (value : Value) :
    Relates (Spaced scopes) (assigning (·.assign name value) value)
      (assigning (·.assign name value) value) (Equally (Spaced scopes))
      (Failing Eq (Spaced scopes)) := by
  intro s t before
  have hreplace := before.1.replace? name.lexeme value
  simp only [assigning, Environment.assign]
  generalize s.environment.replace? name.lexeme value = after,
    t.environment.replace? name.lexeme value = after' at hreplace
  cases hreplace with
  | none => exact alike_error (.some ⟨rfl, before⟩)
  | some hafter => exact .done ⟨rfl, hafter, before.2⟩

/-- **Steps with an empty frame more**, when some frames are already in front of it.  Where there
are none, nothing may be declared. -/
theorem replaces_spaced (inFront : Nat) :
    Replaces (fun occurrence => occurrence.role = .declared → 0 < inFront)
      (fun scopes => Spaced (inFront + scopes)) Eq id id where
  read _ name _ := spaced_reading _ name
  assign _ name value _ := spaced_assigning _ name value
  unary _ _ _ _ := relates_settled_self fun _ _ => rfl
  binary _ _ _ _ _ := relates_settled_self fun _ _ => rfl
  early _ _ _ := rfl
  print _ value s t same := ⟨same.1, by rw [Machine.printing, Machine.printing, same.2]⟩
  define _ name value _ _ hfront same :=
    ⟨same.1.define (Nat.lt_add_right _ (hfront rfl)) name.lexeme value, same.2⟩
  enter _ _ _ same := ⟨same.1.push, same.2⟩
  leave _ _ _ same := ⟨same.1.pop, same.2⟩
  flush _ _ same := ⟨same.1, congrArg (·.flush.2) same.2⟩

/-- Expressions declare nothing. -/
theorem Expr.not_declared (expr : Expr) :
    ∀ occurrence ∈ expr.occurrences, occurrence.role ≠ .declared := by
  induction expr <;> simp_all [Expr.occurrences, or_imp]

theorem spaced_evaluate (expr : Expr) :
    Relates (Spaced 0) (evaluating (evaluate expr)) (evaluating (evaluate expr))
      (Equally (Spaced 0)) (Failing Eq (Spaced 0)) := by
  have same := relates_evaluate (replaces_spaced 0) 0 expr
    fun occurrence hmem hrole => absurd hrole (expr.not_declared occurrence hmem)
  rwa [expr.relabel_id] at same

theorem spaced_holds (condition : Expr) :
    Relates (Spaced 0) (holds condition) (holds condition) (Equally (Spaced 0))
      (Failing Eq (Spaced 0)) :=
  relates_bind_equally (spaced_evaluate condition) fun _ =>
    relates_pure fun _ _ before => ⟨rfl, before⟩

/-- In a block the frame of the block is in front of the empty one, so anything can be declared. -/
theorem spaced_block (rounds : Nat) (body : List Stmt) :
    Relates (Spaced 0) (inScope (executeAll rounds body)) (inScope (executeAll rounds body))
      (fun _ _ => Spaced 0) (Failing Eq (Spaced 0)) := by
  have same := relates_executeAll (replaces_spaced 1) rounds body 0 fun _ _ _ => Nat.one_pos
  rw [relabelAll_id] at same
  exact relates_inScope (replaces_spaced 0) 0 same

/-- **Statements with an empty frame more.**  A statement that is no declaration, and whose branches
and loop bodies are none, does the same with the empty frame and without it. -/
theorem spaced_execute (rounds : Nat) :
    ∀ statement : Stmt, statement.declares = [] → statement.Placed →
      Relates (Spaced 0) (execute rounds statement) (execute rounds statement)
        (fun _ _ => Spaced 0) (Failing Eq (Spaced 0))
  | .block body, _, _ => by
    rw [execute]
    exact spaced_block rounds body
  | .expression expr, _, _ => by
    rw [execute]
    exact relates_bind_equally (spaced_evaluate expr) fun _ => relates_pure fun _ _ after => after
  | .if condition thenBranch none, _, placed => by
    rw [execute]
    refine relates_bind_equally (spaced_holds condition) fun holds => ?_
    cases holds with
    | true => exact spaced_execute rounds thenBranch placed.1 placed.2
    | false => exact relates_pure fun _ _ after => after
  | .if condition thenBranch (some elseBranch), _, placed => by
    rw [execute]
    refine relates_bind_equally (spaced_holds condition) fun holds => ?_
    cases holds with
    | true => exact spaced_execute rounds thenBranch placed.1.1 placed.1.2
    | false => exact spaced_execute rounds elseBranch placed.2.1 placed.2.2
  | .print expr, _, _ => by
    rw [execute]
    exact relates_bind_equally (spaced_evaluate expr) fun value =>
      relates_modify ((replaces_spaced 0).print 0 value)
  | .while condition body, _, placed => by
    rw [execute, iterate_eq_loop]
    exact relates_loop (fun _ _ _ => alike_none .none) (spaced_holds condition)
      (spaced_execute rounds body placed.1 placed.2) rounds

/-! ### Leaving the frame out -/

/-- When the empty frame is the innermost, closing it is all there is to do. -/
theorem Spaced.leaving {s t : Machine} (h : Spaced 0 s t) : s.leaving = t := by
  obtain ⟨environments, outputs⟩ := h
  obtain ⟨environment, out⟩ := s
  obtain ⟨environment', out'⟩ := t
  cases environments with
  | here _ =>
    cases outputs
    rfl

/-- What does the same with an empty frame and without it needs no frame of its own. -/
theorem inScope_of_spaced {action : Execution Unit}
    (h : Relates (Spaced 0) action action (fun _ _ => Spaced 0) (Failing Eq (Spaced 0))) :
    inScope action = action := by
  funext machine
  have ends := h machine.entering machine ⟨.here _, rfl⟩
  rw [inScope_eq_within]
  show (action machine.entering).map _ = action machine
  generalize action machine.entering = left, action machine = right at ends
  cases ends with
  | done after => exact congrArg (fun last => some (Except.ok (), last)) after.leaving
  | failed fails =>
    cases fails with
    | none => rfl
    | @some failure failure' fails =>
      obtain ⟨herror, after⟩ := fails
      show some (Except.error failure.1, failure.2.leaving) = some (.error failure'.1, failure'.2)
      rw [herror, after.leaving]

end Lox
