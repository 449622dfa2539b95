import Lox.Proofs.Execution.Course
import Lox.Proofs.Occurrences.Roles
import Lox.Proofs.Scoping.Resolution

/-!
# What execution can change

A statement leaves as many frames as it finds.  It gives new names to the innermost frame only, and
only those that it declares outside of its blocks.  Of the values it changes those of names that it
assigns, in any frame, and those of the names that it declares.  All this is so whether the
statement fails or not, and in however many rounds of its loops it is run.

* `Changes`: what may differ between the variables before and after;
* `Moves`: a relation between the machines before and after an action, with a rule for each way to
  build actions;
* `Stmt.exposes`: the names that a statement can declare in the frame in which it is run;
* `moves_evaluate`, `moves_execute`: what expressions and statements change;
* `Between`: where calls of `interpret` stand between statements;
* `changes_of_execute`: the main result.
-/

namespace Lox

/-! ### Frames before and after -/

namespace Environment

/-- The frame in which names are declared. -/
def innermost : Environment → Binding
  | .globals _ => .global
  | .scope _ _ => .block 0

theorem innermost_of_depth {environment other : Environment}
    (h : environment.depth = other.depth) : environment.innermost = other.innermost := by
  have positive : ∀ environment : Environment, environment.depth ≠ 0 := by
    intro environment
    cases environment <;> exact Nat.succ_ne_zero _
  cases environment with
  | globals _ =>
    cases other with
    | globals _ => rfl
    | scope _ outer => exact absurd (Nat.succ.inj h).symm (positive outer)
  | scope _ outer =>
    cases other with
    | globals _ => exact absurd (Nat.succ.inj h) (positive outer)
    | scope _ _ => rfl

theorem exists_globals {environment : Environment} (h : environment.depth = 1) :
    ∃ frame, environment = .globals frame := by
  cases environment with
  | globals frame => exact ⟨frame, rfl⟩
  | scope frame outer => cases outer <;> simp [depth] at h

theorem valueAt?_define (environment : Environment) (name other : String) (value : Value)
    (binding : Binding) :
    (environment.define name value).valueAt? binding other =
      if binding = environment.innermost ∧ name = other then some value
      else environment.valueAt? binding other := by
  cases environment with
  | globals frame => cases binding <;> simp [define, valueAt?, innermost]
  | scope frame outer =>
    cases binding with
    | global => simp [define, valueAt?, innermost]
    | block distance => cases distance <;> simp [define, valueAt?, innermost]

/-- A frame holds another value after an assignment only for the name that was assigned, and only
if it held one before. -/
theorem valueAt?_replace? {environment after : Environment} {name : String} {value : Value}
    (h : environment.replace? name value = some after) (binding : Binding) (other : String) :
    after.valueAt? binding other = environment.valueAt? binding other ∨
      name = other ∧ (after.valueAt? binding other).isSome ∧
        (environment.valueAt? binding other).isSome := by
  have frames {frame changed : Frame} (hc : frame.replace? name value = some changed) :
      changed.get? other = frame.get? other ∨
        name = other ∧ (changed.get? other).isSome ∧ (frame.get? other).isSome := by
    have bound : frame.get? name ≠ none := fun unbound => by
      rw [Frame.replace?_eq_none.2 unbound] at hc
      cases hc
    rw [Frame.get?_replace? hc]
    by_cases hname : name = other
    · subst hname
      exact .inr ⟨rfl, by simp, Option.isSome_iff_ne_none.2 bound⟩
    · exact .inl (if_neg hname)
  induction environment generalizing after binding with
  | globals frame =>
    obtain ⟨changed, hc, rfl⟩ := Option.map_eq_some_iff.1 h
    cases binding with
    | global => exact frames hc
    | block distance => exact .inl rfl
  | scope frame outer ih =>
    simp only [replace?] at h
    split at h
    · next changed hc =>
      cases h
      cases binding with
      | global => exact .inl rfl
      | block distance =>
        cases distance with
        | zero => exact frames hc
        | succ distance => exact .inl rfl
    · obtain ⟨changed, hc, rfl⟩ := Option.map_eq_some_iff.1 h
      cases binding with
      | global => exact ih hc .global
      | block distance =>
        cases distance with
        | zero => exact .inl rfl
        | succ distance => exact ih hc (.block distance)

end Environment

/-! ### Changes -/

/-- The variables after something was done differ from those before only as some names may be
assigned anywhere, and some be declared in the innermost frame. -/
structure Changes (assigned declared : List String) (before after : Environment) : Prop where
  /-- There are as many frames. -/
  depth : after.depth = before.depth
  /-- No frame loses a name. -/
  kept : ∀ binding name,
    (before.valueAt? binding name).isSome → (after.valueAt? binding name).isSome
  /-- No frame but the innermost gains a name, and that only gains declared ones. -/
  gained : ∀ binding name, (after.valueAt? binding name).isSome →
    (before.valueAt? binding name).isSome ∨ binding = before.innermost ∧ name ∈ declared
  /-- A name has another value in a frame only if it may be assigned, or declared in that frame. -/
  values : ∀ binding name, after.valueAt? binding name ≠ before.valueAt? binding name →
    name ∈ assigned ∨ binding = before.innermost ∧ name ∈ declared

/-- There are as many frames after as before, and each has the same names. -/
def SameNames (before after : Environment) : Prop :=
  after.depth = before.depth ∧
    ∀ binding name, (after.valueAt? binding name).isSome = (before.valueAt? binding name).isSome

namespace Changes

variable {assigned declared : List String} {before middle after : Environment}

theorem refl (environment : Environment) : Changes assigned declared environment environment :=
  ⟨rfl, fun _ _ h => h, fun _ _ h => .inl h, fun _ _ h => absurd rfl h⟩

theorem trans (h : Changes assigned declared before middle)
    (h' : Changes assigned declared middle after) : Changes assigned declared before after := by
  have hinnermost := Environment.innermost_of_depth h.depth
  refine ⟨h'.depth.trans h.depth, fun binding name hbefore => ?_, fun binding name hafter => ?_,
    fun binding name hne => ?_⟩
  · exact h'.kept binding name (h.kept binding name hbefore)
  · rcases h'.gained binding name hafter with hmiddle | hdeclared
    · exact h.gained binding name hmiddle
    · rw [hinnermost] at hdeclared
      exact .inr hdeclared
  · by_cases hsame : middle.valueAt? binding name = before.valueAt? binding name
    · rw [← hsame] at hne
      rw [← hinnermost]
      exact h'.values binding name hne
    · exact h.values binding name hsame

theorem define {name : String} (hname : name ∈ declared) (environment : Environment)
    (value : Value) : Changes assigned declared environment (environment.define name value) := by
  refine ⟨environment.depth_define name value, fun binding other h => ?_, fun binding other h => ?_,
    fun binding other h => ?_⟩
  · rw [Environment.valueAt?_define]
    split
    · rfl
    · exact h
  · rw [Environment.valueAt?_define] at h
    split at h
    · next hwhere => exact .inr ⟨hwhere.1, hwhere.2 ▸ hname⟩
    · exact .inl h
  · rw [Environment.valueAt?_define] at h
    split at h
    · next hwhere => exact .inr ⟨hwhere.1, hwhere.2 ▸ hname⟩
    · exact absurd rfl h

theorem replace? {name : String} (hname : name ∈ assigned) {environment : Environment}
    {value : Value} (h : environment.replace? name value = some after) :
    Changes assigned declared environment after := by
  have hvalues := Environment.valueAt?_replace? h
  refine ⟨Environment.depth_replace? h, fun binding other hbefore => ?_,
    fun binding other hafter => ?_, fun binding other hne => ?_⟩
  · rcases hvalues binding other with hsame | ⟨_, hbound, _⟩
    · rwa [hsame]
    · exact hbound
  · rcases hvalues binding other with hsame | ⟨_, _, hbound⟩
    · exact .inl (hsame ▸ hafter)
    · exact .inl hbound
  · rcases hvalues binding other with hsame | ⟨rfl, _, _⟩
    · exact absurd hsame hne
    · exact .inl hname

/-- What is declared in a scope is gone when the scope is closed. -/
theorem pop (h : Changes assigned declared before.push after) (others : List String) :
    Changes assigned others before after.pop := by
  cases after with
  | globals frame =>
    have hdepth := Nat.succ.inj h.depth
    cases before <;> cases hdepth
  | scope frame outer =>
    have hpush (binding : Binding) (name : String) :
        before.push.valueAt? binding.further name = before.valueAt? binding name :=
      Environment.valueAt?_further [] before binding name
    have hpop (binding : Binding) (name : String) :
        (Environment.scope frame outer).valueAt? binding.further name =
          outer.valueAt? binding name :=
      Environment.valueAt?_further frame outer binding name
    have houtside (binding : Binding) : binding.further ≠ before.push.innermost := by
      cases binding <;> exact nofun
    refine ⟨Nat.succ.inj h.depth, fun binding name hbefore => ?_, fun binding name hafter => ?_,
      fun binding name hne => ?_⟩
    · have := h.kept binding.further name
      rw [hpush, hpop] at this
      exact this hbefore
    · have := h.gained binding.further name
      rw [hpush, hpop] at this
      exact .inl ((this hafter).resolve_right fun hwhere => houtside binding hwhere.1)
    · have := h.values binding.further name
      rw [hpush, hpop] at this
      exact .inl ((this hne).resolve_right fun hwhere => houtside binding hwhere.1)

/-- Where nothing may be declared, every frame has the same names as before. -/
theorem sameNames (h : Changes assigned [] before after) : SameNames before after := by
  refine ⟨h.depth, fun binding name => Bool.eq_iff_iff.2 ⟨fun hafter => ?_, h.kept binding name⟩⟩
  exact (h.gained binding name hafter).resolve_right fun hwhere => List.not_mem_nil hwhere.2

end Changes

/-! ### Before and after an action -/

section

variable {ε σ α β : Type} {R R' : σ → σ → Prop} {a : Action ε σ α} {f : α → Action ε σ β}

/-- Whenever the action comes to an end, failed or not, the states before and after are in the
relation. -/
def Moves (R : σ → σ → Prop) (a : Action ε σ α) : Prop :=
  ∀ s answer after, a s = some (answer, after) → R s after

theorem moves_settled (refl : ∀ s, R s s) (answer : Except ε α) : Moves R (settled answer) := by
  intro s _ after h
  cases h
  exact refl s

theorem moves_modify {step : σ → σ} (h : ∀ s, R s (step s)) :
    Moves R (modify step : Action ε σ Unit) := by
  intro s _ after hrun
  cases hrun
  exact h s

theorem moves_bind (trans : ∀ s t u, R s t → R t u → R s u) (h : Moves R a)
    (hf : ∀ x, Moves R (f x)) : Moves R (a >>= f) := by
  intro s answer after hrun
  rw [bind_apply] at hrun
  split at hrun
  · cases hrun
  · next e middle ha =>
    cases hrun
    exact h s _ _ ha
  · next x middle ha => exact trans s middle after (h s _ _ ha) (hf x middle _ _ hrun)

theorem moves_within {enter leave : σ → σ} (h : Moves R' a)
    (hleave : ∀ s after, R' (enter s) after → R s (leave after)) :
    Moves R (within enter leave a) := by
  intro s answer after hrun
  obtain ⟨⟨result, inner⟩, ha, hends⟩ := Option.map_eq_some_iff.1 hrun
  cases hends
  exact hleave s inner (h _ _ _ ha)

theorem moves_loop {exhausted condition body} (refl : ∀ s, R s s)
    (trans : ∀ s t u, R s t → R t u → R s u) (hexhausted : Moves R exhausted)
    (hcondition : Moves R condition) (hbody : Moves R body) (rounds : Nat) :
    Moves R (loop (ε := ε) exhausted condition body rounds) := by
  induction rounds with
  | zero => exact hexhausted
  | succ rounds ih =>
    refine moves_bind trans hcondition fun holds => ?_
    cases holds with
    | false => exact moves_settled refl _
    | true => exact moves_bind trans hbody fun _ => ih

end

/-! ### Expressions and statements -/

/-- The names that a statement can declare in the frame in which it is run: those of its
declarations outside of blocks. -/
def Stmt.exposes : Stmt → List String
  | .block _ => []
  | .expression _ => []
  | .if _ thenBranch none => thenBranch.exposes
  | .if _ thenBranch (some elseBranch) => thenBranch.exposes ++ elseBranch.exposes
  | .print _ => []
  | .var name _ => [name.lexeme]
  | .while _ body => body.exposes

/-- The same of machines. -/
abbrev Alters (assigned declared : List String) (s t : Machine) : Prop :=
  Changes assigned declared s.environment t.environment

section

variable {assigned declared : List String}

theorem alters_trans (s t u : Machine) (h : Alters assigned declared s t)
    (h' : Alters assigned declared t u) : Alters assigned declared s u := h.trans h'

theorem moves_assigning {name : Token} (hname : name.lexeme ∈ assigned) (value : Value) :
    Moves (Alters assigned declared) (assigning (·.assign name value) value) := by
  intro machine answer after hrun
  simp only [assigning, Environment.assign] at hrun
  cases hreplace : machine.environment.replace? name.lexeme value with
  | none =>
    rw [hreplace] at hrun
    cases hrun
    exact .refl _
  | some environment =>
    rw [hreplace] at hrun
    cases hrun
    exact .replace? hname hreplace

theorem moves_define {name : Token} (hname : name.lexeme ∈ declared) (value : Value) :
    Moves (Alters assigned declared) (defineVariable name value) :=
  moves_modify fun machine => .define hname machine.environment value

/-- An expression changes the values of names that are assigned in it, and nothing else. -/
theorem moves_evaluate (expr : Expr) (h : ∀ occurrence ∈ expr.occurrences,
      occurrence.role = .target → occurrence.token.lexeme ∈ assigned) :
    Moves (Alters assigned declared) (evaluating (evaluate expr)) := by
  have refl (machine : Machine) : Alters assigned declared machine machine := .refl _
  induction expr with
  | literal value => exact moves_settled refl _
  | «variable» name =>
    rw [evaluating_variable]
    exact fun machine => moves_settled refl (machine.environment.read name) machine
  | grouping inner ih => exact ih h
  | assign name value ih =>
    obtain ⟨hname, hvalue⟩ := List.forall_mem_cons.1 h
    simp only [evaluate, evaluating_bind, evaluating_assignTo]
    exact moves_bind alters_trans (ih hvalue) (moves_assigning (hname rfl))
  | unary operator operand ih =>
    have hoperand := (List.forall_mem_cons.1 h).2
    simp only [evaluate, evaluating_bind, evaluating_lift]
    exact moves_bind alters_trans (ih hoperand) fun _ => moves_settled refl _
  | binary operator left right ihl ihr =>
    obtain ⟨hleft, hright⟩ := List.forall_mem_append.1 (List.forall_mem_cons.1 h).2
    simp only [evaluate, evaluating_bind, evaluating_lift]
    refine moves_bind alters_trans (ihr hright) fun _ => ?_
    exact moves_bind alters_trans (ihl hleft) fun _ => moves_settled refl _
  | logical operator left right ihl ihr =>
    obtain ⟨hleft, hright⟩ := List.forall_mem_append.1 (List.forall_mem_cons.1 h).2
    simp only [evaluate, evaluating_bind]
    refine moves_bind alters_trans (ihl hleft) fun left => ?_
    cases decidesEarly operator left with
    | true => exact moves_settled refl _
    | false => exact ihr hright

theorem moves_holds (condition : Expr) (h : ∀ occurrence ∈ condition.occurrences,
      occurrence.role = .target → occurrence.token.lexeme ∈ assigned) :
    Moves (Alters assigned declared) (holds condition) :=
  moves_bind alters_trans (moves_evaluate condition h) fun _ => moves_settled (fun _ => .refl _) _

theorem moves_print (value : Value) : Moves (Alters assigned declared) (printLine value) :=
  moves_modify fun _ => .refl _

mutual

/-- **What a statement changes.**  Names that it assigns, and in the innermost frame the names that
it declares outside of its blocks. -/
theorem moves_execute (rounds : Nat) : ∀ (statement : Stmt) (declared : List String),
    (∀ occurrence ∈ statement.occurrences,
      occurrence.role = .target → occurrence.token.lexeme ∈ assigned) →
    statement.exposes ⊆ declared → Moves (Alters assigned declared) (execute rounds statement)
  | .block body, declared, h, _ => by
    have hbody := moves_executeAll rounds body (body.flatMap Stmt.exposes) h
      fun statement hmem _ hname => List.mem_flatMap.2 ⟨statement, hmem, hname⟩
    rw [execute, inScope_eq_within]
    exact moves_within hbody fun _ _ inside => inside.pop declared
  | .expression expr, declared, h, _ => by
    rw [execute]
    exact moves_bind alters_trans (moves_evaluate expr h) fun _ =>
      moves_settled (fun _ => .refl _) _
  | .if condition thenBranch none, declared, h, hexposes => by
    obtain ⟨hcondition, hthen⟩ := List.forall_mem_append.1 h
    rw [execute]
    refine moves_bind alters_trans (moves_holds condition hcondition) fun holds => ?_
    cases holds with
    | true => exact moves_execute rounds thenBranch declared hthen hexposes
    | false => exact moves_settled (fun _ => .refl _) _
  | .if condition thenBranch (some elseBranch), declared, h, hexposes => by
    obtain ⟨hcondition, hbranches⟩ := List.forall_mem_append.1 h
    obtain ⟨hthen, helse⟩ := List.forall_mem_append.1 hbranches
    obtain ⟨hexposes, hexposes'⟩ := List.append_subset.1 hexposes
    rw [execute]
    refine moves_bind alters_trans (moves_holds condition hcondition) fun holds => ?_
    cases holds with
    | true => exact moves_execute rounds thenBranch declared hthen hexposes
    | false => exact moves_execute rounds elseBranch declared helse hexposes'
  | .print expr, declared, h, _ => by
    rw [execute]
    exact moves_bind alters_trans (moves_evaluate expr h) moves_print
  | .var name none, declared, _, hexposes => by
    rw [execute]
    exact moves_define (hexposes List.mem_cons_self) .nil
  | .var name (some value), declared, h, hexposes => by
    have hvalue := (List.forall_mem_cons.1 h).2
    rw [execute]
    exact moves_bind alters_trans (moves_evaluate value hvalue)
      (moves_define (hexposes List.mem_cons_self))
  | .while condition body, declared, h, hexposes => by
    obtain ⟨hcondition, hbody⟩ := List.forall_mem_append.1 h
    rw [execute, iterate_eq_loop]
    have hexhausted : Moves (Alters assigned declared) (fun _ => none : Execution Unit) :=
      fun _ _ _ hrun => by cases hrun
    exact moves_loop (fun _ => .refl _) alters_trans hexhausted (moves_holds condition hcondition)
      (moves_execute rounds body declared hbody hexposes) rounds

theorem moves_executeAll (rounds : Nat) : ∀ (statements : List Stmt) (declared : List String),
    (∀ occurrence ∈ occurrencesAll statements,
      occurrence.role = .target → occurrence.token.lexeme ∈ assigned) →
    (∀ statement ∈ statements, statement.exposes ⊆ declared) →
    Moves (Alters assigned declared) (executeAll rounds statements)
  | [], _, _, _ => by
    rw [executeAll]
    exact moves_settled (fun _ => .refl _) _
  | statement :: rest, declared, h, hexposes => by
    obtain ⟨hfirst, hrest⟩ := List.forall_mem_append.1 h
    obtain ⟨hexposes, hexposes'⟩ := List.forall_mem_cons.1 hexposes
    rw [executeAll]
    exact moves_bind alters_trans (moves_execute rounds statement declared hfirst hexposes) fun _ =>
      moves_executeAll rounds rest declared hrest hexposes'

end

end

/-! ### Programs -/

theorem changes_execute {rounds : Nat} {statement : Stmt} {machine after : Machine}
    {answer : Except RuntimeError Unit}
    (hrun : execute rounds statement machine = some (answer, after)) :
    Changes statement.targets statement.exposes machine.environment after.environment :=
  moves_execute rounds statement statement.exposes
    (fun _ hmem hrole => mem_lexemes hmem (List.mem_singleton.2 hrole)) (fun _ hname => hname)
    machine answer after hrun

theorem changes_evaluate (expr : Expr) (environment : Environment) :
    Changes (lexemes [.target] expr.occurrences) [] environment
      (evaluate expr environment).2 :=
  moves_evaluate expr (fun _ hmem hrole => mem_lexemes hmem (List.mem_singleton.2 hrole))
    { environment } _ _ rfl

/-- A program leaves as many frames as it finds. -/
theorem depth_interpret {rounds : Nat} {statements : List Stmt} {machine last : Machine}
    {errors : List RuntimeError} (h : interpret rounds statements machine = some (errors, last)) :
    last.environment.depth = machine.environment.depth := by
  obtain ⟨_, after, course, _, rfl⟩ := course_of_interpret h
  refine course.moves (R := fun s t => t.environment.depth = s.environment.depth) ?_ ?_ ?_
  · intro s
    rfl
  · intro s t u h h'
    exact h'.trans h
  · intro statement s answer t hrun
    exact (changes_execute hrun).depth

/-- Where calls of `interpret` on one machine stand between statements: the machine is new, or
behind a statement that has come to an end, failed or not, or behind a whole call. -/
inductive Between : Machine → Prop where
  | new (out : Sink) : Between { out }
  | behind {rounds : Nat} {statement : Stmt} {machine after : Machine}
      {answer : Except RuntimeError Unit} (h : Between machine)
      (hrun : execute rounds statement machine = some (answer, after)) : Between after
  | called {rounds : Nat} {statements : List Stmt} {machine after : Machine}
      {errors : List RuntimeError} (h : Between machine)
      (hcall : interpret rounds statements machine = some (errors, after)) : Between after

theorem Between.depth {machine : Machine} (h : Between machine) :
    machine.environment.depth = 1 := by
  induction h with
  | new out => rfl
  | behind _ hrun ih => exact (changes_execute hrun).depth.trans ih
  | called _ hcall ih => exact (depth_interpret hcall).trans ih

/-- **What execution can change.**  Whenever a statement comes to an end, failed or not, there are
as many frames as before.  Each has the names that it had, and the innermost can have gained those
that the statement declares outside of its blocks.  A name has another value only if it is assigned
somewhere in the statement, or is in the innermost frame and so declared.  A block and an expression
give no frame a name, and between the statements of the calls that are made on a new machine, there
is only the global frame. -/
theorem changes_of_execute :
    (∀ (rounds : Nat) (statement : Stmt) (machine after : Machine)
        (answer : Except RuntimeError Unit),
      execute rounds statement machine = some (answer, after) →
        Changes statement.targets statement.exposes machine.environment after.environment) ∧
    (∀ (rounds : Nat) (body : List Stmt) (machine after : Machine)
        (answer : Except RuntimeError Unit),
      execute rounds (.block body) machine = some (answer, after) →
        SameNames machine.environment after.environment) ∧
    (∀ (expr : Expr) (environment : Environment),
      SameNames environment (evaluate expr environment).2) ∧
    ∀ machine, Between machine → ∃ frame, machine.environment = .globals frame :=
  ⟨fun _ _ _ _ _ hrun => changes_execute hrun,
    fun _ _ _ _ _ hrun => (changes_execute hrun).sameNames,
    fun expr environment => (changes_evaluate expr environment).sameNames,
    fun _ h => Environment.exists_globals h.depth⟩

/-- The tree of a block in which a name is assigned and another declared before an error:
`a = true; var b; -a;`. -/
def brokenOff : Stmt :=
  .block
    [.expression (.assign ⟨.identifier, "a", none, 1⟩ (.literal (.bool true))),
      .var ⟨.identifier, "b", none, 2⟩ none,
      .expression (.unary ⟨.symbol .minus, "-", none, 3⟩ (.variable ⟨.identifier, "a", none, 3⟩))]

/-- Behind `var a;` and that block, the scope is closed, and the name has its new value. -/
theorem changes_of_execute_brokenOff :
    let before : Machine := { environment := .globals [("a", .nil)] }
    let after : Machine := { environment := .globals [("a", .bool true)] }
    let answer : Except RuntimeError Unit :=
      .error ⟨⟨.symbol .minus, "-", none, 3⟩, .operandNotNumber⟩
    execute 1 (.var ⟨.identifier, "a", none, 1⟩ none) {} = some (.ok (), before) ∧
      execute 1 brokenOff before = some (answer, after) ∧
      Changes ["a"] [] before.environment after.environment ∧
      SameNames before.environment after.environment ∧
      ∃ frame, after.environment = .globals frame := by
  intro before after answer
  have hdeclare : execute 1 (.var ⟨.identifier, "a", none, 1⟩ none) {} = some (.ok (), before) :=
    rfl
  have hrun : execute 1 brokenOff before = some (answer, after) := rfl
  obtain ⟨hchanges, hblock, -, hbetween⟩ := changes_of_execute
  exact ⟨hdeclare, hrun, hchanges 1 _ _ _ _ hrun, hblock 1 _ _ _ _ hrun,
    hbetween after (.behind (.behind (.new {}) hdeclare) hrun)⟩

end Lox
