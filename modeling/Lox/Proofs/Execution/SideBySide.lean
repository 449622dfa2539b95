import Lox.Execution

/-!
# Runs side by side

Two programs that do the same in different settings are compared step by step.  Their states are in
a relation before a step, and if the first comes to an end so does the second, with states that are
again in a relation.

* `Action`: a step that may fail and that may have no result, over any states and errors;
* `loop` and `within`: the ways in which statements are built from others, for any states;
* `Relates`: two actions side by side;
* `relates_bind`, `relates_loop`, `relates_within` and the like: one rule for each way to build
  actions;
* `evaluating_bind`, `iterate_eq_loop`, `inScope_eq_within`: the steps of a program are such
  actions.
-/

namespace Lox

/-- A step over states of some type: no result at all, or a failure or a value and the state
afterwards. -/
abbrev Action (ε σ α : Type) : Type := ExceptT ε (StateT σ Option) α

section

variable {ε ε' σ τ α α' β β' : Type}

/-! ### Ways to build actions -/

/-- What is already an answer or an error. -/
def settled (answer : Except ε α) : Action ε σ α := fun s => some (answer, s)

/-- A loop that can take a number of rounds, and what it does when they are used up. -/
def loop (exhausted : Action ε σ Unit) (condition : Action ε σ Bool) (body : Action ε σ Unit) :
    Nat → Action ε σ Unit
  | 0 => exhausted
  | rounds + 1 => do
    if ← condition then
      body
      loop exhausted condition body rounds

/-- An action between two changes of the state.  The second takes place whether the action fails
or not. -/
def within (enter leave : σ → σ) (action : Action ε σ α) : Action ε σ α := fun s =>
  (action (enter s)).map fun (result, after) => (result, leave after)

theorem bind_apply (a : Action ε σ α) (f : α → Action ε σ β) (s : σ) :
    (a >>= f) s =
      match a s with
      | none => none
      | some (.error e, after) => some (.error e, after)
      | some (.ok x, after) => f x after := by
  simp only [bind, ExceptT.bind, ExceptT.mk, StateT.bind, ExceptT.bindCont, Option.bind]
  cases a s with
  | none => rfl
  | some answer =>
    obtain ⟨result, after⟩ := answer
    cases result <;> rfl

/-! ### The relation -/

/-- Answers that fit each other, or are both missing, do so after they were changed alike. -/
theorem optionRel_map {Q : α → α' → Prop} {Q' : β → β' → Prop} {f : α → β} {f' : α' → β'}
    {x : Option α} {x' : Option α'} (h : Option.Rel Q x x')
    (hmap : ∀ a a', Q a a' → Q' (f a) (f' a')) : Option.Rel Q' (x.map f) (x'.map f') := by
  cases h with
  | none => exact .none
  | some h => exact .some (hmap _ _ h)

/-- Two ends that fit each other: values that do, or ways to fail that do.  Having no result counts
as a way to fail. -/
inductive Alike (Q : α → α' → σ → τ → Prop) (F : Option (ε × σ) → Option (ε' × τ) → Prop) :
    Option (Except ε α × σ) → Option (Except ε' α' × τ) → Prop where
  | done {x x' s t} (h : Q x x' s t) : Alike Q F (some (.ok x, s)) (some (.ok x', t))
  | failed {f f'} (h : F f f') :
    Alike Q F (f.map fun (e, s) => (.error e, s)) (f'.map fun (e, s) => (.error e, s))

/-- **Two actions side by side.**  From states in the relation `P` they come to ends that fit, where
`Q` tells which values and states fit and `F` which failures do. -/
def Relates (P : σ → τ → Prop) (a : Action ε σ α) (b : Action ε' τ α')
    (Q : α → α' → σ → τ → Prop) (F : Option (ε × σ) → Option (ε' × τ) → Prop) : Prop :=
  ∀ s t, P s t → Alike Q F (a s) (b t)

/-- Values that are the same, and states in a relation. -/
def Equally (P : σ → τ → Prop) (x x' : α) (s : σ) (t : τ) : Prop := x = x' ∧ P s t

/-- Errors that fit, and states in a relation.  If one side has no result, neither has the other. -/
abbrev Failing (E : ε → ε' → Prop) (P : σ → τ → Prop) :
    Option (ε × σ) → Option (ε' × τ) → Prop :=
  Option.Rel fun failure failure' => E failure.1 failure'.1 ∧ P failure.2 failure'.2

variable {P P' : σ → τ → Prop} {Q Q' : α → α' → σ → τ → Prop} {R : β → β' → σ → τ → Prop}
  {F F' : Option (ε × σ) → Option (ε' × τ) → Prop} {a : Action ε σ α} {b : Action ε' τ α'}

theorem alike_none (h : F none none) : Alike Q F none none := .failed h

theorem alike_error {e : ε} {e' : ε'} {s : σ} {t : τ} (h : F (some (e, s)) (some (e', t))) :
    Alike Q F (some (.error e, s)) (some (.error e', t)) :=
  .failed h

/-- Errors that fit are ways to fail that do. -/
theorem error_of_alike {E : ε → ε' → Prop} {e : ε} {e' : ε'} {s : σ} {t : τ}
    (h : Alike Q (Failing E P) (some (.error e, s)) (some (.error e', t))) : E e e' ∧ P s t := by
  generalize hleft : some ((.error e : Except ε α), s) = left,
    hright : some ((.error e' : Except ε' α'), t) = right at h
  cases h with
  | done _ => cases hleft
  | failed fails =>
    cases fails with
    | none => cases hleft
    | some fails =>
      cases hleft
      cases hright
      exact fails

theorem relates_mono (h : Relates P a b Q F) (hp : ∀ s t, P' s t → P s t)
    (hq : ∀ x x' s t, Q x x' s t → Q' x x' s t) (hf : ∀ f f', F f f' → F' f f') :
    Relates P' a b Q' F' := by
  intro s t before
  have ends := h s t (hp s t before)
  generalize a s = left, b t = right at ends
  cases ends with
  | done h => exact .done (hq _ _ _ _ h)
  | failed h => exact .failed (hf _ _ h)

theorem relates_pure {x : α} {x' : α'} (h : ∀ s t, P s t → Q x x' s t) :
    Relates P (pure x : Action ε σ α) (pure x' : Action ε' τ α') Q F :=
  fun s t before => .done (h s t before)

theorem relates_modify {f : σ → σ} {g : τ → τ} {Q : Unit → Unit → σ → τ → Prop}
    (h : ∀ s t, P s t → Q () () (f s) (g t)) :
    Relates P (modify f : Action ε σ Unit) (modify g : Action ε' τ Unit) Q F :=
  fun s t before => .done (h s t before)

theorem relates_bind {f : α → Action ε σ β} {g : α' → Action ε' τ β'} (h : Relates P a b Q F)
    (hf : ∀ x x', Relates (Q x x') (f x) (g x') R F) : Relates P (a >>= f) (b >>= g) R F := by
  intro s t before
  rw [bind_apply, bind_apply]
  have ends := h s t before
  generalize a s = left, b t = right at ends
  cases ends with
  | done h => exact hf _ _ _ _ h
  | @failed u v h =>
    cases u <;> cases v <;> exact .failed h

theorem relates_bind_equally {a : Action ε σ α} {b : Action ε' τ α} {f : α → Action ε σ β}
    {g : α → Action ε' τ β'} (h : Relates P a b (Equally P') F)
    (hf : ∀ x, Relates P' (f x) (g x) R F) : Relates P (a >>= f) (b >>= g) R F := by
  refine relates_bind h fun x x' => ?_
  rintro s t ⟨rfl, between⟩
  exact hf x s t between

theorem relates_settled {translate : ε' → ε} (answer : Except ε' α)
    (h : ∀ e s t, P s t → F (some (translate e, s)) (some (e, t))) :
    Relates P (settled (answer.mapError translate) : Action ε σ α)
      (settled answer : Action ε' τ α) (Equally P) F := by
  intro s t before
  cases answer with
  | error e => exact alike_error (h e s t before)
  | ok x => exact .done ⟨rfl, before⟩

/-- An answer beside itself. -/
theorem relates_settled_self {E : ε → ε → Prop} {answer : Except ε α}
    (h : ∀ e, answer = .error e → E e e) :
    Relates P (settled answer : Action ε σ α) (settled answer : Action ε τ α) (Equally P)
      (Failing E P) := by
  intro s t before
  cases answer with
  | error e => exact alike_error (.some ⟨h e rfl, before⟩)
  | ok x => exact .done ⟨rfl, before⟩

theorem relates_within {enter leave : σ → σ} {enter' leave' : τ → τ}
    (h : Relates P' a b Q' F') (hp : ∀ s t, P s t → P' (enter s) (enter' t))
    (hq : ∀ x x' s t, Q' x x' s t → Q x x' (leave s) (leave' t))
    (hf : ∀ f f', F' f f' → F (f.map (Prod.map id leave)) (f'.map (Prod.map id leave'))) :
    Relates P (within enter leave a) (within enter' leave' b) Q F := by
  intro s t before
  show Alike Q F ((a (enter s)).map _) ((b (enter' t)).map _)
  have ends := h _ _ (hp s t before)
  generalize a (enter s) = left, b (enter' t) = right at ends
  cases ends with
  | done h => exact .done (hq _ _ _ _ h)
  | @failed u v h =>
    have fits := Alike.failed (Q := Q) (hf _ _ h)
    cases u <;> cases v <;> exact fits

/-- Loops fit when their conditions, their bodies and their ways to end early do.  What holds
between rounds holds at the end. -/
theorem relates_loop {exhausted : Action ε σ Unit} {exhausted' : Action ε' τ Unit}
    {condition : Action ε σ Bool} {condition' : Action ε' τ Bool} {body : Action ε σ Unit}
    {body' : Action ε' τ Unit} (hexhausted : Relates P exhausted exhausted' (fun _ _ => P) F)
    (hcondition : Relates P condition condition' (Equally P) F)
    (hbody : Relates P body body' (fun _ _ => P) F) (rounds : Nat) :
    Relates P (loop exhausted condition body rounds) (loop exhausted' condition' body' rounds)
      (fun _ _ => P) F := by
  induction rounds with
  | zero => exact hexhausted
  | succ rounds ih =>
    refine relates_bind_equally hcondition fun holds => ?_
    cases holds with
    | false => exact relates_pure fun _ _ h => h
    | true => exact relates_bind hbody fun _ _ => ih

end

/-! ### Steps of programs -/

/-- A look at the variables. -/
def reading (look : Environment → Except RuntimeError Value) : Execution Value := fun machine =>
  some (look machine.environment, machine)

/-- A change of the variables that gives one of them a value, which is also the answer. -/
def assigning (change : Environment → Except RuntimeError Environment) (value : Value) :
    Execution Value := fun machine =>
  match change machine.environment with
  | .ok environment => some (.ok value, { machine with environment })
  | .error e => some (.error e, machine)

namespace Machine

/-- Opens a scope. -/
def entering (machine : Machine) : Machine :=
  { machine with environment := machine.environment.push }

/-- Closes the innermost scope. -/
def leaving (machine : Machine) : Machine :=
  { machine with environment := machine.environment.pop }

/-- Writes a line. -/
def printing (value : Value) (machine : Machine) : Machine :=
  { machine with out := (machine.out.write (value.display ++ "\n").toUTF8).2 }

/-- Binds a name in the innermost frame. -/
def defining (name : Token) (value : Value) (machine : Machine) : Machine :=
  { machine with environment := machine.environment.define name.lexeme value }

/-- Flushes the output. -/
def flushing (machine : Machine) : Machine := { machine with out := machine.out.flush.2 }

end Machine

theorem evaluating_bind {α β : Type} (a : Evaluation α) (f : α → Evaluation β) :
    evaluating (a >>= f) = evaluating a >>= fun x => evaluating (f x) := by
  funext machine
  rw [bind_apply]
  simp only [evaluating, bind, ExceptT.bind, ExceptT.mk, StateT.bind, ExceptT.bindCont]
  obtain ⟨result, environment⟩ := a machine.environment
  cases result <;> rfl

theorem evaluating_lift {α : Type} (answer : Except RuntimeError α) :
    evaluating (liftM answer) = settled answer := by
  funext machine
  cases answer <;> rfl

theorem evaluating_variable (name : Token) :
    evaluating (evaluate (.variable name)) = reading (·.read name) := by
  funext machine
  show evaluating (get >>= fun environment => liftM (environment.read name)) machine = _
  rw [evaluating_bind, bind_apply]
  show evaluating (liftM (machine.environment.read name)) machine = _
  rw [evaluating_lift]
  rfl

theorem evaluating_assignTo (name : Token) (value : Value) :
    evaluating (assignTo name value) = assigning (·.assign name value) value := by
  funext machine
  show evaluating (get >>= fun environment => liftM (environment.assign name value) >>= fun after =>
    set after >>= fun _ => pure value) machine = _
  rw [evaluating_bind, bind_apply]
  show evaluating (liftM (machine.environment.assign name value) >>= fun after =>
    set after >>= fun _ => pure value) machine = _
  rw [evaluating_bind, evaluating_lift, bind_apply]
  simp only [settled, assigning]
  cases machine.environment.assign name value <;> rfl

theorem iterate_eq_loop (condition : Execution Bool) (body : Execution Unit) (rounds : Nat) :
    iterate condition body rounds = loop (fun _ => none) condition body rounds := by
  induction rounds with
  | zero => rfl
  | succ rounds ih =>
    funext machine
    show _ = (condition >>= _) machine
    rw [iterate, bind_apply]
    cases condition machine with
    | none => rfl
    | some answer =>
      rcases answer with ⟨e | holds, before⟩
      · rfl
      cases holds with
      | false => rfl
      | true =>
        show _ = (body >>= _) before
        rw [bind_apply, ih]
        dsimp only
        cases body before with
        | none => rfl
        | some answer =>
          obtain ⟨result, after⟩ := answer
          cases result <;> rfl

theorem inScope_eq_within (action : Execution Unit) :
    inScope action = within Machine.entering Machine.leaving action := by
  funext machine
  simp only [inScope, within, Machine.entering, Machine.leaving]
  cases action { machine with environment := machine.environment.push } <;> rfl

end Lox
