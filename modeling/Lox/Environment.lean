import Lox.RuntimeError

/-!
# Environments

The variables of a running program.  A frame binds names to values; an environment is a stack of
frames above the global one, which is always there.

Main definitions:
* `Frame` with `Frame.get?`, `Frame.insert` and `Frame.replace?`: the bindings of one scope;
* `Environment` with `push`, `pop` and `depth`: the frames, innermost first;
* `Environment.define`: binds a name in the innermost frame;
* `Environment.get?` and `Environment.replace?`: the nearest binding of a name;
* `Environment.read` and `Environment.assign`: the same for name tokens, with the error of a name
  that is not bound.
-/

namespace Lox

/-- The bindings of one scope, each name once, in the order in which they were made. -/
abbrev Frame := List (String × Value)

namespace Frame

/-- The value of a name. -/
def get? : Frame → String → Option Value
  | [], _ => none
  | (bound, value) :: rest, name => if bound = name then some value else get? rest name

/-- Binds a name, anew or for the first time. -/
def insert : Frame → String → Value → Frame
  | [], name, value => [(name, value)]
  | (bound, old) :: rest, name, value =>
    if bound = name then (bound, value) :: rest else (bound, old) :: insert rest name value

/-- Gives a bound name another value. -/
def replace? : Frame → String → Value → Option Frame
  | [], _, _ => none
  | (bound, old) :: rest, name, value =>
    if bound = name then some ((bound, value) :: rest)
    else (replace? rest name value).map ((bound, old) :: ·)

@[simp] theorem get?_insert (frame : Frame) (name other : String) (value : Value) :
    (frame.insert name value).get? other =
      if name = other then some value else frame.get? other := by
  induction frame with
  | nil => rfl
  | cons binding rest ih =>
    obtain ⟨bound, old⟩ := binding
    by_cases h : bound = name
    · subst h
      by_cases ho : bound = other <;> simp [insert, get?, ho]
    · by_cases ho : bound = other
      · subst ho
        simp [insert, get?, h, Ne.symm h]
      · simp [insert, get?, h, ho, ih]

/-- A name can be given another value exactly when it is bound. -/
theorem replace?_eq_none {frame : Frame} {name : String} {value : Value} :
    frame.replace? name value = none ↔ frame.get? name = none := by
  induction frame with
  | nil => simp [replace?, get?]
  | cons binding rest ih =>
    obtain ⟨bound, old⟩ := binding
    by_cases h : bound = name <;> simp [replace?, get?, h, ih]

theorem get?_replace? {frame after : Frame} {name : String} {value : Value}
    (h : frame.replace? name value = some after) (other : String) :
    after.get? other = if name = other then some value else frame.get? other := by
  induction frame generalizing after with
  | nil => cases h
  | cons binding rest ih =>
    obtain ⟨bound, old⟩ := binding
    by_cases hb : bound = name
    · subst hb
      simp only [replace?, ↓reduceIte, Option.some.injEq] at h
      subst h
      by_cases ho : bound = other <;> simp [get?, ho]
    · simp only [replace?, if_neg hb, Option.map_eq_some_iff] at h
      obtain ⟨changed, hc, rfl⟩ := h
      by_cases ho : bound = other
      · subst ho
        simp [get?, Ne.symm hb]
      · simp [get?, ho, ih hc]

end Frame

/-- The frames of a running program: the global frame, or a scope inside an environment. -/
inductive Environment where
  | globals (frame : Frame)
  | scope (frame : Frame) (outer : Environment)
  deriving DecidableEq

namespace Environment

/-- Where a program starts: nothing is bound. -/
def empty : Environment := .globals []

/-- How many frames there are, the global one counted. -/
def depth : Environment → Nat
  | .globals _ => 1
  | .scope _ outer => outer.depth + 1

/-- Opens a scope. -/
def push (environment : Environment) : Environment := .scope [] environment

/-- Closes the innermost scope.  The global frame stays. -/
def pop : Environment → Environment
  | .globals frame => .globals frame
  | .scope _ outer => outer

/-- Binds a name in the innermost frame, anew or for the first time. -/
def define : Environment → String → Value → Environment
  | .globals frame, name, value => .globals (frame.insert name value)
  | .scope frame outer, name, value => .scope (frame.insert name value) outer

/-- The value of the nearest binding of a name. -/
def get? : Environment → String → Option Value
  | .globals frame, name => frame.get? name
  | .scope frame outer, name =>
    match frame.get? name with
    | some value => some value
    | none => outer.get? name

/-- Gives the nearest binding of a name another value. -/
def replace? : Environment → String → Value → Option Environment
  | .globals frame, name, value => (frame.replace? name value).map .globals
  | .scope frame outer, name, value =>
    match frame.replace? name value with
    | some frame => some (.scope frame outer)
    | none => (outer.replace? name value).map (.scope frame)

/-- The value of a variable. -/
def read (environment : Environment) (name : Token) : Except RuntimeError Value :=
  match environment.get? name.lexeme with
  | some value => .ok value
  | none => .error ⟨name, .undefinedVariable⟩

/-- The environment after an assignment to a variable.  An assignment binds no new name. -/
def assign (environment : Environment) (name : Token) (value : Value) :
    Except RuntimeError Environment :=
  match environment.replace? name.lexeme value with
  | some environment => .ok environment
  | none => .error ⟨name, .undefinedVariable⟩

/-! ### Laws of operations -/

@[simp] theorem pop_push (environment : Environment) : environment.push.pop = environment := rfl

@[simp] theorem depth_push (environment : Environment) :
    environment.push.depth = environment.depth + 1 := rfl

@[simp] theorem depth_define (environment : Environment) (name : String) (value : Value) :
    (environment.define name value).depth = environment.depth := by
  cases environment <;> rfl

@[simp] theorem get?_push (environment : Environment) (name : String) :
    environment.push.get? name = environment.get? name := rfl

@[simp] theorem get?_define (environment : Environment) (name other : String) (value : Value) :
    (environment.define name value).get? other =
      if name = other then some value else environment.get? other := by
  cases environment with
  | globals frame => simp [define, get?]
  | scope frame outer => by_cases h : name = other <;> simp [define, get?, h]

/-- A name can be given another value exactly when some frame binds it. -/
theorem replace?_eq_none {environment : Environment} {name : String} {value : Value} :
    environment.replace? name value = none ↔ environment.get? name = none := by
  induction environment with
  | globals frame => simp [replace?, get?, Frame.replace?_eq_none]
  | scope frame outer ih =>
    cases hr : frame.replace? name value with
    | none => simp [replace?, get?, hr, Frame.replace?_eq_none.1 hr, ih]
    | some after =>
      cases hg : frame.get? name with
      | none => rw [Frame.replace?_eq_none.2 hg] at hr; cases hr
      | some old => simp [replace?, get?, hr, hg]

theorem get?_replace? {environment after : Environment} {name : String} {value : Value}
    (h : environment.replace? name value = some after) (other : String) :
    after.get? other = if name = other then some value else environment.get? other := by
  induction environment generalizing after with
  | globals frame =>
    obtain ⟨changed, hc, rfl⟩ := Option.map_eq_some_iff.1 h
    exact Frame.get?_replace? hc other
  | scope frame outer ih =>
    cases hr : frame.replace? name value with
    | some changed =>
      simp only [replace?, hr, Option.some.injEq] at h
      subst h
      by_cases ho : name = other <;> simp [get?, Frame.get?_replace? hr, ho]
    | none =>
      simp only [replace?, hr, Option.map_eq_some_iff] at h
      obtain ⟨changed, hc, rfl⟩ := h
      have unbound := Frame.replace?_eq_none.1 hr
      by_cases ho : name = other
      · subst ho
        simp [get?, unbound, ih hc]
      · simp [get?, ih hc, ho]

theorem depth_replace? {environment after : Environment} {name : String} {value : Value}
    (h : environment.replace? name value = some after) : after.depth = environment.depth := by
  induction environment generalizing after with
  | globals frame =>
    obtain ⟨changed, _, rfl⟩ := Option.map_eq_some_iff.1 h
    rfl
  | scope frame outer ih =>
    simp only [replace?] at h
    split at h
    · cases h; rfl
    · obtain ⟨changed, hc, rfl⟩ := Option.map_eq_some_iff.1 h
      simp [depth, ih hc]

end Environment

end Lox
