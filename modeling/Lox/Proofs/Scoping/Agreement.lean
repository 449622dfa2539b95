import Lox.Proofs.Scoping.Run

/-!
# Frames and blocks

The frames of a running program are those of the blocks that are open, and each binds exactly the
names that its block has declared so far.  So a search from the innermost frame outwards finds a
name where the text says it is.

* `Scopes.Agree`: the frames bind what the blocks have declared, which each step of a program
  preserves (`agree_push`, `agree_define`, `agree_assign`, `agree_pop`);
* `holder?_of_agree`: where frames and blocks agree, a search picks the frame that the text tells;
* `Access.Lexical` and `lexical_of_agree`: what this means for an access.
-/

namespace Lox

/-! ### Frames and blocks -/

namespace Scopes

/-- The scopes behind a statement that declares names. -/
def declare (names : List String) : Scopes → Scopes
  | [] => []
  | declared :: outer => (names ++ declared) :: outer

theorem declare_nil (scopes : Scopes) : scopes.declare [] = scopes := by
  cases scopes <;> rfl

theorem declare_declare (scopes : Scopes) (names more : List String) :
    (scopes.declare names).declare more = scopes.declare (more ++ names) := by
  cases scopes with
  | nil => rfl
  | cons declared outer => simp [declare]

/-- The frames above the global one are those of the blocks, and each binds the names that its
block has declared. -/
inductive Agree : Scopes → Environment → Prop where
  | globals (frame : Frame) : Agree [] (.globals frame)
  | scope {declared : List String} {outer : Scopes} {frame : Frame} {environment : Environment}
      (here : ∀ name, (frame.get? name).isSome ↔ name ∈ declared)
      (further : Agree outer environment) : Agree (declared :: outer) (.scope frame environment)

end Scopes

namespace Environment

variable {scopes outer : Scopes} {declared : List String} {environment after : Environment}

theorem agree_push (h : scopes.Agree environment) : Scopes.Agree ([] :: scopes) environment.push :=
  .scope (fun name => by simp [Frame.get?]) h

theorem agree_pop (h : Scopes.Agree (declared :: outer) environment) :
    outer.Agree environment.pop := by
  cases h with
  | scope here further => exact further

theorem agree_define (h : scopes.Agree environment) (name : String) (value : Value) :
    (scopes.declare [name]).Agree (environment.define name value) := by
  cases h with
  | globals frame => exact .globals _
  | scope here further =>
    refine .scope (fun other => ?_) further
    by_cases hname : name = other
    · simp [hname]
    · simp [hname, Ne.symm hname, here other]

theorem agree_replace? {name : String} {value : Value} (h : scopes.Agree environment)
    (hreplace : environment.replace? name value = some after) : scopes.Agree after := by
  induction h generalizing after with
  | globals frame =>
    obtain ⟨changed, _, rfl⟩ := Option.map_eq_some_iff.1 hreplace
    exact .globals changed
  | scope here further ih =>
    simp only [replace?] at hreplace
    split at hreplace
    · next changed hc =>
      cases hreplace
      refine .scope (fun other => ?_) further
      have bound : Frame.get? _ name ≠ none := fun unbound => by
        rw [Frame.replace?_eq_none.2 unbound] at hc
        cases hc
      rw [← here other, Frame.get?_replace? hc]
      by_cases hname : name = other
      · simp [← hname, Option.isSome_iff_ne_none, bound]
      · simp [hname]
    · obtain ⟨changed, hc, rfl⟩ := Option.map_eq_some_iff.1 hreplace
      exact .scope here (ih hc)

theorem agree_assign {name : Token} {value : Value} (h : scopes.Agree environment)
    (hassign : environment.assign name value = .ok after) : scopes.Agree after := by
  unfold assign at hassign
  split at hassign
  · next hreplace =>
    cases hassign
    exact agree_replace? h hreplace
  · cases hassign

/-- The frame that a search picks, told by the text.  Only whether a global variable is there is
left to see. -/
theorem holder?_of_agree (h : scopes.Agree environment) (name : String) :
    environment.holder? name =
      match scopes.binding name with
      | .block distance => some (.block distance)
      | .global => if (environment.valueAt? .global name).isSome then some .global else none := by
  induction h with
  | globals frame => rfl
  | @scope declared outer frame environment here further ih =>
    simp only [holder?, Scopes.binding, here name]
    by_cases hname : name ∈ declared
    · simp only [if_pos hname]
    · simp only [if_neg hname, ih]
      cases Scopes.binding outer name with
      | block distance => rfl
      | global =>
        simp only [Binding.further, valueAt?]
        by_cases hglobal : (environment.valueAt? .global name).isSome <;>
          simp [hglobal, Binding.further]

/-- Where frames and blocks agree, a look at the frame that the text tells finds what a search
finds. -/
theorem readAt_of_agree (h : scopes.Agree environment) (name : Token) :
    environment.readAt (scopes.binding name.lexeme) name = environment.read name := by
  have hget := environment.get?_eq_valueAt? name.lexeme
  rw [holder?_of_agree h] at hget
  simp only [readAt, read, hget]
  cases scopes.binding name.lexeme with
  | block distance => rfl
  | global => cases hvalue : environment.valueAt? .global name.lexeme <;> simp [hvalue]

theorem replaceAt?_eq_none (environment : Environment) (binding : Binding) (name : String)
    (value : Value) :
    environment.replaceAt? binding name value = none ↔
      environment.valueAt? binding name = none := by
  induction environment generalizing binding with
  | globals frame => cases binding <;> simp [replaceAt?, valueAt?, Frame.replace?_eq_none]
  | scope frame outer ih =>
    cases binding with
    | global => simp [replaceAt?, valueAt?, ih]
    | block distance =>
      cases distance <;> simp [replaceAt?, valueAt?, Frame.replace?_eq_none, ih]

/-- An assignment there does what it does after a search. -/
theorem assignAt_of_agree (h : scopes.Agree environment) (name : Token) (value : Value) :
    environment.assignAt (scopes.binding name.lexeme) name value =
      environment.assign name value := by
  have hreplace := environment.replace?_eq_replaceAt? name.lexeme value
  rw [holder?_of_agree h] at hreplace
  simp only [assignAt, assign, hreplace]
  cases scopes.binding name.lexeme with
  | block distance => rfl
  | global =>
    cases hvalue : environment.valueAt? .global name.lexeme with
    | some old => rfl
    | none => simp [(environment.replaceAt?_eq_none .global name.lexeme value).2 hvalue]

end Environment

/-! ### Accesses -/

/-- What an access does where scoping is lexical: the search picks the frame of the block that the
text tells, or the global frame, and it fails exactly when it is sent to the global frame and that
frame does not bind the name. -/
structure Access.Lexical (access : Access) : Prop where
  block : ∀ distance, access.binding = .block distance →
    access.environment.holder? access.name.lexeme = some (.block distance)
  global : access.binding = .global →
    access.environment.holder? access.name.lexeme =
      if (access.environment.valueAt? .global access.name.lexeme).isSome then some .global else none
  read_fails : access.environment.read access.name = .error ⟨access.name, .undefinedVariable⟩ ↔
    access.binding = .global ∧ access.environment.valueAt? .global access.name.lexeme = none
  assign_fails : ∀ value,
    access.environment.assign access.name value = .error ⟨access.name, .undefinedVariable⟩ ↔
      access.binding = .global ∧ access.environment.valueAt? .global access.name.lexeme = none

theorem Environment.holder?_eq_none (environment : Environment) (name : String) :
    environment.holder? name = none ↔ environment.get? name = none := by
  induction environment with
  | globals frame => cases h : frame.get? name <;> simp [holder?, get?, h]
  | scope frame outer ih => cases h : frame.get? name <;> simp [holder?, get?, h, ih]

theorem Environment.read_eq_error (environment : Environment) (name : Token) :
    environment.read name = .error ⟨name, .undefinedVariable⟩ ↔
      environment.holder? name.lexeme = none := by
  rw [holder?_eq_none]
  cases h : environment.get? name.lexeme <;> simp [read, h]

theorem Environment.assign_eq_error (environment : Environment) (name : Token) (value : Value) :
    environment.assign name value = .error ⟨name, .undefinedVariable⟩ ↔
      environment.holder? name.lexeme = none := by
  rw [holder?_eq_none, ← replace?_eq_none]
  cases h : environment.replace? name.lexeme value <;> simp [assign, h]

theorem lexical_of_agree {scopes : Scopes} {environment : Environment}
    (h : scopes.Agree environment) (name : Token) :
    Access.Lexical ⟨name, scopes.binding name.lexeme, environment⟩ := by
  have hholder := Environment.holder?_of_agree h name.lexeme
  have unbound : environment.holder? name.lexeme = none ↔
      scopes.binding name.lexeme = .global ∧ environment.valueAt? .global name.lexeme = none := by
    rw [hholder]
    cases scopes.binding name.lexeme with
    | block distance => simp
    | global => cases environment.valueAt? .global name.lexeme <;> simp
  refine ⟨?_, ?_, ?_, ?_⟩
  · intro distance hbinding
    rw [hholder, show scopes.binding name.lexeme = .block distance from hbinding]
  · intro hbinding
    rw [hholder, show scopes.binding name.lexeme = .global from hbinding]
  · exact (environment.read_eq_error name).trans unbound
  · intro value
    exact (environment.assign_eq_error name value).trans unbound

end Lox
