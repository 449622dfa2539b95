import Lox.Proofs.Effects.Mentioned
import Lox.Proofs.RuntimeErrors.Faults

/-!
# Programs with other names

Each name of a program is replaced by another, different names by different ones, and so are the
names in its environment.  The program then does the same: names are looked up by the whole name,
and no value is ever made of one.  Only the error of a variable that is not bound tells the new
name.

* `Token.renamed`, `Frame.renamed`, `Environment.renamed`, `RuntimeError.renamed`: what becomes of
  names, variables and errors;
* `Frame.get?_renamed` up to `Environment.replace?_renamed`: looking up and binding new names is
  looking up and binding the old ones;
* `read_renamed` and `assign_renamed`: the same for name tokens, with their errors;
* `replaces_renamed`: so each step of a program does the same with the new names;
* `names_are_only_names`: the main result.
-/

namespace Lox

/-! ### What becomes of names -/

section

variable (r : String → String)

/-- A name token with another name. -/
def Token.renamed (name : Token) : Token := { name with lexeme := r name.lexeme }

/-- A frame that binds the new names to the values of the old ones. -/
def Frame.renamed (frame : Frame) : Frame := frame.map (Prod.map r id)

/-- An environment with the new names in each frame. -/
def Environment.renamed : Environment → Environment
  | .globals frame => .globals (frame.renamed r)
  | .scope frame outer => .scope (frame.renamed r) outer.renamed

/-- A machine with the new names in its environment. -/
def Machine.renamed (machine : Machine) : Machine :=
  { machine with environment := machine.environment.renamed r }

/-- An error that tells the new name, if it is about a name at all. -/
def RuntimeError.renamed (e : RuntimeError) : RuntimeError :=
  match e.cause with
  | .undefinedVariable => { e with token := e.token.renamed r }
  | _ => e

end

variable {r : String → String}

theorem RuntimeError.message_renamed {e : RuntimeError} (h : e.cause = .undefinedVariable) :
    (e.renamed r).message = "Undefined variable '" ++ r e.token.lexeme ++ "'." := by
  obtain ⟨token, cause⟩ := e
  subst h
  rfl

/-- An error of an operator is about no name. -/
theorem renamed_of_blames {e : RuntimeError} {role : Role} {token : Token}
    (h : Blames e ⟨role, token⟩) (hrole : role ∉ Role.ofNames) : e.renamed r = e := by
  cases h with
  | undefinedVariable | undefinedTarget => exact absurd (by simp [Role.ofNames]) hrole
  | _ => rfl

/-! ### Frames and environments -/

namespace Frame

theorem get?_renamed (hr : Function.Injective r) (frame : Frame) (name : String) :
    (frame.renamed r).get? (r name) = frame.get? name := by
  induction frame with
  | nil => rfl
  | cons binding rest ih =>
    obtain ⟨bound, value⟩ := binding
    show (if r bound = r name then some value else (renamed r rest).get? (r name)) = _
    rw [ih, Frame.get?]
    simp only [hr.eq_iff]

theorem insert_renamed (hr : Function.Injective r) (frame : Frame) (name : String)
    (value : Value) :
    (frame.renamed r).insert (r name) value = (frame.insert name value).renamed r := by
  induction frame with
  | nil => rfl
  | cons binding rest ih =>
    obtain ⟨bound, old⟩ := binding
    show (if r bound = r name then (r bound, value) :: renamed r rest
      else (r bound, old) :: (renamed r rest).insert (r name) value) = _
    rw [ih, Frame.insert]
    simp only [hr.eq_iff]
    split <;> rfl

theorem replace?_renamed (hr : Function.Injective r) (frame : Frame) (name : String)
    (value : Value) :
    (frame.renamed r).replace? (r name) value = (frame.replace? name value).map (renamed r) := by
  induction frame with
  | nil => rfl
  | cons binding rest ih =>
    obtain ⟨bound, old⟩ := binding
    show (if r bound = r name then some ((r bound, value) :: renamed r rest)
      else ((renamed r rest).replace? (r name) value).map ((r bound, old) :: ·)) = _
    rw [ih, Frame.replace?]
    simp only [hr.eq_iff]
    split
    · rfl
    · rw [Option.map_map, Option.map_map]
      rfl

end Frame

namespace Environment

theorem get?_renamed (hr : Function.Injective r) (environment : Environment) (name : String) :
    (environment.renamed r).get? (r name) = environment.get? name := by
  induction environment with
  | globals frame => exact frame.get?_renamed hr name
  | scope frame outer ih => simp only [renamed, get?, frame.get?_renamed hr, ih]

theorem define_renamed (hr : Function.Injective r) (environment : Environment) (name : String)
    (value : Value) :
    (environment.renamed r).define (r name) value = (environment.define name value).renamed r := by
  cases environment <;> simp only [renamed, define, Frame.insert_renamed hr]

theorem replace?_renamed (hr : Function.Injective r) (environment : Environment) (name : String)
    (value : Value) :
    (environment.renamed r).replace? (r name) value =
      (environment.replace? name value).map (renamed r) := by
  induction environment with
  | globals frame =>
    simp only [renamed, replace?, frame.replace?_renamed hr, Option.map_map]
    rfl
  | scope frame outer ih =>
    simp only [renamed, replace?, frame.replace?_renamed hr]
    cases frame.replace? name value with
    | some changed => rfl
    | none =>
      -- the name is not in this frame, and both go on further out
      simp only [Option.map_none, ih, Option.map_map]
      rfl

theorem pop_renamed (environment : Environment) :
    (environment.renamed r).pop = environment.pop.renamed r := by
  cases environment <;> rfl

theorem read_renamed (hr : Function.Injective r) (environment : Environment) (name : Token) :
    (environment.renamed r).read (name.renamed r) =
      (environment.read name).mapError (RuntimeError.renamed r) := by
  simp only [read, Token.renamed, environment.get?_renamed hr]
  cases environment.get? name.lexeme <;> rfl

theorem assign_renamed (hr : Function.Injective r) (environment : Environment) (name : Token)
    (value : Value) :
    (environment.renamed r).assign (name.renamed r) value =
      ((environment.assign name value).map (renamed r)).mapError (RuntimeError.renamed r) := by
  simp only [assign, Token.renamed, environment.replace?_renamed hr]
  cases environment.replace? name.lexeme value <;> rfl

end Environment

/-! ### Machines side by side -/

/-- The machine with the new names beside the one with the old ones. -/
abbrev Renamed (r : String → String) (s t : Machine) : Prop := s = t.renamed r

/-- An error with the new name beside the one with the old name. -/
abbrev FailsRenamed (r : String → String) (e e' : RuntimeError) : Prop := e = e'.renamed r

theorem renamed_reading (hr : Function.Injective r) (name : Token) :
    Relates (Renamed r) (reading (·.read (name.renamed r))) (reading (·.read name))
      (Equally (Renamed r)) (Failing (FailsRenamed r) (Renamed r)) := by
  intro s t before
  show Alike _ _ (settled (s.environment.read (name.renamed r)) s)
    (settled (t.environment.read name) t)
  have hread : s.environment.read (name.renamed r) =
      (t.environment.read name).mapError (RuntimeError.renamed r) := by
    rw [before]
    exact t.environment.read_renamed hr name
  rw [hread]
  exact relates_settled _ (fun _ _ _ h => .some ⟨rfl, h⟩) s t before

theorem renamed_assigning (hr : Function.Injective r) (name : Token) (value : Value) :
    Relates (Renamed r) (assigning (·.assign (name.renamed r) value) value)
      (assigning (·.assign name value) value) (Equally (Renamed r))
      (Failing (FailsRenamed r) (Renamed r)) := by
  rintro _ t rfl
  have hassign := t.environment.assign_renamed hr name value
  simp only [assigning, Machine.renamed, hassign]
  cases t.environment.assign name value with
  | ok after => exact .done ⟨rfl, rfl⟩
  | error e => exact alike_error (.some ⟨rfl, rfl⟩)

/-- **Steps with other names.**  Operators stay as they are. -/
theorem replaces_renamed (hr : Function.Injective r) :
    Replaces (fun _ => True) (fun _ => Renamed r) (FailsRenamed r) (Token.renamed r) id where
  read _ name _ := renamed_reading hr name
  assign _ name value _ := renamed_assigning hr name value
  unary _ _ _ _ := relates_settled_self fun _ h =>
    (renamed_of_blames (blames_of_applyUnary h) (by decide)).symm
  binary _ _ _ _ _ := relates_settled_self fun _ h =>
    (renamed_of_blames (blames_of_applyBinary h) (by decide)).symm
  early _ _ _ := rfl
  print _ _ _ _ same := by rw [same]; rfl
  define _ name value _ t _ same := by
    rw [same]
    exact congrArg (Machine.mk · t.out) (t.environment.define_renamed hr name.lexeme value)
  enter _ _ _ same := by rw [same]; rfl
  leave _ _ t same := by
    rw [same]
    exact congrArg (Machine.mk · t.out) t.environment.pop_renamed
  flush _ _ same := by rw [same]; rfl

/-! ### Any number of rounds -/

/-- **Names are only names.**  Let the names of some statements, and those in an environment, be
replaced by others, different names by different ones.  The statements then come to an end exactly
if they did before, and leave the same output, the same environment with the new names, and the
same errors in order, of which those of variables that are not bound tell the new name. -/
theorem names_are_only_names (r : String → String) (hr : Function.Injective r)
    (statements : List Stmt) (environment : Environment) (out : Sink) :
    let renamed := relabelAll (Token.renamed r) id statements
    ((∃ errors last, Interprets renamed ⟨environment.renamed r, out⟩ errors last) ↔
        ∃ errors last, Interprets statements ⟨environment, out⟩ errors last) ∧
      ∀ errors last, Interprets statements ⟨environment, out⟩ errors last →
        Interprets renamed ⟨environment.renamed r, out⟩ (errors.map (RuntimeError.renamed r))
            ⟨last.environment.renamed r, last.out⟩ ∧
          ∀ e ∈ errors, e.cause = .undefinedVariable →
            (e.renamed r).message = "Undefined variable '" ++ r e.token.lexeme ++ "'." := by
  intro renamed
  have hinterpret (rounds : Nat) : interpret rounds renamed ⟨environment.renamed r, out⟩ =
      (interpret rounds statements ⟨environment, out⟩).map
        (Prod.map (List.map (RuntimeError.renamed r)) (Machine.renamed r)) :=
    interpret_eq_map (replaces_renamed hr) rounds statements ⟨environment, out⟩
  have hforth (errors : List RuntimeError) (last : Machine)
      (h : Interprets statements ⟨environment, out⟩ errors last) :
      Interprets renamed ⟨environment.renamed r, out⟩ (errors.map (RuntimeError.renamed r))
        (last.renamed r) := by
    obtain ⟨rounds, hrun⟩ := h
    refine ⟨rounds, ?_⟩
    rw [hinterpret, hrun]
    rfl
  refine ⟨⟨?_, ?_⟩, fun errors last h => ⟨hforth errors last h, fun e _ => e.message_renamed⟩⟩
  · rintro ⟨errors, last, rounds, hrun⟩
    rw [hinterpret] at hrun
    obtain ⟨⟨errors', last'⟩, hrun', _⟩ := Option.map_eq_some_iff.1 hrun
    exact ⟨errors', last', rounds, hrun'⟩
  · rintro ⟨errors, last, h⟩
    exact ⟨_, _, hforth errors last h⟩

/-- Two names exchanged. -/
def exchanged (name : String) : String :=
  if name = "a" then "c" else if name = "c" then "a" else name

theorem exchanged_injective : Function.Injective exchanged := by
  have hback : ∀ name, exchanged (exchanged name) = name := by
    intro name
    unfold exchanged
    split_ifs <;> simp_all
  exact Function.LeftInverse.injective hback

/-- The trees of `{ var a = b; print a; }`, and of `a = c;` on the next line. -/
def blockAndUnbound : List Stmt :=
  [.block [.var ⟨.identifier, "a", none, 1⟩ (some (.variable ⟨.identifier, "b", none, 1⟩)),
      .print (.variable ⟨.identifier, "a", none, 1⟩)],
    .expression (.assign ⟨.identifier, "a", none, 2⟩ (.variable ⟨.identifier, "c", none, 2⟩))]

/-- The names `a` and `c` are exchanged, where `c` is not bound: the error tells `a`. -/
theorem names_are_only_names_exchanged :
    let errors (name : String) : List RuntimeError :=
      [⟨⟨.identifier, name, none, 2⟩, .undefinedVariable⟩]
    Function.Injective exchanged ∧
      (∃ last, Interprets blockAndUnbound ⟨.globals [("b", .bool true), ("a", .nil)], {}⟩
        (errors "c") last) ∧
      ∃ last, Interprets (relabelAll (Token.renamed exchanged) id blockAndUnbound)
        ⟨.globals [("b", .bool true), ("c", .nil)], {}⟩ (errors "a") last := by
  intro errors
  have ends : Interprets blockAndUnbound ⟨.globals [("b", .bool true), ("a", .nil)], {}⟩
      (errors "c") _ := ⟨0, rfl⟩
  exact ⟨exchanged_injective, ⟨_, ends⟩, _,
    ((names_are_only_names exchanged exchanged_injective blockAndUnbound _ {}).2 _ _ ends).1⟩

end Lox
