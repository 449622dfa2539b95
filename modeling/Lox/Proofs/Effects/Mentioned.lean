import Lox.Execution.Rounds
import Lox.Proofs.Relabeling.Runs

/-!
# Names that are not mentioned

A program only sees the variables that it mentions, and only by looking them up.  So it does the
same in two environments that answer alike for its names, whatever their frames are: the same
assignment may change one frame here and another there, and both answers stay alike.

Inside of the scopes that the program itself has opened the frames are alike one by one, and only
behind them it is the answers alone.  This is what closing a scope needs.

* `Environment.AgreeOn`: two environments that are alike for some names inside of some scopes, which
  each step preserves (`AgreeOn.define`, `AgreeOn.replace?`, `AgreeOn.push`, `AgreeOn.pop`);
* `replaces_sameView`: steps of a program on two such machines;
* `Interprets`: a program comes to an end, in whatever number of rounds;
* `only_mentioned_names`: the main result.
-/

namespace Lox

/-! ### Environments that are alike for some names -/

/-- The innermost frames, so many as there are scopes, are alike for the given names, and so are the
answers of what is behind them. -/
inductive Environment.AgreeOn (names : List String) : Nat → Environment → Environment → Prop where
  | outside {environment other : Environment}
      (h : ∀ name ∈ names, environment.get? name = other.get? name) :
      AgreeOn names 0 environment other
  | scope {scopes : Nat} {frame frame' : Frame} {outer outer' : Environment}
      (here : ∀ name ∈ names, frame.get? name = frame'.get? name)
      (further : AgreeOn names scopes outer outer') :
      AgreeOn names (scopes + 1) (.scope frame outer) (.scope frame' outer')

/-- Answers fit if both or neither are there, and those that are there fit. -/
theorem optionRel_of_none_iff {α β : Type} {R : α → β → Prop} {answer : Option α}
    {answer' : Option β} (hnone : answer = none ↔ answer' = none)
    (hsome : ∀ x y, answer = some x → answer' = some y → R x y) : Option.Rel R answer answer' := by
  cases answer with
  | none =>
    rw [hnone.1 rfl]
    exact .none
  | some x =>
    cases answer' with
    | none => cases hnone.2 rfl
    | some y => exact .some (hsome x y rfl rfl)

/-- Frames that are alike for a name are so after it was given another value. -/
theorem Frame.agree_replace? {frame frame' : Frame} {names : List String} {name : String}
    (h : ∀ name ∈ names, frame.get? name = frame'.get? name) (hname : name ∈ names)
    (value : Value) :
    Option.Rel (fun changed changed' => ∀ name ∈ names, changed.get? name = changed'.get? name)
      (frame.replace? name value) (frame'.replace? name value) := by
  refine optionRel_of_none_iff ?_ ?_
  · rw [Frame.replace?_eq_none, Frame.replace?_eq_none, h name hname]
  · intro changed changed' hchanged hchanged' other hother
    rw [Frame.get?_replace? hchanged, Frame.get?_replace? hchanged', h other hother]

namespace Environment.AgreeOn

variable {names : List String} {scopes : Nat} {environment other : Environment}

/-- Environments that are alike answer alike. -/
theorem get? (h : AgreeOn names scopes environment other) {name : String} (hname : name ∈ names) :
    environment.get? name = other.get? name := by
  induction h with
  | outside h => exact h name hname
  | scope here _ ih => simp only [Environment.get?, here name hname, ih]

theorem push (h : AgreeOn names scopes environment other) :
    AgreeOn names (scopes + 1) environment.push other.push :=
  .scope (fun _ _ => rfl) h

theorem pop (h : AgreeOn names (scopes + 1) environment other) :
    AgreeOn names scopes environment.pop other.pop := by
  cases h with
  | scope _ further => exact further

theorem define (h : AgreeOn names scopes environment other) (name : String) (value : Value) :
    AgreeOn names scopes (environment.define name value) (other.define name value) := by
  cases h with
  | outside h =>
    refine .outside fun asked hasked => ?_
    rw [get?_define, get?_define, h asked hasked]
  | scope here further =>
    refine .scope (fun asked hasked => ?_) further
    rw [Frame.get?_insert, Frame.get?_insert, here asked hasked]

/-- An assignment finds the name in both or in neither. -/
theorem replace? (h : AgreeOn names scopes environment other) {name : String} (hname : name ∈ names)
    (value : Value) :
    Option.Rel (AgreeOn names scopes) (environment.replace? name value)
      (other.replace? name value) := by
  induction h with
  | @outside environment other h =>
    refine optionRel_of_none_iff ?_ ?_
    · rw [replace?_eq_none, replace?_eq_none, h name hname]
    · intro after after' hafter hafter'
      refine .outside fun asked hasked => ?_
      rw [get?_replace? hafter, get?_replace? hafter', h asked hasked]
  | @scope scopes frame frame' outer outer' here further ih =>
    have hframes := Frame.agree_replace? here hname value
    simp only [Environment.replace?]
    generalize frame.replace? name value = changed, frame'.replace? name value = changed'
      at hframes
    cases hframes with
    | some hchanged => exact .some (.scope hchanged further)
    | none =>
      -- the name is in neither frame, and both go on further out
      exact optionRel_map ih fun _ _ hafter => .scope here hafter

end Environment.AgreeOn

/-! ### Machines side by side -/

/-- Machines with environments that are alike for some names, and with the same output. -/
def SameView (names : List String) (scopes : Nat) (s t : Machine) : Prop :=
  s.environment.AgreeOn names scopes t.environment ∧ s.out = t.out

variable {names : List String} {scopes : Nat}

theorem sameView_reading {name : Token} (hname : name.lexeme ∈ names) :
    Relates (SameView names scopes) (reading (·.read name)) (reading (·.read name))
      (Equally (SameView names scopes)) (Failing Eq (SameView names scopes)) := by
  intro s t before
  have hread : s.environment.read name = t.environment.read name := by
    rw [Environment.read, Environment.read, before.1.get? hname]
  show Alike _ _ (settled (s.environment.read name) s) (settled (t.environment.read name) t)
  rw [hread]
  exact relates_settled_self (fun _ _ => rfl) s t before

theorem sameView_assigning {name : Token} (hname : name.lexeme ∈ names) (value : Value) :
    Relates (SameView names scopes) (assigning (·.assign name value) value)
      (assigning (·.assign name value) value) (Equally (SameView names scopes))
      (Failing Eq (SameView names scopes)) := by
  intro s t before
  have hreplace := before.1.replace? hname value
  simp only [assigning, Environment.assign]
  generalize s.environment.replace? name.lexeme value = after,
    t.environment.replace? name.lexeme value = after' at hreplace
  cases hreplace with
  | none => exact alike_error (.some ⟨rfl, before⟩)
  | some agree => exact .done ⟨rfl, agree, before.2⟩

/-- **Steps on machines that are alike** for the names that occur. -/
theorem replaces_sameView (names : List String) :
    Replaces (fun occurrence => occurrence.role ∈ Role.ofNames → occurrence.token.lexeme ∈ names)
      (SameView names) Eq id id where
  read _ _ hname := sameView_reading (hname (by simp [Role.ofNames]))
  assign _ _ value hname := sameView_assigning (hname (by simp [Role.ofNames])) value
  unary _ _ _ _ := relates_settled_self fun _ _ => rfl
  binary _ _ _ _ _ := relates_settled_self fun _ _ => rfl
  early _ _ _ := rfl
  print _ value s t same := ⟨same.1, by rw [Machine.printing, Machine.printing, same.2]⟩
  define _ name value _ _ _ same := ⟨same.1.define name.lexeme value, same.2⟩
  enter _ _ _ same := ⟨same.1.push, same.2⟩
  leave _ _ _ same := ⟨same.1.pop, same.2⟩
  flush _ _ same := ⟨same.1, congrArg (·.flush.2) same.2⟩

/-- Within the same number of rounds, a program comes to an end on both of two such machines or on
neither, with the same errors. -/
theorem sameView_interpret (rounds : Nat) (statements : List Stmt) {s t : Machine}
    (before : SameView (Lox.names statements) 0 s t) :
    Option.Rel (fun ends ends' => ends.1 = ends'.1 ∧
        SameView (Lox.names statements) 0 ends.2 ends'.2)
      (interpret rounds statements s) (interpret rounds statements t) := by
  have ends := relates_interpret (replaces_sameView (Lox.names statements)) rounds statements
    (fun _ hmem hrole => mem_lexemes hmem hrole) s t before
  rwa [relabelAll_id, List.forall₂_eq_eq_eq] at ends

/-! ### Any number of rounds -/

/-- A program comes to an end, with its errors and a machine. -/
def Interprets (statements : List Stmt) (machine : Machine) (errors : List RuntimeError)
    (last : Machine) : Prop :=
  ∃ rounds, interpret rounds statements machine = some (errors, last)

theorem sameView_interprets {statements : List Stmt} {s t last : Machine}
    {errors : List RuntimeError} (before : SameView (Lox.names statements) 0 s t)
    (h : Interprets statements s errors last) :
    ∃ last', Interprets statements t errors last' ∧
      SameView (Lox.names statements) 0 last last' := by
  obtain ⟨rounds, h⟩ := h
  have ends := sameView_interpret rounds statements before
  rw [h] at ends
  generalize hrun : interpret rounds statements t = result at ends
  cases ends with
  | @some _ ends' fit =>
    obtain ⟨errors', last'⟩ := ends'
    obtain ⟨rfl, after⟩ := fit
    exact ⟨last', ⟨rounds, hrun⟩, after⟩

/-- A program comes to no two ends. -/
theorem Interprets.unique {statements : List Stmt} {machine last last' : Machine}
    {errors errors' : List RuntimeError} (h : Interprets statements machine errors last)
    (h' : Interprets statements machine errors' last') : errors = errors' ∧ last = last' := by
  obtain ⟨n, hn⟩ := h
  obtain ⟨m, hm⟩ := h'
  have same := interpret_of_le (Nat.le_max_left n m) hn
  rw [interpret_of_le (Nat.le_max_right n m) hm] at same
  cases same
  exact ⟨rfl, rfl⟩

/-- **Only the names that a program mentions matter to it.**  Let two environments, of whatever
frames, answer alike for each name in some statements.  Then the statements come to an end in both
or in neither, and if they do, with the same errors and the same output, and the environments again
answer alike for each of the names. -/
theorem only_mentioned_names (statements : List Stmt) (environment other : Environment)
    (out : Sink) (h : ∀ name ∈ Lox.names statements, environment.get? name = other.get? name) :
    ((∃ errors last, Interprets statements ⟨environment, out⟩ errors last) ↔
        ∃ errors last, Interprets statements ⟨other, out⟩ errors last) ∧
      ∀ errors errors' last last', Interprets statements ⟨environment, out⟩ errors last →
        Interprets statements ⟨other, out⟩ errors' last' →
          errors = errors' ∧ last.out = last'.out ∧
            ∀ name ∈ Lox.names statements,
              last.environment.get? name = last'.environment.get? name := by
  have before : SameView (Lox.names statements) 0 ⟨environment, out⟩ ⟨other, out⟩ :=
    ⟨.outside h, rfl⟩
  have before' : SameView (Lox.names statements) 0 ⟨other, out⟩ ⟨environment, out⟩ :=
    ⟨.outside fun name hname => (h name hname).symm, rfl⟩
  refine ⟨⟨?_, ?_⟩, ?_⟩
  · intro ends
    obtain ⟨errors, last, hrun⟩ := ends
    obtain ⟨last', hrun', _⟩ := sameView_interprets before hrun
    exact ⟨errors, last', hrun'⟩
  · intro ends
    obtain ⟨errors, last, hrun⟩ := ends
    obtain ⟨last', hrun', _⟩ := sameView_interprets before' hrun
    exact ⟨errors, last', hrun'⟩
  · intro errors errors' last last' hrun hrun'
    obtain ⟨found, hfound, after⟩ := sameView_interprets before hrun
    obtain ⟨rfl, rfl⟩ := hfound.unique hrun'
    exact ⟨rfl, after.2, fun name hname => after.1.get? hname⟩

/-- The trees of `var b; a = b;` in a block, and of `print a; -a;`. -/
def blockAndMinus : List Stmt :=
  [.block [.var ⟨.identifier, "b", none, 1⟩ none,
      .expression (.assign ⟨.identifier, "a", none, 1⟩ (.variable ⟨.identifier, "b", none, 1⟩))],
    .print (.variable ⟨.identifier, "a", none, 2⟩),
    .expression (.unary ⟨.symbol .minus, "-", none, 3⟩ (.variable ⟨.identifier, "a", none, 3⟩))]

/-- In one environment the name is global, in the other it is in a scope and hides a global one. -/
theorem only_mentioned_names_hidden :
    let environment : Environment := .globals [("a", .bool true)]
    let other : Environment :=
      .scope [("c", .nil)] (.scope [("a", .bool true)] (.globals [("a", .bool false)]))
    let errors : List RuntimeError := [⟨⟨.symbol .minus, "-", none, 3⟩, .operandNotNumber⟩]
    (∀ name ∈ Lox.names blockAndMinus, environment.get? name = other.get? name) ∧
      (∃ last, Interprets blockAndMinus ⟨environment, {}⟩ errors last) ∧
      ∃ errors last, Interprets blockAndMinus ⟨other, {}⟩ errors last := by
  intro environment other errors
  have h : ∀ name ∈ Lox.names blockAndMinus, environment.get? name = other.get? name := by decide
  have ends : Interprets blockAndMinus ⟨environment, {}⟩ errors _ := ⟨0, rfl⟩
  exact ⟨h, ⟨_, ends⟩, (only_mentioned_names blockAndMinus environment other {} h).1.1 ⟨_, _, ends⟩⟩

end Lox
