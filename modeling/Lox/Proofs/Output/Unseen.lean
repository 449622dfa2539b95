import Lox.Proofs.Effects.Mentioned
import Lox.Proofs.Seam.Joined

/-!
# Output is not seen

A program writes to its sink and never looks at it.  So on two machines with the same variables it
does the same, whatever their sinks are, and if each write keeps the sinks in a relation then so
does the whole program, and so do programs and sources that are run one after another.

* `Sink.Stable` and `SameVariables`: relations of sinks that writes keep, and the machines with the
  same variables and such sinks;
* `replaces_sinks`: steps of a program on two such machines;
* `unseen_interpret` and `unseen_run`: programs and sources on two such machines;
* `inTurn` with `inTurn_alike`: several of them one after another on one machine.
-/

namespace Lox

/-! ### Two sinks -/

/-- A relation of sinks that writing the same to both keeps, and flushing both. -/
structure Sink.Stable (R : Sink → Sink → Prop) : Prop where
  write : ∀ bytes s t, R s t → R (s.write bytes).2 (t.write bytes).2
  flush : ∀ s t, R s t → R s.flush.2 t.flush.2

/-- A sink without a limit takes everything. -/
theorem Sink.write_unlimited {sink : Sink} (h : sink.capacity = none) (bytes : ByteArray) :
    (sink.write bytes).2 = { sink with written := sink.written ++ bytes } := by
  have hall : sink.room bytes.size = bytes.size := by
    simp only [Sink.room, h]
  simp only [Sink.write, hall, ByteArray.extract_zero_size]

/-- Machines with the same variables, and with sinks in a relation. -/
def SameVariables (R : Sink → Sink → Prop) (s t : Machine) : Prop :=
  s.environment = t.environment ∧ R s.out t.out

section

variable {R : Sink → Sink → Prop}

theorem unseen_reading (look : Environment → Except RuntimeError Value) :
    Relates (SameVariables R) (reading look) (reading look) (Equally (SameVariables R))
      (Failing Eq (SameVariables R)) := by
  intro s t before
  show Alike _ _ (settled (look s.environment) s) (settled (look t.environment) t)
  rw [before.1]
  exact relates_settled_self (fun _ _ => rfl) s t before

theorem unseen_assigning (change : Environment → Except RuntimeError Environment) (value : Value) :
    Relates (SameVariables R) (assigning change value) (assigning change value)
      (Equally (SameVariables R)) (Failing Eq (SameVariables R)) := by
  intro s t before
  simp only [assigning, before.1]
  cases change t.environment with
  | error e => exact alike_error (.some ⟨rfl, before⟩)
  | ok environment => exact .done ⟨rfl, rfl, before.2⟩

/-- **Steps on machines that differ in their sinks only.** -/
theorem replaces_sinks (h : Sink.Stable R) :
    Replaces (fun _ => True) (fun _ => SameVariables R) Eq id id where
  read _ name _ := unseen_reading (·.read name)
  assign _ name value _ := unseen_assigning (·.assign name value) value
  unary _ _ _ _ := relates_settled_self fun _ _ => rfl
  binary _ _ _ _ _ := relates_settled_self fun _ _ => rfl
  early _ _ _ := rfl
  print _ _ _ _ same := ⟨same.1, h.write _ _ _ same.2⟩
  define _ name value _ _ _ same :=
    ⟨congrArg (fun environment => environment.define name.lexeme value) same.1, same.2⟩
  enter _ _ _ same := ⟨congrArg Environment.push same.1, same.2⟩
  leave _ _ _ same := ⟨congrArg Environment.pop same.1, same.2⟩
  flush _ _ same := ⟨same.1, h.flush _ _ same.2⟩

/-- Two ends of the same, which are both there or both missing: what came of it is in one relation,
and the machines are in another. -/
abbrev EndsAlike {α β : Type} (Q : α → β → Prop) (M : Machine → Machine → Prop) :
    Option (α × Machine) → Option (β × Machine) → Prop :=
  Option.Rel fun ends ends' => Q ends.1 ends'.1 ∧ M ends.2 ends'.2

theorem unseen_interpret (h : Sink.Stable R) (rounds : Nat) (statements : List Stmt)
    {s t : Machine} (before : SameVariables R s t) :
    EndsAlike Eq (SameVariables R) (interpret rounds statements s)
      (interpret rounds statements t) := by
  have ends :=
    relates_interpret (replaces_sinks h) rounds statements (fun _ _ => trivial) s t before
  rwa [relabelAll_id, List.forall₂_eq_eq_eq] at ends

theorem unseen_run (h : Sink.Stable R) (rounds : Nat) (source : String) {s t : Machine}
    (before : SameVariables R s t) :
    EndsAlike Eq (SameVariables R) (run rounds source s) (run rounds source t) := by
  unfold run
  cases statementsOf source with
  | error errors => exact .some ⟨rfl, before⟩
  | ok statements =>
    refine optionRel_map (unseen_interpret h rounds statements before) fun ends ends' same => ?_
    exact ⟨congrArg (Report.mk []) same.1, same.2⟩

end

/-! ### One after another -/

section

variable {α β β' : Type}

/-- Runs one thing after another on one machine, and gathers what comes of each. -/
def inTurn (step : α → Machine → Option (β × Machine)) :
    List α → Machine → Option (List β × Machine)
  | [], machine => some ([], machine)
  | first :: rest, machine =>
    match step first machine with
    | none => none
    | some (found, after) =>
      (inTurn step rest after).map fun (others, last) => (found :: others, last)

/-- If each step ends alike on both sides, so do all of them. -/
theorem inTurn_alike {M : Machine → Machine → Prop} {Q : β → β' → Prop}
    {step : α → Machine → Option (β × Machine)} {step' : α → Machine → Option (β' × Machine)}
    (h : ∀ a s t, M s t → EndsAlike Q M (step a s) (step' a t)) (list : List α) (s t : Machine)
    (before : M s t) :
    EndsAlike (List.Forall₂ Q) M (inTurn step list s) (inTurn step' list t) := by
  induction list generalizing s t with
  | nil => exact .some ⟨.nil, before⟩
  | cons first rest ih =>
    have ends := h first s t before
    rw [inTurn, inTurn]
    generalize step first s = left, step' first t = right at ends
    cases ends with
    | none => exact .none
    | some both =>
      exact optionRel_map (ih _ _ both.2) fun _ _ others => ⟨.cons both.1 others.1, others.2⟩

/-- Steps that come to an end on their own do so in turn, and in the same way. -/
theorem inTurn_mono {step step' : α → Machine → Option (β × Machine)}
    (h : ∀ a machine ends, step a machine = some ends → step' a machine = some ends)
    {list : List α} {machine : Machine} {ends : List β × Machine}
    (hends : inTurn step list machine = some ends) : inTurn step' list machine = some ends := by
  induction list generalizing machine ends with
  | nil => exact hends
  | cons first rest ih =>
    rw [inTurn] at hends ⊢
    cases hfirst : step first machine with
    | none =>
      rw [hfirst] at hends
      cases hends
    | some found =>
      rw [hfirst] at hends
      rw [h first machine found hfirst]
      obtain ⟨others, hothers, hboth⟩ := Option.map_eq_some_iff.1 hends
      show Option.map _ (inTurn step' rest found.2) = _
      rw [ih hothers]
      exact congrArg some hboth

end

end Lox
