import Lox.Proofs.Execution.SideBySide
import Mathlib.Data.List.NodupEquivFin
import Mathlib.Data.List.ReduceOption

/-!
# The course of a program

A program goes on with the next statement when one has failed.  Its course tells of each statement
whether it failed, and with which error, so that the errors of the program are in the places of
those statements, in order.

* `Course`: how the statements of a program end one after another;
* `course_of_interpret`: a program that comes to its end has a course;
* `Course.moves`: from statements to programs;
* `Course.failed_at` and `exists_place`: the errors of a program are those of the statements that
  failed, in order.
-/

namespace Lox

/-- How the statements of a program end one after another, each with an error or with none. -/
inductive Course (rounds : Nat) :
    List Stmt → Machine → List (Option RuntimeError) → Machine → Prop where
  | nil {machine : Machine} : Course rounds [] machine [] machine
  | done {statement : Stmt} {rest : List Stmt} {before between after : Machine}
      {outcomes : List (Option RuntimeError)}
      (h : execute rounds statement before = some (.ok (), between))
      (later : Course rounds rest between outcomes after) :
      Course rounds (statement :: rest) before (none :: outcomes) after
  | failed {statement : Stmt} {rest : List Stmt} {before between after : Machine}
      {outcomes : List (Option RuntimeError)} {e : RuntimeError}
      (h : execute rounds statement before = some (.error e, between))
      (later : Course rounds rest between outcomes after) :
      Course rounds (statement :: rest) before (some e :: outcomes) after

variable {rounds : Nat} {statements : List Stmt} {machine last : Machine}
  {errors : List RuntimeError} {outcomes : List (Option RuntimeError)}

/-- A program that comes to its end has a course, and its errors are those of the course. -/
theorem course_of_interpret (h : interpret rounds statements machine = some (errors, last)) :
    ∃ outcomes after, Course rounds statements machine outcomes after ∧
      errors = outcomes.reduceOption ∧ last = after.flushing := by
  induction statements generalizing machine errors with
  | nil =>
    cases h
    exact ⟨[], machine, .nil, rfl, rfl⟩
  | cons statement rest ih =>
    rw [interpret] at h
    cases hexecute : execute rounds statement machine with
    | none =>
      rw [hexecute] at h
      cases h
    | some answer =>
      rw [hexecute] at h
      rcases answer with ⟨e | done, between⟩
      · obtain ⟨⟨more, _⟩, hrest, hboth⟩ := Option.map_eq_some_iff.1 h
        cases hboth
        obtain ⟨outcomes, after, later, rfl, hlast⟩ := ih hrest
        exact ⟨some e :: outcomes, after, .failed hexecute later, rfl, hlast⟩
      · obtain ⟨outcomes, after, later, rfl, hlast⟩ := ih h
        exact ⟨none :: outcomes, after, .done hexecute later, rfl, hlast⟩

/-- What holds of each statement, from the machine before to the one after, holds of a course if it
holds of no statement at all and of one statement behind another. -/
theorem Course.moves {R : Machine → Machine → Prop} (refl : ∀ s, R s s)
    (trans : ∀ s t u, R s t → R t u → R s u)
    (step : ∀ statement s answer t, execute rounds statement s = some (answer, t) → R s t)
    (course : Course rounds statements machine outcomes last) : R machine last := by
  induction course with
  | nil => exact refl _
  | done h _ ih => exact trans _ _ _ (step _ _ _ _ h) ih
  | failed h _ ih => exact trans _ _ _ (step _ _ _ _ h) ih

/-- Where a course has an error, the statement in that place has raised it. -/
theorem Course.failed_at (course : Course rounds statements machine outcomes last) {place : Nat}
    {e : RuntimeError} (h : outcomes[place]? = some (some e)) :
    ∃ statement before between, statements[place]? = some statement ∧
      execute rounds statement before = some (.error e, between) := by
  induction course generalizing place with
  | nil => cases h
  | done _ _ ih =>
    cases place with
    | zero => cases h
    | succ place => exact ih h
  | failed hexecute _ ih =>
    cases place with
    | zero =>
      cases h
      exact ⟨_, _, _, rfl, hexecute⟩
    | succ place => exact ih h

/-- The errors of a course are in different places, in order. -/
theorem exists_place (outcomes : List (Option RuntimeError)) :
    ∃ place : Nat → Nat, StrictMono place ∧ ∀ (k : Nat) (e : RuntimeError),
      outcomes.reduceOption[k]? = some e → outcomes[place k]? = some (some e) := by
  have sublist : (outcomes.reduceOption.map some).Sublist outcomes := by
    induction outcomes with
    | nil => exact .slnil
    | cons outcome rest ih =>
      cases outcome with
      | none => exact ih.cons none
      | some e => exact ih.cons_cons (some e)
  obtain ⟨place, hplace⟩ := List.sublist_iff_exists_orderEmbedding_getElem?_eq.1 sublist
  refine ⟨place, place.strictMono, fun k e h => ?_⟩
  rw [← hplace, List.getElem?_map, h]
  rfl

end Lox
