import Lox.Execution.Rounds
import Lox.Proofs.Parsing.Accepted
import Lox.Proofs.Relabeling.Runs
import Lox.Proofs.Seam.Scanning
import Lox.Session

/-!
# Sources in pieces and as a whole

A source that is run in pieces, one after another on one machine, does what it does as a whole, if
the pieces are joined by line ends.

* `parse_append`: the statements of two programs written one after the other;
* `statementsOf_append`: those of two sources that are joined;
* `interpret_append`: programs run one after the other;
* `run_append`: a run of the joined sources, told by the runs of the two;
* `Runs` and `runs_append`: the same for runs that may need any number of rounds.
-/

namespace Lox

/-! ### Parsing -/

namespace Derivation

theorem Body.tokens_append :
    ∀ body later : Body, (body.append later).tokens = body.tokens ++ later.tokens
  | .nil, _ => rfl
  | .cons first rest, later => by
    rw [Body.append, Body.tokens, Body.tokens, tokens_append rest later, List.append_assoc]

theorem Body.levels_append :
    ∀ body later : Body, (body.append later).levels = max body.levels later.levels
  | .nil, later => (Nat.zero_max later.levels).symm
  | .cons first rest, later => by
    rw [Body.append, Body.levels, Body.levels, levels_append rest later, Nat.max_assoc]

theorem Body.stmts_append :
    ∀ body later : Body, (body.append later).stmts = body.stmts ++ later.stmts
  | .nil, _ => rfl
  | .cons first rest, later => by
    rw [Body.append, Body.stmts, Body.stmts, stmts_append rest later, List.cons_append]

end Derivation

open Lox.Derivation Grammar

/-- **Parsing programs one after the other.**  If two programs are accepted, so are the tokens of
the first followed by those of the second on later lines, and nothing else changes. -/
theorem parse_append {first second tokens : List Token} {statements later : List Stmt} {lines : Nat}
    (hfirst : parse first = .ok statements) (hsecond : parse second = .ok later)
    (h : beforeEnd tokens = beforeEnd first ++ (beforeEnd second).map (Token.later lines)) :
    parse tokens =
      .ok (statements ++ relabelAll (Token.later lines) (Token.later lines) later) := by
  obtain ⟨body, hlevels, htokens, rfl⟩ := body_of_findings (findings_of_parse hfirst)
  obtain ⟨more, hlevels', htokens', rfl⟩ := body_of_findings (findings_of_parse hsecond)
  have hwritten : beforeEnd tokens = (body.append (more.relabel (.later lines))).tokens := by
    rw [h, htokens, htokens', Body.tokens_append, Body.tokens_relabel]
    rfl
  have hle : (body.append (more.relabel (.later lines))).levels ≤ maxNesting := by
    rw [Body.levels_append, Body.levels_relabel]
    omega
  rw [parse_of_le hwritten hle, Body.stmts_append, Body.stmts_relabel]
  rfl

theorem beforeEnd_scan (source : String) :
    beforeEnd (scan source).tokens = words source.toList := by
  have hopen : ∀ token ∈ words source.toList, (!isEnd token) = true := by
    intro token htoken
    simp [isEnd, kind_ne_eof_of_mem_words htoken]
  rw [tokens_scan, beforeEnd, List.takeWhile_append_of_pos hopen]
  exact List.append_nil _

theorem statementsOf_eq_ok {source : String} {statements : List Stmt} :
    statementsOf source = .ok statements ↔
      (scan source).errors = [] ∧ parse (scan source).tokens = .ok statements := by
  cases hparse : parse (scan source).tokens with
  | error errors => simp [statementsOf, hparse]
  | ok statements => cases herrors : (scan source).errors <;> simp [statementsOf, hparse, herrors]

theorem statementsOf_of_scan {source : String} {tokens : List Token} {statements : List Stmt}
    (hscan : scan source = ⟨tokens, []⟩) (hparse : parse tokens = .ok statements) :
    statementsOf source = .ok statements := by
  rw [statementsOf_eq_ok, hscan]
  exact ⟨rfl, hparse⟩

/-- The lines that a source takes up when another follows it on a new line. -/
def linesOf (source : String) : Nat := 1 + lineEnds source.toList

/-- Sources without errors have none when they are joined by a line end, and their statements are
those of the first and then those of the second on later lines. -/
theorem statementsOf_append {first second : String} {statements later : List Stmt}
    (hfirst : statementsOf first = .ok statements) (hsecond : statementsOf second = .ok later) :
    statementsOf (first ++ "\n" ++ second) =
      .ok (statements ++
        relabelAll (Token.later (linesOf first)) (Token.later (linesOf first)) later) := by
  obtain ⟨herrors, hparse⟩ := statementsOf_eq_ok.1 hfirst
  obtain ⟨herrors', hparse'⟩ := statementsOf_eq_ok.1 hsecond
  refine statementsOf_eq_ok.2 ⟨errors_scan_append herrors herrors', ?_⟩
  refine parse_append hparse hparse' ?_
  rw [beforeEnd_scan, beforeEnd_scan, beforeEnd_scan, words_append herrors]
  rfl

/-! ### Running -/

/-- Programs run one after the other. -/
theorem interpret_append (rounds : Nat) (statements later : List Stmt) (machine : Machine) :
    interpret rounds (statements ++ later) machine =
      (interpret rounds statements machine).bind fun (errors, middle) =>
        (interpret rounds later middle).map fun (more, last) => (errors ++ more, last) := by
  induction statements generalizing machine with
  | nil =>
    show interpret rounds later machine = (interpret rounds later machine).map _
    cases interpret rounds later machine <;> rfl
  | cons statement rest ih =>
    rw [List.cons_append, interpret, interpret]
    cases execute rounds statement machine with
    | none => rfl
    | some answer =>
      rcases answer with ⟨e | done, after⟩
      · show Option.map _ (interpret rounds (rest ++ later) after) =
          (Option.map _ (interpret rounds rest after)).bind _
        rw [ih]
        cases interpret rounds rest after with
        | none => rfl
        | some answer =>
          obtain ⟨errors, middle⟩ := answer
          show Option.map _ (Option.map _ (interpret rounds later middle)) =
            Option.map _ (interpret rounds later middle)
          cases interpret rounds later middle <;> rfl
      · exact ih after

theorem run_of_ok {source : String} {statements : List Stmt}
    (h : statementsOf source = .ok statements) (rounds : Nat) (machine : Machine) :
    run rounds source machine =
      (interpret rounds statements machine).map fun (errors, after) =>
        ({ runtimeErrors := errors }, after) := by
  rw [run, h]

/-- **A run of the whole, told by runs of the pieces.**  Given the same number of rounds. -/
theorem run_append {first second : String} {statements later : List Stmt}
    (hfirst : statementsOf first = .ok statements) (hsecond : statementsOf second = .ok later)
    (rounds : Nat) (machine : Machine) :
    run rounds (first ++ "\n" ++ second) machine =
      (run rounds first machine).bind fun (report, middle) =>
        (run rounds second middle).map fun (more, last) =>
          ({ runtimeErrors := report.runtimeErrors ++
              more.runtimeErrors.map (RuntimeError.later (linesOf first)) }, last) := by
  rw [run_of_ok (statementsOf_append hfirst hsecond), run_of_ok hfirst]
  simp only [run_of_ok hsecond, interpret_append, interpret_later]
  cases interpret rounds statements machine with
  | none => rfl
  | some answer =>
    obtain ⟨errors, middle⟩ := answer
    show Option.map _ (Option.map _ (Option.map _ (interpret rounds later middle))) =
      Option.map _ (Option.map _ (interpret rounds later middle))
    cases interpret rounds later middle <;> rfl

/-! ### Any number of rounds -/

/-- Running a source comes to an end, with a report and a machine. -/
def Runs (source : String) (machine : Machine) (report : Report) (last : Machine) : Prop :=
  ∃ rounds, run rounds source machine = some (report, last)

theorem run_of_le {n m : Nat} (h : n ≤ m) {source : String} {machine : Machine}
    {result : Report × Machine} (hr : run n source machine = some result) :
    run m source machine = some result := by
  cases hs : statementsOf source with
  | error errors =>
    rw [run, hs] at hr ⊢
    exact hr
  | ok statements =>
    rw [run_of_ok hs] at hr ⊢
    obtain ⟨answer, hanswer, hresult⟩ := Option.map_eq_some_iff.1 hr
    rw [interpret_of_le h hanswer]
    exact congrArg some hresult

/-- **In pieces as well as whole.**  Let two sources have no syntax errors.  From any machine, the
two joined by a line end come to an end exactly when the first does and then the second does from
where the first left off.  Then the last machine, variables and output, is the same, there is no
syntax error, and the runtime errors are those of the first and then those of the second, the
latter as many lines further down as the first source and the line end take up. -/
theorem runs_append {first second : String} {statements later : List Stmt}
    (hfirst : statementsOf first = .ok statements) (hsecond : statementsOf second = .ok later)
    (machine last : Machine) (report : Report) :
    Runs (first ++ "\n" ++ second) machine report last ↔
      ∃ before middle after, Runs first machine before middle ∧ Runs second middle after last ∧
        report =
          { syntaxErrors := []
            runtimeErrors := before.runtimeErrors ++ after.runtimeErrors.map fun e =>
              { e with token := { e.token with
                  line := e.token.line + (1 + first.toList.count '\n') } } } := by
  constructor
  · rintro ⟨rounds, h⟩
    rw [run_append hfirst hsecond] at h
    obtain ⟨⟨before, middle⟩, hbefore, h⟩ := Option.bind_eq_some_iff.1 h
    obtain ⟨⟨after, _⟩, hafter, h⟩ := Option.map_eq_some_iff.1 h
    cases h
    exact ⟨before, middle, after, ⟨rounds, hbefore⟩, ⟨rounds, hafter⟩, rfl⟩
  · rintro ⟨before, middle, after, ⟨n, hbefore⟩, ⟨m, hafter⟩, rfl⟩
    refine ⟨max n m, ?_⟩
    rw [run_append hfirst hsecond, run_of_le (Nat.le_max_left n m) hbefore]
    show Option.map _ (run (max n m) second middle) = _
    rw [run_of_le (Nat.le_max_right n m) hafter]
    rfl

/-- A string that goes over a line end, and a name that is not bound, further down. -/
theorem runs_append_lines :
    statementsOf "\"\n\";" = .ok [.expression (.literal (.string "\n"))] ∧
      statementsOf "a;" = .ok [.expression (.variable ⟨.identifier, "a", none, 1⟩)] ∧
      Runs ("\"\n\";" ++ "\n" ++ "a;") {}
        { runtimeErrors := [⟨⟨.identifier, "a", none, 3⟩, .undefinedVariable⟩] } {} := by
  have hfirst : statementsOf "\"\n\";" = .ok [.expression (.literal (.string "\n"))] := rfl
  have hsecond : statementsOf "a;" =
      .ok [.expression (.variable ⟨.identifier, "a", none, 1⟩)] := rfl
  have first : run 0 "\"\n\";" {} = some ({}, {}) := by
    rw [run_of_ok hfirst]
    rfl
  have second : run 0 "a;" {} =
      some ({ runtimeErrors := [⟨⟨.identifier, "a", none, 1⟩, .undefinedVariable⟩] }, {}) := by
    rw [run_of_ok hsecond]
    rfl
  have lines : "\"\n\";".toList.count '\n' = 1 := by decide
  refine ⟨hfirst, hsecond, (runs_append hfirst hsecond {} {} _).2
    ⟨_, _, _, ⟨0, first⟩, ⟨0, second⟩, ?_⟩⟩
  rw [lines]
  rfl

end Lox
