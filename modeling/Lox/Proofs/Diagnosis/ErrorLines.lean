import Lox.Proofs.Outline.Programs
import Lox.Proofs.RuntimeErrors.Faults
import Lox.Proofs.Scanning.Lines
import Lox.Proofs.Seam.Joined

/-!
# Errors are on lines of the source

Scanning finds fault where a segment ends, and whatever comes later blames a token of the source or
its end.  So each error in the report of a source, of either sort, is on one of its lines.

* `OnLines`: a line of a source;
* `syntaxErrors_onLines` and `runtimeErrors_onLines`: the errors of a source, and of its run;
* `report_onLines`: all of its report.
-/

namespace Lox

open Grammar Diagnosis

/-- A line of a source, counted from 1. -/
def OnLines (source : String) (line : Nat) : Prop :=
  1 ≤ line ∧ line ≤ 1 + lineEnds source.toList

/-- A source without line ends has one line. -/
theorem OnLines.eq_one {source : String} {line : Nat} (h : OnLines source line)
    (hsource : '\n' ∉ source.toList) : line = 1 := by
  have hnone : lineEnds source.toList = 0 := List.count_eq_zero.2 hsource
  obtain ⟨hfirst, hlast⟩ := h
  omega

theorem onLines_of_mem_scan {source : String} {token : Token} (h : token ∈ (scan source).tokens) :
    OnLines source token.line := by
  rw [tokens_scan] at h
  obtain h | h := List.mem_append.1 h
  · exact line_of_mem_words h
  · rw [List.mem_singleton.1 h]
    exact ⟨Nat.le_add_right 1 _, Nat.le_refl _⟩

theorem endToken_scan (source : String) :
    endToken (scan source).tokens = .endOf (1 + lineEnds source.toList) := by
  have hopen : (words source.toList).find? isEnd = none := by
    refine List.find?_eq_none.2 fun token htoken => ?_
    simpa [isEnd] using kind_ne_eof_of_mem_words htoken
  rw [endToken, tokens_scan, List.find?_append, hopen]
  rfl

/-- The tokens that can be blamed are those of the source, its end token included. -/
theorem beforeEnd_append_endToken (source : String) :
    beforeEnd (scan source).tokens ++ [endToken (scan source).tokens] = (scan source).tokens := by
  rw [beforeEnd_scan, endToken_scan, tokens_scan]

theorem errors_scan_onLines {source : String} {e : SyntaxError} (h : e ∈ (scan source).errors) :
    OnLines source e.line := by
  obtain ⟨⟨line, segment⟩, hplaced, herror⟩ := List.mem_filterMap.1 h
  have bounds := line_withLines hplaced
  rw [segments_text] at bounds
  have hline : e.line = line := by
    cases segment <;> cases herror <;> rfl
  rw [hline]
  exact bounds

theorem syntaxErrors_onLines {source : String} {errors : List SyntaxError}
    (h : statementsOf source = .error errors) : ∀ e ∈ errors, OnLines source e.line := by
  cases hparse : parse (scan source).tokens with
  | ok statements =>
    simp only [statementsOf, hparse] at h
    split at h
    · cases h
    · cases h
      exact fun e he => errors_scan_onLines he
  | error found =>
    simp only [statementsOf, hparse, Except.error.injEq] at h
    rw [← h]
    intro e he
    obtain he | he := List.mem_append.1 he
    · exact errors_scan_onLines he
    · obtain ⟨token, htoken, cause, rfl⟩ := Outline.blames_of_parse hparse e he
      rw [beforeEnd_append_endToken] at htoken
      exact onLines_of_mem_scan htoken

theorem runtimeErrors_onLines {source : String} {statements : List Stmt}
    (h : statementsOf source = .ok statements) {rounds : Nat} {machine last : Machine}
    {errors : List RuntimeError}
    (ends : interpret rounds statements machine = some (errors, last)) :
    ∀ e ∈ errors, OnLines source e.token.line := by
  obtain ⟨_, hparse⟩ := statementsOf_eq_ok.1 h
  obtain ⟨body, _, htokens, rfl⟩ :=
    Derivation.body_of_findings (Derivation.findings_of_parse hparse)
  rw [beforeEnd_scan] at htokens
  intro e he
  obtain ⟨occurrence, hoccurs, hblames⟩ := blames_of_interpret ends e he
  have hword : e.token ∈ words source.toList := by
    rw [htokens, hblames.token_eq]
    exact (body.written occurrence hoccurs).mem
  exact line_of_mem_words hword

/-- **Errors are on lines of the source**, those of its text and those of its run. -/
theorem report_onLines {source : String} {rounds : Nat} {machine last : Machine} {report : Report}
    (h : run rounds source machine = some (report, last)) :
    (∀ e ∈ report.syntaxErrors, OnLines source e.line) ∧
      ∀ e ∈ report.runtimeErrors, OnLines source e.token.line := by
  cases hstatements : statementsOf source with
  | error errors =>
    simp only [run, hstatements, Option.some.injEq, Prod.mk.injEq] at h
    obtain ⟨rfl, _⟩ := h
    exact ⟨syntaxErrors_onLines hstatements, fun _ he => absurd he List.not_mem_nil⟩
  | ok statements =>
    rw [run_of_ok hstatements] at h
    obtain ⟨⟨errors, after⟩, ends, hreport⟩ := Option.map_eq_some_iff.1 h
    cases hreport
    exact ⟨fun _ he => absurd he List.not_mem_nil, runtimeErrors_onLines hstatements ends⟩

end Lox
