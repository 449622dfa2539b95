import Lox.Proofs.Diagnosis.Parsers
import Lox.Proofs.Diagnosis.Positions

/-!
# The first fault

The first error of a program that is about its structure blames the first wrong token: what stands
before it can be completed to a program, and nothing that begins with it as well can.  Errors about
the target of an assignment do not count, since they are found in what has the right structure, nor
does it say anything if the structure is refused for its nesting.

The induction is over the declarations.  The errors of those that could be read are all about
targets, and the first that could not be read is exact.

* `firstFault_of_program`: the first fault of a program;
* `sentence_of_parse` and `nesting_of_sentence`: what is accepted is a sentence, and a sentence is
  refused for nothing but targets and nesting;
* `FirstWrong`: a token is the first wrong one;
* `blames_firstWrong`: the first fault that `parse` answers with.
-/

namespace Lox.Diagnosis

open Lox.Derivation Lox.Grammar Lox.Parser

/-- Whether an error is about the structure of the program. -/
def isStructural (e : SyntaxError) : Bool := e.cause != .invalidAssignmentTarget

theorem isStructural_iff {e : SyntaxError} :
    isStructural e = true ↔ e.cause ≠ .invalidAssignmentTarget := by
  simp [isStructural]

/-- Reports of targets do not come first. -/
theorem find?_behind_reports {reports errors : List SyntaxError}
    (h : ∀ e ∈ reports, e.cause = .invalidAssignmentTarget) :
    (reports ++ errors).find? isStructural = errors.find? isStructural := by
  have hnone : reports.find? isStructural = none := by
    rw [List.find?_eq_none]
    intro e he
    simp [isStructural, h e he]
  rw [List.find?_append, hnone, Option.none_or]

variable {theEnd : Token} {limit : Nat}

theorem exact_topLevel (hend : theEnd.kind = .eof) (limit : Nat) (tokens : List Token) :
    Exact (language .declaration) Placed.declaration theEnd tokens
      (Grammar.declaration (nested limit) theEnd tokens) :=
  have hnested := exactNested hend limit
  exact_declaration (exact_rule hnested hend .expression) hnested tokens

/-- A program that begins with a token is a declaration and the rest. -/
theorem exists_declaration {text : List Token} {token : Token} (h : Derives .program text)
    (hhead : text.head? = some token) :
    ∃ first rest, text = first ++ rest ∧ Placed.declaration first rest ∧ Derives .program rest := by
  cases h with
  | noDeclaration => cases hhead
  | @declarations first rest hfirst hrest =>
    have hstops := program_stops_else hrest stops_nil
    rw [List.append_nil] at hstops
    exact ⟨first, rest, rfl, ⟨hfirst, hstops⟩, hrest⟩

/-- **The first fault of a program**, if there is a round for each token in hand. -/
theorem firstFault_of_program (hend : theEnd.kind = .eof) {e : SyntaxError}
    (hnesting : e.cause ≠ .tooMuchNesting) (rounds tokens : List Token)
    (hlong : tokens.length ≤ rounds.length)
    (hfirst : (program (nested limit) theEnd rounds tokens).errors.find? isStructural = some e) :
    ∃ before rest, tokens = before ++ rest ∧ e = .atToken (rest.headD theEnd) e.cause ∧
      (∃ later, Derives .program (before ++ later)) ∧
      ∀ text, Derives .program text → ¬ Agrees before rest text := by
  induction rounds generalizing tokens with
  | nil => cases hfirst
  | cons _ rounds ih =>
    cases tokens with
    | nil => cases hfirst
    | cons token more =>
      obtain ⟨taken, htokens, hreports, hresult⟩ := exact_topLevel hend limit (token :: more)
      rw [program] at hfirst
      generalize Grammar.declaration (nested limit) theEnd (token :: more) = reply at *
      rcases reply with ⟨found | stmt, rest, reports⟩
      · -- the declaration is given up, and its error comes first
        obtain ⟨hblamed, hcause, ⟨missing, hmissing⟩, hnone⟩ := hresult
        simp only at hfirst hreports htokens
        rw [find?_behind_reports hreports,
          List.find?_cons_of_pos (isStructural_iff.2 hcause)] at hfirst
        cases hfirst
        refine ⟨taken, rest, htokens, hblamed, ⟨missing, ?_⟩, fun text htext hagrees => ?_⟩
        · have := Derives.declarations hmissing .noDeclaration
          rwa [List.append_nil] at this
        · have hhead : text.head? = some token := by
            rw [hagrees.head?_eq, ← htokens, List.head?_cons]
          obtain ⟨first, later, rfl, hfirst, _⟩ := exists_declaration htext hhead
          exact hnesting (hnone first later hfirst hagrees)
      · -- the declaration is read, and the first fault is in what follows
        obtain ⟨hdeclaration, honly⟩ := hresult
        simp only at hfirst hreports htokens
        rw [find?_behind_reports hreports] at hfirst
        obtain ⟨first, _, htaken, _⟩ := (begins (mem_language.1 hdeclaration)).exists_cons rfl
        obtain ⟨before, left, rfl, hblamed, ⟨later, hlater⟩, hnone⟩ := ih rest (by
          have := congrArg List.length htokens
          simp only [htaken, List.length_cons, List.length_append] at this hlong
          omega) hfirst
        refine ⟨taken ++ before, left, by rw [htokens, List.append_assoc], hblamed, ⟨later, ?_⟩,
          fun text htext hagrees => ?_⟩
        · rw [List.append_assoc]
          exact .declarations hdeclaration hlater
        · have hhead : text.head? = some token := by
            rw [hagrees.head?_eq, List.append_assoc, ← htokens, List.head?_cons]
          obtain ⟨first, rest, rfl, hfirst, hrest⟩ := exists_declaration htext hhead
          cases honly first rest hfirst hagrees.of_append
          exact hnone rest hrest hagrees.append_left

/-! ### The answer of `parse` -/

/-- **What is accepted is a sentence.** -/
theorem sentence_of_parse {tokens : List Token} {stmts : List Stmt}
    (h : parse tokens = .ok stmts) : Derives .program (beforeEnd tokens) := by
  obtain ⟨body, _, htokens, _⟩ := body_of_findings (findings_of_parse h)
  rw [htokens]
  exact derives_body body

theorem errors_of_parse {tokens : List Token} {errors : List SyntaxError}
    (h : parse tokens = .error errors) : (findings tokens).errors = errors := by
  simp only [parse] at h
  split at h
  · cases h
  · exact Except.error.inj h

/-- **A sentence has no fault but its nesting.**  If one is refused and not only for the targets of
assignments, then the first other error is that it is nested too deeply. -/
theorem nesting_of_sentence {tokens : List Token} {errors : List SyntaxError} {e : SyntaxError}
    (h : parse tokens = .error errors) (hsentence : Derives .program (beforeEnd tokens))
    (hfirst : errors.find? isStructural = some e) : e.cause = .tooMuchNesting := by
  by_contra hnesting
  rw [← errors_of_parse h, findings] at hfirst
  obtain ⟨before, rest, hsplit, _, _, hnone⟩ :=
    firstFault_of_program (endToken_kind tokens) hnesting _ _ (Nat.le_refl _) hfirst
  exact hnone _ hsentence ⟨rest, hsplit, rfl⟩

/-- The token at a position is the first wrong one: it is not past the first end token, what comes
before it can be completed to a program, and together with it that is no longer so.  If it is the
end token itself, what comes before it is not a program as it stands. -/
structure FirstWrong (tokens : List Token) (position : Nat) (blamed : Token) : Prop where
  le : position ≤ (beforeEnd tokens).length
  get : (ended tokens)[position]? = some blamed
  completes : ∃ later, Derives .program (tokens.take position ++ later)
  wrong : blamed.kind ≠ .eof → ∀ later, ¬ Derives .program (tokens.take (position + 1) ++ later)
  incomplete : blamed.kind = .eof → ¬ Derives .program (tokens.take position)

/-- **The first fault blames the first wrong token.**  If a program has an error other than about
the target of an assignment, and the first such error is not about the nesting, then it has the
line and the place of the first wrong token. -/
theorem blames_firstWrong {tokens : List Token} {errors : List SyntaxError} {e : SyntaxError}
    (hparse : parse tokens = .error errors) (hfirst : errors.find? isStructural = some e)
    (hnesting : e.cause ≠ .tooMuchNesting) :
    ∃ position blamed, FirstWrong tokens position blamed ∧ e = .atToken blamed e.cause := by
  have hend := endToken_kind tokens
  have herrors := errors_of_parse hparse
  rw [← herrors, findings] at hfirst
  obtain ⟨before, rest, hsplit, hblamed, hcompletes, hnone⟩ :=
    firstFault_of_program hend hnesting _ _ (Nat.le_refl _) hfirst
  have htake := take_of_beforeEnd hsplit
  refine ⟨before.length, rest.headD (endToken tokens), ⟨?_, get?_ended hsplit, ?_, ?_, ?_⟩, hblamed⟩
  · rw [hsplit, List.length_append]
    exact Nat.le_add_right _ _
  · rwa [htake]
  · intro hkind later hderives
    cases rest with
    | nil => exact hkind hend
    | cons token rest =>
      have hsplit' : beforeEnd tokens = (before ++ [token]) ++ rest := by simpa using hsplit
      have htake' := take_of_beforeEnd hsplit'
      rw [List.length_append, List.length_singleton] at htake'
      rw [htake'] at hderives
      exact hnone _ hderives ⟨token :: later, by simp, rfl⟩
  · intro hkind hderives
    cases rest with
    | nil =>
      rw [htake] at hderives
      exact hnone before hderives ⟨[], (List.append_nil _).symm, rfl⟩
    | cons token rest =>
      have hmem : token ∈ beforeEnd tokens := by simp [hsplit]
      exact absurd hkind (kind_ne_eof_of_mem_beforeEnd hmem)

/-- The tokens of `1 = a; print );` on one line, without an end token. -/
def misplaced : List Token :=
  let sign (symbol : Symbol) (text : String) : Token := ⟨.symbol symbol, text, none, 1⟩
  [⟨.number, "1", some .nil, 1⟩, sign .equal "=", ⟨.identifier, "a", none, 1⟩, sign .semicolon ";",
    ⟨.keyword .print, "print", none, 1⟩, sign .rightParen ")", sign .semicolon ";"]

/-- The target `1` does not count, and the parenthesis is the first wrong token. -/
theorem blames_firstWrong_misplaced :
    parse misplaced = .error
        [⟨1, .lexeme "=", .invalidAssignmentTarget⟩, ⟨1, .lexeme ")", .expectedExpression⟩] ∧
      ∃ position blamed, FirstWrong misplaced position blamed ∧
        ⟨1, .lexeme ")", .expectedExpression⟩ = SyntaxError.atToken blamed .expectedExpression :=
  have hparse : parse misplaced = .error
      [⟨1, .lexeme "=", .invalidAssignmentTarget⟩, ⟨1, .lexeme ")", .expectedExpression⟩] := rfl
  ⟨hparse, blames_firstWrong hparse rfl nofun⟩

end Lox.Diagnosis
