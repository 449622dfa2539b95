import Lox.Proofs.Execution.Course
import Lox.Proofs.RuntimeErrors.Faults
import Lox.Proofs.Scanning.Lines
import Lox.Proofs.Seam.Joined

/-!
# Runtime errors and their statements

A program goes on with the next statement when one has failed, so each statement has at most one
error, and the errors come in the order of the statements.  An error blames a token of its own
statement, which is one of those from which that statement was read.  As the statements were read
one behind the other, the lines of the errors never go back.

* `Piece` and `ReadFrom`: statements with the tokens from which they were read;
* `readFrom_pieces`: a program that is accepted comes in such pieces;
* `piece_of_failed`, `pairwise_of_place`, `line_of_mem_range`: where their tokens and lines are;
* `runtimeErrors_traced`: the main result.
-/

namespace Lox

open Lox.Derivation Grammar

/-! ### Pieces of a program -/

/-- A statement and the tokens from which it was read. -/
structure Piece where
  statement : Stmt
  range : List Token

/-- Each statement is what the parser of declarations answers with where the tokens of its piece
begin, and it stops where those of the next begin. -/
def ReadFrom (theEnd : Token) : List Piece → Prop
  | [] => True
  | piece :: later =>
    declaration (nested maxNesting) theEnd (piece.range ++ later.flatMap Piece.range) =
        Done piece.statement (later.flatMap Piece.range) ∧
      ReadFrom theEnd later

namespace Derivation

/-- The pieces of a program, one for each of its declarations. -/
def Body.pieces : Body → List Piece
  | .nil => []
  | .cons first rest => ⟨first.stmt, first.tokens⟩ :: rest.pieces

theorem Body.map_statement_pieces (body : Body) :
    body.pieces.map Piece.statement = body.stmts := by
  cases body with
  | nil => rfl
  | cons first rest => exact congrArg (first.stmt :: ·) rest.map_statement_pieces

theorem Body.flatMap_range_pieces (body : Body) :
    body.pieces.flatMap Piece.range = body.tokens := by
  cases body with
  | nil => rfl
  | cons first rest => exact congrArg (first.tokens ++ ·) rest.flatMap_range_pieces

/-- The tokens of each statement are in its own piece. -/
theorem Body.written_pieces : ∀ (body : Body), ∀ piece ∈ body.pieces,
    Written piece.range piece.statement.occurrences
  | .nil, _, h => absurd h List.not_mem_nil
  | .cons first rest, piece, h => by
    rcases List.mem_cons.1 h with rfl | h
    · exact first.written
    · exact written_pieces rest piece h

/-- A program that is not nested too deeply is read piece by piece. -/
theorem Body.readFrom_pieces (theEnd : Token) :
    ∀ body : Body, body.levels ≤ maxNesting → ReadFrom theEnd body.pieces
  | .nil, _ => trivial
  | .cons first rest, hle => by
    simp only [levels] at hle
    have hstops : Stops [.keyword .else] rest.tokens := by
      have := body_stops_else rest (stops_nil : Stops [.keyword .else] [])
      rwa [List.append_nil] at this
    have hfirst := reads_declaration first maxNesting theEnd rest.tokens hstops
    refine ⟨?_, readFrom_pieces theEnd rest (by omega)⟩
    rw [flatMap_range_pieces]
    exact reaches_of_le hfirst (by omega)

end Derivation

/-! ### Errors, pieces and lines -/

variable {rounds : Nat} {machine last : Machine} {errors : List RuntimeError}
  {outcomes : List (Option RuntimeError)}

/-- Where a program has an error, the error blames a token in the piece of that place. -/
theorem piece_of_failed {body : Body} (course : Course rounds body.stmts machine outcomes last)
    {place : Nat} {e : RuntimeError} (h : outcomes[place]? = some (some e)) :
    ∃ piece, body.pieces[place]? = some piece ∧ e.token ∈ piece.range := by
  obtain ⟨statement, before, between, hstatement, hexecute⟩ := course.failed_at h
  rw [← body.map_statement_pieces, List.getElem?_map] at hstatement
  obtain ⟨piece, hpiece, rfl⟩ := Option.map_eq_some_iff.1 hstatement
  obtain ⟨occurrence, hoccurs, hblames⟩ := blames_of_execute hexecute
  have written := body.written_pieces piece (List.mem_of_getElem? hpiece) occurrence hoccurs
  refine ⟨piece, hpiece, ?_⟩
  rw [hblames.token_eq]
  exact written.mem

/-- Tokens that are picked from different pieces, in order, are ordered as all tokens are. -/
theorem pairwise_of_place {pieces : List Piece} {place : Nat → Nat} (increasing : StrictMono place)
    {relation : Token → Token → Prop} (ordered : (pieces.flatMap Piece.range).Pairwise relation)
    (among : ∀ (k : Nat) (e : RuntimeError), errors[k]? = some e →
      ∃ piece, pieces[place k]? = some piece ∧ e.token ∈ piece.range) :
    errors.Pairwise fun e e' => relation e.token e'.token := by
  rw [List.pairwise_iff_getElem]
  intro i j hi hj hlt
  obtain ⟨piece, hpiece, hmem⟩ := among i errors[i] (List.getElem?_eq_getElem hi)
  obtain ⟨piece', hpiece', hmem'⟩ := among j errors[j] (List.getElem?_eq_getElem hj)
  obtain ⟨hi', rfl⟩ := List.getElem?_eq_some_iff.1 hpiece
  obtain ⟨hj', rfl⟩ := List.getElem?_eq_some_iff.1 hpiece'
  have across := (List.pairwise_flatMap.1 ordered).2
  exact List.pairwise_iff_getElem.1 across _ _ hi' hj' (increasing hlt) _ hmem _ hmem'

/-- The tokens of a source that comes in pieces are on its lines. -/
theorem line_of_mem_range {source : String} {pieces : List Piece} {piece : Piece}
    {token theEnd : Token}
    (scanned : (scan source).tokens = pieces.flatMap Piece.range ++ [theEnd])
    (hpiece : piece ∈ pieces) (hmem : token ∈ piece.range) :
    1 ≤ token.line ∧ token.line ≤ theEnd.line := by
  have hrange : token ∈ pieces.flatMap Piece.range := List.mem_flatMap.2 ⟨piece, hpiece, hmem⟩
  have htoken : token ∈ (scan source).tokens := by
    rw [scanned]
    exact List.mem_append_left _ hrange
  have ordered := lines_ordered source
  rw [scanned] at ordered
  exact ⟨one_le_line htoken,
    (List.pairwise_append.1 ordered).2.2 token hrange theEnd List.mem_cons_self⟩

/-- **Runtime errors belong to statements, in order.**  Let a source without syntax errors be run to
its end on any machine.  Its tokens are those of its statements, piece by piece as they were read,
and the end token.  The errors in the report are in order those of the statements that failed, one
for each, and each blames a token in the piece of its statement.  So their lines never go back, and
they are lines of the source. -/
theorem runtimeErrors_traced (source : String) (statements : List Stmt)
    (noSyntaxError : statementsOf source = .ok statements) (rounds : Nat) (machine last : Machine)
    (report : Report) (ends : run rounds source machine = some (report, last)) :
    ∃ (pieces : List Piece) (theEnd : Token) (outcomes : List (Option RuntimeError))
      (after : Machine) (place : Nat → Nat),
      pieces.map Piece.statement = statements ∧
      (scan source).tokens = pieces.flatMap Piece.range ++ [theEnd] ∧
      theEnd.kind = .eof ∧ ReadFrom theEnd pieces ∧
      Course rounds statements machine outcomes after ∧
      report.runtimeErrors = outcomes.reduceOption ∧
      StrictMono place ∧
      (∀ (k : Nat) (e : RuntimeError), report.runtimeErrors[k]? = some e →
        outcomes[place k]? = some (some e) ∧
          ∃ piece, pieces[place k]? = some piece ∧ e.token ∈ piece.range) ∧
      (report.runtimeErrors.Pairwise fun e later => e.token.line ≤ later.token.line) ∧
      ∀ e ∈ report.runtimeErrors, 1 ≤ e.token.line ∧ e.token.line ≤ theEnd.line := by
  obtain ⟨_, hparse⟩ := statementsOf_eq_ok.1 noSyntaxError
  obtain ⟨body, hlevels, htokens, rfl⟩ := body_of_findings (findings_of_parse hparse)
  rw [beforeEnd_scan, ← body.flatMap_range_pieces] at htokens
  have scanned : (scan source).tokens =
      body.pieces.flatMap Piece.range ++ [.endOf (1 + lineEnds source.toList)] := by
    rw [tokens_scan, htokens]
  rw [run_of_ok noSyntaxError] at ends
  obtain ⟨⟨errors, after⟩, hinterpret, hreport⟩ := Option.map_eq_some_iff.1 ends
  cases hreport
  obtain ⟨outcomes, after, course, rfl, _⟩ := course_of_interpret hinterpret
  obtain ⟨place, increasing, hplace⟩ := exists_place outcomes
  have among : ∀ (k : Nat) (e : RuntimeError), outcomes.reduceOption[k]? = some e →
      ∃ piece, body.pieces[place k]? = some piece ∧ e.token ∈ piece.range :=
    fun k e hk => piece_of_failed course (hplace k e hk)
  refine ⟨body.pieces, _, outcomes, after, place, body.map_statement_pieces, scanned, rfl,
    body.readFrom_pieces _ hlevels, course, rfl, increasing, ?_, ?_, ?_⟩
  · intro k e hk
    exact ⟨hplace k e hk, among k e hk⟩
  · have ordered := lines_ordered source
    rw [scanned] at ordered
    exact pairwise_of_place increasing (List.pairwise_append.1 ordered).1 among
  · intro e he
    obtain ⟨k, hk⟩ := List.mem_iff_getElem?.1 he
    obtain ⟨piece, hpiece, hmem⟩ := among k e hk
    exact line_of_mem_range scanned (List.mem_of_getElem? hpiece) hmem

/-- Three statements of which the first and the last fail.  The step of the loop, which is at fault,
stands before its body in the source and behind it in the tree. -/
def failingStep : String := "a;\nnil;\nfor (var b; !b; b = -b) \x7b\x7d"

/-- The tokens of that source. -/
def failingStepTokens : List Token :=
  [⟨.identifier, "a", none, 1⟩, ⟨.symbol .semicolon, ";", none, 1⟩,
    ⟨.keyword .nil, "nil", none, 2⟩, ⟨.symbol .semicolon, ";", none, 2⟩,
    ⟨.keyword .for, "for", none, 3⟩, ⟨.symbol .leftParen, "(", none, 3⟩,
    ⟨.keyword .var, "var", none, 3⟩, ⟨.identifier, "b", none, 3⟩,
    ⟨.symbol .semicolon, ";", none, 3⟩, ⟨.symbol .bang, "!", none, 3⟩,
    ⟨.identifier, "b", none, 3⟩, ⟨.symbol .semicolon, ";", none, 3⟩,
    ⟨.identifier, "b", none, 3⟩, ⟨.symbol .equal, "=", none, 3⟩, ⟨.symbol .minus, "-", none, 3⟩,
    ⟨.identifier, "b", none, 3⟩, ⟨.symbol .rightParen, ")", none, 3⟩,
    ⟨.symbol .leftBrace, "\x7b", none, 3⟩, ⟨.symbol .rightBrace, "\x7d", none, 3⟩, .endOf 3]

/-- The trees of its statements. -/
def failingStepTrees : List Stmt :=
  [.expression (.variable ⟨.identifier, "a", none, 1⟩),
    .expression (.literal .nil),
    .block [.var ⟨.identifier, "b", none, 3⟩ none,
      .while (.unary ⟨.symbol .bang, "!", none, 3⟩ (.variable ⟨.identifier, "b", none, 3⟩))
        (.block [.block [],
          .expression (.assign ⟨.identifier, "b", none, 3⟩
            (.unary ⟨.symbol .minus, "-", none, 3⟩ (.variable ⟨.identifier, "b", none, 3⟩)))])]]

theorem statementsOf_failingStep : statementsOf failingStep = .ok failingStepTrees := by
  have scanned : scan failingStep = ⟨failingStepTokens, []⟩ := by decide +kernel
  exact statementsOf_of_scan scanned rfl

theorem runtimeErrors_traced_step :
    let errors : List RuntimeError :=
      [⟨⟨.identifier, "a", none, 1⟩, .undefinedVariable⟩,
        ⟨⟨.symbol .minus, "-", none, 3⟩, .operandNotNumber⟩]
    statementsOf failingStep = .ok failingStepTrees ∧
      run 1 failingStep {} = some ({ runtimeErrors := errors }, {}) ∧
      ∃ (pieces : List Piece) (place : Nat → Nat),
        pieces.map Piece.statement = failingStepTrees ∧ StrictMono place ∧
          ∀ (k : Nat) (e : RuntimeError), errors[k]? = some e →
            ∃ piece, pieces[place k]? = some piece ∧ e.token ∈ piece.range := by
  intro errors
  have ends : run 1 failingStep {} = some ({ runtimeErrors := errors }, {}) := by
    rw [run_of_ok statementsOf_failingStep]
    rfl
  obtain ⟨pieces, _, _, _, place, hpieces, _, _, _, _, _, increasing, among, _⟩ :=
    runtimeErrors_traced failingStep failingStepTrees statementsOf_failingStep 1 {} {} _ ends
  exact ⟨statementsOf_failingStep, ends, pieces, place, hpieces, increasing,
    fun k e hk => (among k e hk).2⟩

end Lox
