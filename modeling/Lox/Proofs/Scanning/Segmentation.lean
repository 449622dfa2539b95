import Lox.Proofs.Scanning.Words

/-!
# Scanning as segmentation

Scanning cuts a source, from left to right and without a gap, into segments each of which is what it
says and cannot go on.  The words among them are the tokens, the faulty pieces are the errors, both
in order and on the line on which they end.  There is one such way to cut a source and no other.

* `Segment.Yields`: the token or the error that a segment is;
* `Scans`: how a source is cut, and which tokens and errors come of it;
* `segments_append_text`: the segments of a source that begins with a given one;
* `scans_iff`: scanning does this and nothing else.
-/

namespace Lox

/-- The tokens and the errors that a segment is when it ends on a given line: a word is a token,
with the value that its spelling has, and a faulty piece is an error. -/
inductive Segment.Yields (line : Nat) : Segment → List Token → List SyntaxError → Prop where
  | blank (c : Char) : Yields line (.blank c) [] []
  | comment (body : List Char) : Yields line (.comment body) [] []
  | lexeme {kind : TokenKind} {word : List Char} {value : Option Value}
      (h : Spells kind word value) :
      Yields line (.lexeme kind word) [⟨kind, String.ofList word, value, line⟩] []
  | unexpected (c : Char) :
      Yields line (.unexpected c) [] [⟨line, .nowhere, .unexpectedCharacter⟩]
  | unterminated (body : List Char) :
      Yields line (.unterminated body) [] [⟨line, .nowhere, .unterminatedString⟩]

/-- How a source, behind some text that was already read, is cut into segments, and which tokens and
errors these are.  The line of each is one more than the number of line ends up to its end, and the
end token is on the last line. -/
inductive Scans : List Char → List Char → List Segment → List Token → List SyntaxError → Prop where
  | done (before : List Char) : Scans before [] [] [⟨.eof, "", none, 1 + before.count '\n'⟩] []
  | step {before rest : List Char} {segment : Segment} {segments : List Segment}
      {made tokens : List Token} {found errors : List SyntaxError}
      (proper : segment.Proper) (ends : segment.Ends rest)
      (yields : segment.Yields (1 + (before ++ segment.text).count '\n') made found)
      (later : Scans (before ++ segment.text) rest segments tokens errors) :
      Scans before (segment.text ++ rest) (segment :: segments) (made ++ tokens) (found ++ errors)

/-! ### Segments -/

theorem Spells.ne_nil {kind : TokenKind} {word : List Char} {value : Option Value}
    (h : Spells kind word value) : word ≠ [] := by
  cases h with
  | symbol symbol => cases symbol <;> exact List.cons_ne_nil _ _
  | keyword keyword => cases keyword <;> decide
  | identifier _ _ _ => exact List.cons_ne_nil _ _
  | whole hsome _ => exact hsome
  | fraction _ _ _ _ => simp
  | string _ => exact List.cons_ne_nil _ _

theorem Segment.Proper.text_ne_nil {segment : Segment} (h : segment.Proper) :
    segment.text ≠ [] := by
  cases segment with
  | lexeme kind word =>
    obtain ⟨value, hspells⟩ := h
    exact hspells.ne_nil
  | blank _ | comment _ | unexpected _ | unterminated _ => exact List.cons_ne_nil _ _

theorem segmentsAfter_eq (skip : Nat) (source : List Char) :
    segmentsAfter skip source = segments (source.drop skip) := by
  induction source generalizing skip with
  | nil => cases skip <;> rfl
  | cons c rest ih =>
    cases skip with
    | zero => rfl
    | succ skip => exact ih skip

/-- A source that begins with a segment which is what it says and cannot go on is cut into this
segment and those of the rest. -/
theorem segments_append_text {segment : Segment} {rest : List Char} (hproper : segment.Proper)
    (hends : segment.Ends rest) :
    segments (segment.text ++ rest) = segment :: segments rest := by
  obtain ⟨c, tail, htext⟩ := List.exists_cons_of_ne_nil hproper.text_ne_nil
  have hfirst : Segment.first c (tail ++ rest) = segment :=
    Segment.first_of_starts ⟨rest, by rw [htext, List.cons_append], hproper, hends⟩
  rw [htext, List.cons_append]
  show Segment.first c (tail ++ rest) ::
    segmentsAfter ((Segment.first c (tail ++ rest)).text.length - 1) (tail ++ rest) = _
  rw [hfirst, segmentsAfter_eq, htext, List.length_cons, Nat.add_sub_cancel, List.drop_left]

/-! ### What a segment yields -/

theorem literal?_of_spells {kind : TokenKind} {word : List Char} {value : Option Value}
    (h : Spells kind word value) : Segment.literal? kind word = value := by
  cases h with
  | @string body _ => simp [Segment.literal?]
  | symbol _ | keyword _ | identifier _ _ _ | whole _ _ | fraction _ _ _ _ => rfl

theorem yields_iff {segment : Segment} (h : segment.Proper) {line : Nat} {made : List Token}
    {found : List SyntaxError} :
    segment.Yields line made found ↔
      made = (segment.token? line).toList ∧ found = (segment.error? line).toList := by
  cases segment with
  | lexeme kind word =>
    constructor
    · rintro ⟨⟩
      next value hspells =>
      rw [← literal?_of_spells hspells]
      exact ⟨rfl, rfl⟩
    · rintro ⟨rfl, rfl⟩
      obtain ⟨value, hspells⟩ := h
      simp only [Segment.token?, literal?_of_spells hspells]
      exact .lexeme hspells
  | blank _ | comment _ | unexpected _ | unterminated _ =>
    constructor
    · rintro ⟨⟩
      exact ⟨rfl, rfl⟩
    · rintro ⟨rfl, rfl⟩
      constructor

/-! ### Scanning -/

theorem filterMap_cons_toList {α β : Type} (f : α → Option β) (a : α) (list : List α) :
    (a :: list).filterMap f = (f a).toList ++ list.filterMap f := by
  rw [List.filterMap_cons]
  cases f a <;> rfl

/-- What is cut as scanning has it is what the scanner finds. -/
theorem Scans.found {before source : List Char} {pieces : List Segment} {tokens : List Token}
    {errors : List SyntaxError} (h : Scans before source pieces tokens errors) :
    pieces = segments source ∧
      tokens = (withLines (1 + lineEnds before) (segments source)).filterMap
        (fun (line, segment) => segment.token? line) ++ [.endOf (1 + lineEnds (before ++ source))] ∧
      errors = (withLines (1 + lineEnds before) (segments source)).filterMap
        fun (line, segment) => segment.error? line := by
  induction h with
  | done before =>
    rw [List.append_nil]
    exact ⟨rfl, rfl, rfl⟩
  | @step before rest segment _ made _ found _ proper ends yields _ ih =>
    obtain ⟨rfl, rfl, rfl⟩ := ih
    obtain ⟨rfl, rfl⟩ := (yields_iff proper).1 yields
    have hline : 1 + lineEnds (before ++ segment.text) =
        1 + lineEnds before + lineEnds segment.text := by
      rw [lineEnds, List.count_append, ← Nat.add_assoc]
      rfl
    rw [segments_append_text proper ends, withLines, ← List.append_assoc before]
    simp only [filterMap_cons_toList, ← hline]
    exact ⟨trivial, (List.append_assoc _ _ _).symm, rfl⟩

/-- Every source is cut in this way, whatever was read before. -/
theorem exists_scans (before source : List Char) :
    ∃ pieces tokens errors, Scans before source pieces tokens errors := by
  induction hlength : source.length using Nat.strongRecOn generalizing before source with
  | ind length ih =>
    cases source with
    | nil => exact ⟨_, _, _, .done before⟩
    | cons c tail =>
      obtain ⟨rest, hsource, hproper, hends⟩ := Segment.starts_first c tail
      have hshorter : rest.length < length := by
        have htext := List.length_pos_iff.2 hproper.text_ne_nil
        rw [← hlength, ← hsource, List.length_append]
        omega
      obtain ⟨pieces, tokens, errors, hrest⟩ :=
        ih rest.length hshorter (before ++ (Segment.first c tail).text) rest rfl
      rw [← hsource]
      exact ⟨_, _, _, .step hproper hends ((yields_iff hproper).2 ⟨rfl, rfl⟩) hrest⟩

/-- **Scanning is a segmentation without loss.**  Every source is cut into segments, each of which
is what it says and cannot go on, so that the words are the tokens and the faulty pieces the errors;
this is what the scanner finds, and there is no other way to cut the source. -/
theorem scans_iff (source : String) (pieces : List Segment) (tokens : List Token)
    (errors : List SyntaxError) :
    Scans [] source.toList pieces tokens errors ↔
      pieces = segments source.toList ∧ tokens = (scan source).tokens ∧
        errors = (scan source).errors := by
  constructor
  · exact Scans.found
  · rintro ⟨rfl, rfl, rfl⟩
    obtain ⟨pieces, tokens, errors, h⟩ := exists_scans [] source.toList
    obtain ⟨rfl, rfl, rfl⟩ := h.found
    exact h

end Lox
