import Lox.Proofs.Scanning.Segmentation

/-!
# Words that are written out

Words are written one after another, with something between them that begins with a blank.  Scanning
finds these words again and nothing else: no word goes on in a blank, and what stands between words,
whatever it says, is no word.

* `Lexeme`: a word of the language, with the proof that it is one;
* `Separator`: what can stand between words: a blank, then further blanks and comments;
* `written`: words with separators between them;
* `scans_written`: how such a source is cut, whatever was read before;
* `scan_written_lexemes`: the main result.
-/

namespace Lox

/-! ### Words and what separates them -/

/-- A word of the language. -/
inductive Lexeme where
  /-- An operator or a punctuation mark. -/
  | symbol (mark : Symbol)
  /-- A name or a reserved word. -/
  | word (first : Char) (more : List Char) (hfirst : isNameStart first = true)
      (hmore : ∀ c ∈ more, isNamePart c = true)
  /-- A number without a point. -/
  | whole (digits : List Char) (hsome : digits ≠ []) (hdigits : ∀ c ∈ digits, c.isDigit = true)
  /-- A number with a point and digits on both sides. -/
  | fraction (digits places : List Char) (hsome : digits ≠ [])
      (hdigits : ∀ c ∈ digits, c.isDigit = true) (hplace : places ≠ [])
      (hplaces : ∀ c ∈ places, c.isDigit = true)
  /-- A string, which can hold everything but a quote. -/
  | string (body : List Char) (hbody : '"' ∉ body)

namespace Lexeme

/-- How a word is written. -/
def text : Lexeme → List Char
  | .symbol mark => mark.text
  | .word first more _ _ => first :: more
  | .whole digits _ _ => digits
  | .fraction digits places _ _ _ _ => digits ++ '.' :: places
  | .string body _ => '"' :: body ++ ['"']

/-- The kind of a word. -/
def kind : Lexeme → TokenKind
  | .symbol mark => .symbol mark
  | .word first more _ _ =>
    match Keyword.ofText? (first :: more) with
    | some keyword => .keyword keyword
    | none => .identifier
  | .whole _ _ _ => .number
  | .fraction _ _ _ _ _ _ => .number
  | .string _ _ => .string

/-- The value that a word carries. -/
def value? : Lexeme → Option Value
  | .symbol _ => none
  | .word _ _ _ _ => none
  | .whole digits _ _ => some (.number (number digits))
  | .fraction digits places _ _ _ _ => some (.number (number (digits ++ '.' :: places)))
  | .string body _ => some (.string (String.ofList body))

theorem spells (lexeme : Lexeme) : Spells lexeme.kind lexeme.text lexeme.value? := by
  cases lexeme with
  | symbol mark => exact .symbol mark
  | word first more hfirst hmore =>
    simp only [kind, text, value?]
    split
    · next keyword hkeyword =>
      have htext : keyword.text = first :: more := by simpa using List.find?_some hkeyword
      rw [← htext]
      exact .keyword keyword
    · next hfree =>
      refine .identifier hfirst hmore fun keyword htext => ?_
      rw [← htext, Segment.ofText?_text] at hfree
      cases hfree
  | whole digits hsome hdigits => exact .whole hsome hdigits
  | fraction digits places hsome hdigits hplace hplaces =>
    exact .fraction hsome hdigits hplace hplaces
  | string body hbody => exact .string hbody

/-- The token that a word is when it ends on a given line. -/
def token (lexeme : Lexeme) (line : Nat) : Token :=
  ⟨lexeme.kind, String.ofList lexeme.text, lexeme.value?, line⟩

end Lexeme

/-- One thing between words: a blank, or a comment with the end of its line. -/
inductive Filler where
  | blank (c : Char) (hblank : isBlank c = true)
  | comment (body : List Char) (hbody : '\n' ∉ body)

/-- How it is written. -/
def Filler.text : Filler → List Char
  | .blank c _ => [c]
  | .comment body _ => '/' :: '/' :: body ++ ['\n']

/-- What stands between two words.  It begins with a blank. -/
structure Separator where
  first : Char
  hfirst : isBlank first = true
  more : List Filler

/-- How it is written. -/
def Separator.text (separator : Separator) : List Char :=
  separator.first :: separator.more.flatMap Filler.text

/-- Words written one after another, with a separator between each two. -/
def written (separators : Nat → Separator) : List Lexeme → List Char
  | [] => []
  | [lexeme] => lexeme.text
  | lexeme :: next :: more =>
    lexeme.text ++ ((separators 0).text ++ written (fun i => separators (i + 1)) (next :: more))

/-! ### Cutting -/

/-- A blank is no character in which any word goes on. -/
theorem blank_ends {c : Char} (h : isBlank c = true) :
    isNamePart c = false ∧ c.isDigit = false ∧ c ≠ '=' ∧ c ≠ '/' ∧ c ≠ '.' := by
  obtain rfl | rfl | rfl | rfl := isBlank_iff.1 h <;> decide

/-- No word goes on in a blank, and none at the end. -/
theorem wordEnds_of_blank {rest : List Char} (hrest : ∀ c ∈ rest.head?, isBlank c = true)
    (word : List Char) (kind : TokenKind) : WordEnds rest word kind := by
  have hname : ∀ c ∈ rest.head?, isNamePart c = false := fun c hc => (blank_ends (hrest c hc)).1
  have hdigit : ∀ c ∈ rest.head?, c.isDigit = false := fun c hc => (blank_ends (hrest c hc)).2.1
  have hequal : rest.head? ≠ some '=' := fun h => (blank_ends (hrest _ h)).2.2.1 rfl
  have hslash : rest.head? ≠ some '/' := fun h => (blank_ends (hrest _ h)).2.2.2.1 rfl
  cases kind with
  | symbol mark =>
    cases mark
    case bang => exact hequal
    case equal => exact hequal
    case less => exact hequal
    case greater => exact hequal
    case slash => exact hslash
    all_goals trivial
  | keyword _ => exact hname
  | identifier => exact hname
  | string => trivial
  | number =>
    refine ⟨hdigit, fun _ c more hpoint => ?_⟩
    have hhead : '.' ∈ rest.head? := by rw [hpoint]; rfl
    exact absurd rfl (blank_ends (hrest '.' hhead)).2.2.2.2
  | eof => trivial

/-- What stands between words adds no token and no error. -/
theorem Filler.scans (filler : Filler) {before rest : List Char} {tokens : List Token}
    (h : ∃ pieces, Scans (before ++ filler.text) rest pieces tokens []) :
    ∃ pieces, Scans before (filler.text ++ rest) pieces tokens [] := by
  obtain ⟨pieces, h⟩ := h
  cases filler with
  | blank c hblank =>
    have hproper : (Segment.blank c).Proper := hblank
    exact ⟨_, .step hproper trivial (.blank c) h⟩
  | comment body hbody =>
    have hline : Scans (before ++ '/' :: '/' :: body) ('\n' :: rest) (.blank '\n' :: pieces)
        tokens [] := by
      have hproper : (Segment.blank '\n').Proper := rfl
      refine .step hproper trivial (.blank '\n') ?_
      rwa [List.append_assoc]
    have hcomment : Scans before (('/' :: '/' :: body) ++ '\n' :: rest)
        (.comment body :: .blank '\n' :: pieces) tokens [] := by
      have hproper : (Segment.comment body).Proper := hbody
      refine .step hproper ?_ (.comment body) hline
      rintro c ⟨⟩
      rfl
    refine ⟨.comment body :: .blank '\n' :: pieces, ?_⟩
    show Scans before ('/' :: '/' :: body ++ ['\n'] ++ rest) _ tokens []
    rwa [List.append_assoc]

theorem scans_fillers (fillers : List Filler) {before rest : List Char} {tokens : List Token}
    (h : ∃ pieces, Scans (before ++ fillers.flatMap Filler.text) rest pieces tokens []) :
    ∃ pieces, Scans before (fillers.flatMap Filler.text ++ rest) pieces tokens [] := by
  induction fillers generalizing before with
  | nil => rwa [List.flatMap_nil, List.append_nil] at h
  | cons filler more ih =>
    rw [List.flatMap_cons, List.append_assoc]
    refine filler.scans (ih ?_)
    rwa [List.append_assoc, ← List.flatMap_cons]

theorem Separator.scans (separator : Separator) {before rest : List Char} {tokens : List Token}
    (h : ∃ pieces, Scans (before ++ separator.text) rest pieces tokens []) :
    ∃ pieces, Scans before (separator.text ++ rest) pieces tokens [] :=
  scans_fillers (.blank separator.first separator.hfirst :: separator.more) h

/-- A word that a blank or nothing follows is a token, on the line on which the word ends. -/
theorem Lexeme.scans (lexeme : Lexeme) {before rest : List Char} {tokens : List Token}
    (hrest : ∀ c ∈ rest.head?, isBlank c = true)
    (h : ∃ pieces, Scans (before ++ lexeme.text) rest pieces tokens []) :
    ∃ pieces, Scans before (lexeme.text ++ rest) pieces
      (lexeme.token (1 + (before ++ lexeme.text).count '\n') :: tokens) [] := by
  obtain ⟨pieces, h⟩ := h
  have hproper : (Segment.lexeme lexeme.kind lexeme.text).Proper := ⟨_, lexeme.spells⟩
  exact ⟨_, .step hproper (wordEnds_of_blank hrest _ _) (.lexeme lexeme.spells) h⟩

/-- The tokens of words that are written behind some text that was already read. -/
def tokensWritten (before : List Char) (separators : Nat → Separator) (lexemes : List Lexeme) :
    List Token :=
  lexemes.mapIdx (fun i lexeme =>
    lexeme.token (1 + (before ++ written separators (lexemes.take (i + 1))).count '\n')) ++
    [.endOf (1 + (before ++ written separators lexemes).count '\n')]

theorem tokensWritten_cons (before : List Char) (separators : Nat → Separator)
    (lexeme next : Lexeme) (more : List Lexeme) :
    tokensWritten before separators (lexeme :: next :: more) =
      lexeme.token (1 + (before ++ lexeme.text).count '\n') ::
        tokensWritten (before ++ lexeme.text ++ (separators 0).text)
          (fun i => separators (i + 1)) (next :: more) := by
  have behind : ∀ rest : List Char, before ++ (lexeme.text ++ ((separators 0).text ++ rest)) =
      before ++ lexeme.text ++ (separators 0).text ++ rest := fun rest => by
    simp only [List.append_assoc]
  simp only [tokensWritten, List.mapIdx_cons, List.take_succ_cons, List.take_zero, written, behind]
  rfl

/-- **How words that are written out are cut**, behind any text. -/
theorem scans_written (separators : Nat → Separator) (lexemes : List Lexeme) (before : List Char) :
    ∃ pieces, Scans before (written separators lexemes) pieces
      (tokensWritten before separators lexemes) [] := by
  induction separators, lexemes using written.induct generalizing before with
  | case1 separators =>
    refine ⟨[], ?_⟩
    rw [tokensWritten, written, List.append_nil]
    exact .done before
  | case2 separators lexeme =>
    have hscans : ∃ pieces, Scans before (lexeme.text ++ []) pieces
        (tokensWritten before separators [lexeme]) [] := lexeme.scans (by simp) ⟨[], .done _⟩
    rwa [List.append_nil] at hscans
  | case3 separators lexeme next more ih =>
    rw [tokensWritten_cons, written]
    refine lexeme.scans ?_ ((separators 0).scans (ih _))
    rintro c ⟨⟩
    exact (separators 0).hfirst

/-- **Scanning undoes writing out.**  Words are written one after another, with separators between
them.  Scanning finds no error, and exactly these words in order and the end: of each its kind, its
spelling, its value, and the line on which it ends. -/
theorem scan_written_lexemes (separators : Nat → Separator) (lexemes : List Lexeme) :
    let source := written separators lexemes
    (scan (String.ofList source)).errors = [] ∧
      (scan (String.ofList source)).tokens =
        lexemes.mapIdx (fun i lexeme =>
          ⟨lexeme.kind, String.ofList lexeme.text, lexeme.value?,
            1 + (written separators (lexemes.take (i + 1))).count '\n'⟩) ++
          [⟨.eof, "", none, 1 + source.count '\n'⟩] := by
  intro source
  obtain ⟨pieces, hscans⟩ := scans_written separators lexemes []
  obtain ⟨_, htokens, herrors⟩ := hscans.found
  unfold scan
  rw [String.toList_ofList]
  exact ⟨herrors.symm, htokens.symm⟩

end Lox
