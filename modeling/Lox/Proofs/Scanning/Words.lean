import Lox.Scan
import Lox.Segment.Cover

/-!
# Words and other segments, said without a scanner

Which texts are words, which other pieces a source can be cut into, and when such a piece cannot go
on in the source behind it.  These three things leave a scanner no choice: at the start of a source
stands one piece that is what it says and cannot go on, and only one.

* `Spells`: the words of the language, with their kinds and the values that they carry;
* `Segment.Proper`: a segment is what its constructor says;
* `Segment.Ends`: a segment cannot go on in what follows it;
* `first_of_starts`: a segment with these two properties is the one that the scanner takes;
* `starts_first`: the one that the scanner takes has them.
-/

namespace Lox

/-! ### Words -/

/-- The words of the language: of what kind they are, how they are spelled, and which value they
carry. -/
inductive Spells : TokenKind → List Char → Option Value → Prop where
  | symbol (symbol : Symbol) : Spells (.symbol symbol) symbol.text none
  | keyword (keyword : Keyword) : Spells (.keyword keyword) keyword.text none
  | identifier {c : Char} {more : List Char} (hstart : isNameStart c = true)
      (hmore : ∀ d ∈ more, isNamePart d = true)
      (hfree : ∀ keyword : Keyword, keyword.text ≠ c :: more) :
      Spells .identifier (c :: more) none
  | whole {digits : List Char} (hsome : digits ≠ []) (hdigits : ∀ d ∈ digits, d.isDigit = true) :
      Spells .number digits (some (.number (number digits)))
  | fraction {digits places : List Char} (hsome : digits ≠ [])
      (hdigits : ∀ d ∈ digits, d.isDigit = true) (hplace : places ≠ [])
      (hplaces : ∀ d ∈ places, d.isDigit = true) :
      Spells .number (digits ++ '.' :: places)
        (some (.number (number (digits ++ '.' :: places))))
  | string {body : List Char} (hbody : '"' ∉ body) :
      Spells .string ('"' :: body ++ ['"']) (some (.string (String.ofList body)))

/-- A word cannot go on in what follows it: no name and no reserved word is followed by a character
that names go on with, no number by a digit or, unless it has a fraction, by a point and a digit,
and no symbol by one that makes it a longer symbol or a comment. -/
def WordEnds (rest word : List Char) : TokenKind → Prop
  | .symbol .bang => rest.head? ≠ some '='
  | .symbol .equal => rest.head? ≠ some '='
  | .symbol .less => rest.head? ≠ some '='
  | .symbol .greater => rest.head? ≠ some '='
  | .symbol .slash => rest.head? ≠ some '/'
  | .keyword _ => ∀ c ∈ rest.head?, isNamePart c = false
  | .identifier => ∀ c ∈ rest.head?, isNamePart c = false
  | .number => (∀ c ∈ rest.head?, c.isDigit = false) ∧
      ('.' ∉ word → ∀ c more, rest = '.' :: c :: more → c.isDigit = false)
  | _ => True

namespace Segment

/-- A segment is what its constructor says: a blank, a comment on one line, a word, a character that
is no blank and begins no word, or the contents of a string that is not closed. -/
def Proper : Segment → Prop
  | .blank c => isBlank c = true
  | .comment body => '\n' ∉ body
  | .lexeme kind word => ∃ value, Spells kind word value
  | .unexpected c =>
    isBlank c = false ∧ ∀ kind word value, Spells kind word value → word.head? ≠ some c
  | .unterminated body => '"' ∉ body

/-- A segment cannot go on in what follows it: a comment goes on to the end of its line, and a
string that is not closed to the end of the source. -/
def Ends (rest : List Char) : Segment → Prop
  | .blank _ => True
  | .comment _ => ∀ c ∈ rest.head?, c = '\n'
  | .lexeme kind word => WordEnds rest word kind
  | .unexpected _ => True
  | .unterminated _ => rest = []

/-- A source begins with a segment, which is what it says and cannot go on. -/
def Starts (source : List Char) (segment : Segment) : Prop :=
  ∃ rest, segment.text ++ rest = source ∧ segment.Proper ∧ segment.Ends rest

end Segment

/-! ### Runs of characters of one class -/

theorem takeWhile_of_ends {p : Char → Bool} {run rest : List Char} (hrun : ∀ c ∈ run, p c = true)
    (hends : ∀ c ∈ rest.head?, p c = false) : (run ++ rest).takeWhile p = run := by
  rw [List.takeWhile_append_of_pos hrun]
  cases rest with
  | nil => simp
  | cons c rest => simp [hends c rfl]

theorem dropWhile_of_ends {p : Char → Bool} {run rest : List Char} (hrun : ∀ c ∈ run, p c = true)
    (hends : ∀ c ∈ rest.head?, p c = false) : (run ++ rest).dropWhile p = rest := by
  rw [List.dropWhile_append_of_pos hrun]
  cases rest with
  | nil => rfl
  | cons c rest => simp [hends c rfl]

/-- Any text is a run of characters of a class and something that does not begin with one. -/
theorem exists_run (p : Char → Bool) (source : List Char) :
    ∃ run rest, source = run ++ rest ∧ (∀ c ∈ run, p c = true) ∧
      ∀ c ∈ rest.head?, p c = false := by
  refine ⟨source.takeWhile p, source.dropWhile p, List.takeWhile_append_dropWhile.symm,
    List.all_eq_true.1 List.all_takeWhile, ?_⟩
  intro c hc
  have hnot := List.head?_dropWhile_not p source
  rw [Option.mem_def.1 hc] at hnot
  simpa using hnot

/-! ### Classes of characters -/

theorem isBlank_iff {c : Char} : isBlank c = true ↔ c = ' ' ∨ c = '\r' ∨ c = '\t' ∨ c = '\n' := by
  simp [isBlank, or_assoc]

/-- Characters of a class that has no blank, quote or slash in it. -/
theorem only_class {p : Char → Bool}
    (hp : [' ', '\r', '\t', '\n', '"', '/'].any p = false)
    {c : Char} (h : p c = true) : isBlank c = false ∧ (c == '"') = false ∧ (c == '/') = false := by
  have hother : c ∉ [' ', '\r', '\t', '\n', '"', '/'] := fun hc =>
    List.any_eq_false.1 hp c hc h
  simp only [List.mem_cons, List.not_mem_nil, or_false, not_or] at hother
  simp [isBlank, hother]

theorem not_isNameStart_of_isDigit {c : Char} (h : c.isDigit = true) : isNameStart c = false := by
  have hunderscore : c ≠ '_' := by
    rintro rfl
    revert h
    decide
  simp only [Char.isDigit, Bool.and_eq_true, decide_eq_true_eq, ge_iff_le,
    UInt32.le_iff_toNat_le] at h
  change ((decide ('A'.val ≤ c.val ∧ c.val ≤ 'Z'.val) ||
    decide ('a'.val ≤ c.val) && decide (c.val ≤ 'z'.val)) || c == '_') = false
  simp only [Bool.or_eq_false_iff, Bool.and_eq_false_iff, decide_eq_false_iff_not,
    UInt32.le_iff_toNat_le, beq_eq_false_iff_ne]
  have hnine : '9'.val.toNat = 57 := rfl
  have hA : 'A'.val.toNat = 65 := rfl
  have ha : 'a'.val.toNat = 97 := rfl
  exact ⟨⟨by omega, by omega⟩, hunderscore⟩

/-- A digit begins numbers only. -/
theorem only_digit {c : Char} (h : c.isDigit = true) :
    isBlank c = false ∧ (c == '"') = false ∧ (c == '/') = false :=
  only_class (p := Char.isDigit) rfl h

/-- A character that begins a name begins nothing else. -/
theorem only_nameStart {c : Char} (h : isNameStart c = true) :
    isBlank c = false ∧ (c == '"') = false ∧ (c == '/') = false ∧ c.isDigit = false := by
  obtain ⟨hblank, hquote, hslash⟩ := only_class (p := isNameStart) rfl h
  refine ⟨hblank, hquote, hslash, ?_⟩
  cases hdigit : c.isDigit with
  | false => rfl
  | true => exact absurd h (by rw [not_isNameStart_of_isDigit hdigit]; decide)

/-- The characters that symbols begin with. -/
theorem only_symbol {c : Char} {symbol : Symbol} (h : Symbol.ofChar? c = some symbol) :
    isBlank c = false ∧ (c == '"') = false ∧ c.isDigit = false ∧ isNameStart c = false ∧
      symbol.text = [c] := by
  unfold Symbol.ofChar? at h
  split at h <;> cases h <;> decide

namespace Segment

/-! ### The segment that the scanner takes -/

theorem first_of_nameStart {c : Char} (h : isNameStart c = true) (rest : List Char) :
    first c rest = word (c :: rest.takeWhile isNamePart) := by
  obtain ⟨hblank, hquote, hslash, hdigit⟩ := only_nameStart h
  simp [first, hblank, hquote, hslash, hdigit, h]

theorem first_of_digit {c : Char} (h : c.isDigit = true) (rest : List Char) :
    first c rest = .lexeme .number (numeral (c :: rest)) := by
  obtain ⟨hblank, hquote, hslash⟩ := only_digit h
  simp [first, hblank, hquote, hslash, h]

theorem first_of_symbol {c : Char} {rest : List Char} {taken : Symbol}
    (h : symbol? c rest = some taken) (hcomment : c = '/' → rest.head? ≠ some '/') :
    first c rest = .lexeme (.symbol taken) taken.text := by
  obtain ⟨narrow, hnarrow, -⟩ := Option.map_eq_some_iff.1 h
  obtain ⟨hblank, hquote, hdigit, hname, _⟩ := only_symbol hnarrow
  have hslash : (c == '/' && rest.head? == some '/') = false := by
    simpa using hcomment
  simp [first, hblank, hquote, hdigit, hname, hslash, h]

theorem ofText?_text (keyword : Keyword) : Keyword.ofText? keyword.text = some keyword := by
  cases keyword <;> decide

theorem ofText?_eq_none {spelling : List Char} (h : ∀ keyword : Keyword, keyword.text ≠ spelling) :
    Keyword.ofText? spelling = none := by
  simp [Keyword.ofText?, List.find?_eq_none, h]

theorem word_of_keyword (keyword : Keyword) :
    word keyword.text = .lexeme (.keyword keyword) keyword.text := by
  simp [word, ofText?_text]

theorem word_of_free {spelling : List Char} (h : ∀ keyword : Keyword, keyword.text ≠ spelling) :
    word spelling = .lexeme .identifier spelling := by
  simp [word, ofText?_eq_none h]

/-- A reserved word is made of the characters of names. -/
theorem keyword_is_name (keyword : Keyword) :
    ∃ c more, keyword.text = c :: more ∧ isNameStart c = true ∧
      ∀ d ∈ more, isNamePart d = true := by
  cases keyword <;> exact ⟨_, _, rfl, by decide, List.all_eq_true.1 rfl⟩

/-! ### Numbers and strings -/

theorem numeral_whole {digits rest : List Char} (hdigits : ∀ d ∈ digits, d.isDigit = true)
    (hends : ∀ c ∈ rest.head?, c.isDigit = false)
    (hpoint : ∀ c more, rest = '.' :: c :: more → c.isDigit = false) :
    numeral (digits ++ rest) = digits := by
  unfold numeral
  rw [takeWhile_of_ends hdigits hends, dropWhile_of_ends hdigits hends]
  split
  · next more =>
    cases more with
    | nil => rfl
    | cons c more => simp [hpoint c more rfl]
  · rfl

theorem numeral_fraction {digits places rest : List Char}
    (hdigits : ∀ d ∈ digits, d.isDigit = true) (hplace : places ≠ [])
    (hplaces : ∀ d ∈ places, d.isDigit = true) (hends : ∀ c ∈ rest.head?, c.isDigit = false) :
    numeral (digits ++ '.' :: (places ++ rest)) = digits ++ '.' :: places := by
  have hpoint : ∀ c ∈ ('.' :: (places ++ rest)).head?, c.isDigit = false := by
    rintro c ⟨⟩
    decide
  unfold numeral
  rw [takeWhile_of_ends hdigits hpoint, dropWhile_of_ends hdigits hpoint]
  simp only [takeWhile_of_ends hplaces hends]

theorem quoted_closed {body : List Char} (hbody : '"' ∉ body) (rest : List Char) :
    quoted (body ++ '"' :: rest) = .lexeme .string ('"' :: body ++ ['"']) := by
  have hrun : ∀ c ∈ body, (c != '"') = true := fun c hc => by
    simpa using ne_of_mem_of_not_mem hc hbody
  have htaken : (body ++ '"' :: rest).takeWhile (· != '"') = body :=
    takeWhile_of_ends hrun (by simp)
  have hshorter : body.length < (body ++ '"' :: rest).length := by simp
  unfold quoted
  rw [htaken, if_pos hshorter]

theorem quoted_open {body : List Char} (hbody : '"' ∉ body) : quoted body = .unterminated body := by
  have hrun : ∀ c ∈ body, (c != '"') = true := fun c hc => by
    simpa using ne_of_mem_of_not_mem hc hbody
  have htaken : (body ++ []).takeWhile (· != '"') = body := takeWhile_of_ends hrun (by simp)
  rw [List.append_nil] at htaken
  unfold quoted
  rw [htaken, if_neg (Nat.lt_irrefl _)]

/-! ### One segment and no other -/

theorem symbol?_narrow {c : Char} {narrow : Symbol} {rest : List Char}
    (h : Symbol.ofChar? c = some narrow) (hends : rest.head? ≠ some '=') :
    symbol? c rest = some narrow := by
  cases rest with
  | nil => simp [symbol?, h]
  | cons d rest =>
    have hd : d ≠ '=' := by simpa using hends
    simp [symbol?, h, hd]

/-- A symbol that cannot go on is the longest with which a source begins. -/
theorem symbol?_of_ends {symbol : Symbol} {rest : List Char}
    (hends : WordEnds rest symbol.text (.symbol symbol)) {c : Char} {tail : List Char}
    (hsource : symbol.text ++ rest = c :: tail) : symbol? c tail = some symbol := by
  cases symbol <;> obtain ⟨rfl, rfl⟩ := List.cons.inj hsource
  case bang => exact symbol?_narrow rfl hends
  case equal => exact symbol?_narrow rfl hends
  case less => exact symbol?_narrow rfl hends
  case greater => exact symbol?_narrow rfl hends
  all_goals rfl

theorem first_of_word {kind : TokenKind} {text : List Char} {value : Option Value}
    (h : Spells kind text value) {rest : List Char} (hends : WordEnds rest text kind) {c : Char}
    {tail : List Char} (hsource : text ++ rest = c :: tail) :
    first c tail = .lexeme kind text := by
  cases h with
  | symbol symbol =>
    refine first_of_symbol (symbol?_of_ends hends hsource) (fun hslash => ?_)
    cases symbol <;> obtain ⟨rfl, rfl⟩ := List.cons.inj hsource
    case slash => exact hends
    all_goals exact absurd hslash (by decide)
  | keyword keyword =>
    obtain ⟨d, more, htext, hstart, hmore⟩ := keyword_is_name keyword
    rw [htext, List.cons_append] at hsource
    obtain ⟨rfl, rfl⟩ := List.cons.inj hsource
    rw [first_of_nameStart hstart, takeWhile_of_ends hmore hends, ← htext, word_of_keyword]
  | identifier hstart hmore hfree =>
    rw [List.cons_append] at hsource
    obtain ⟨rfl, rfl⟩ := List.cons.inj hsource
    rw [first_of_nameStart hstart, takeWhile_of_ends hmore hends, word_of_free hfree]
  | whole hsome hdigits =>
    have hpoint : '.' ∉ text := fun h => absurd (hdigits _ h) (by decide)
    have hstart : c.isDigit = true := by
      cases text with
      | nil => contradiction
      | cons d more => cases hsource; exact hdigits _ List.mem_cons_self
    rw [first_of_digit hstart, ← hsource, numeral_whole hdigits hends.1 (hends.2 hpoint)]
  | @fraction digits places hsome hdigits hplace hplaces =>
    have hstart : c.isDigit = true := by
      cases digits with
      | nil => contradiction
      | cons d more => cases hsource; exact hdigits _ List.mem_cons_self
    rw [first_of_digit hstart, ← hsource, List.append_assoc, List.cons_append,
      numeral_fraction hdigits hplace hplaces hends.1]
  | @string body hbody =>
    rw [List.append_assoc, List.cons_append] at hsource
    obtain ⟨rfl, rfl⟩ := List.cons.inj hsource
    exact quoted_closed hbody rest

/-- The characters that begin a word. -/
theorem begins_word_iff {c : Char} :
    (∃ kind word value, Spells kind word value ∧ word.head? = some c) ↔
      c = '"' ∨ c.isDigit = true ∨ isNameStart c = true ∨
        ∃ symbol, Symbol.ofChar? c = some symbol := by
  constructor
  · rintro ⟨kind, word, value, hspells, hhead⟩
    cases hspells with
    | symbol symbol =>
      refine .inr (.inr (.inr ?_))
      cases symbol <;> obtain rfl := Option.some.inj hhead <;> exact ⟨_, rfl⟩
    | keyword keyword =>
      obtain ⟨d, more, htext, hstart, _⟩ := keyword_is_name keyword
      rw [htext] at hhead
      obtain rfl := Option.some.inj hhead
      exact .inr (.inr (.inl hstart))
    | identifier hstart _ _ =>
      obtain rfl := Option.some.inj hhead
      exact .inr (.inr (.inl hstart))
    | whole _ hdigits => exact .inr (.inl (hdigits c (List.mem_of_head? hhead)))
    | @fraction digits _ hsome hdigits _ _ =>
      cases digits with
      | nil => contradiction
      | cons d more =>
        obtain rfl := Option.some.inj hhead
        exact .inr (.inl (hdigits _ List.mem_cons_self))
    | string _ =>
      obtain rfl := Option.some.inj hhead
      exact .inl rfl
  · rintro (rfl | hdigit | hname | ⟨symbol, hsymbol⟩)
    · exact ⟨_, _, _, .string List.not_mem_nil, rfl⟩
    · exact ⟨_, [c], _, .whole (List.cons_ne_nil _ _) (by simpa using hdigit), rfl⟩
    · by_cases hkeyword : ∃ keyword : Keyword, keyword.text = [c]
      · obtain ⟨keyword, htext⟩ := hkeyword
        exact ⟨_, _, _, .keyword keyword, by rw [htext]; rfl⟩
      · exact ⟨_, _, _, .identifier hname (by simp) (not_exists.1 hkeyword), rfl⟩
    · exact ⟨_, _, _, .symbol symbol, by rw [(only_symbol hsymbol).2.2.2.2]; rfl⟩

/-- **No choice.**  If a source begins with a segment that is what it says and cannot go on, then
that is the segment which the scanner takes. -/
theorem first_of_starts {segment : Segment} {c : Char} {tail : List Char}
    (h : segment.Starts (c :: tail)) : first c tail = segment := by
  obtain ⟨rest, hsource, hproper, hends⟩ := h
  cases segment with
  | blank d =>
    obtain ⟨rfl, rfl⟩ := List.cons.inj hsource
    exact if_pos hproper
  | comment body =>
    obtain ⟨rfl, rfl⟩ := List.cons.inj hsource
    have hrun : ∀ c ∈ body, (c != '\n') = true := fun c hc => by
      simpa using ne_of_mem_of_not_mem hc hproper
    have hstop : ∀ c ∈ rest.head?, (c != '\n') = false := fun c hc => by
      simpa using hends c hc
    show Segment.comment ((body ++ rest).takeWhile (· != '\n')) = .comment body
    rw [takeWhile_of_ends hrun hstop]
  | lexeme kind word =>
    obtain ⟨value, hspells⟩ := hproper
    exact first_of_word hspells hends hsource
  | unexpected d =>
    obtain ⟨rfl, rfl⟩ := List.cons.inj hsource
    obtain ⟨hblank, hnone⟩ := hproper
    have hother := mt begins_word_iff.2 (fun ⟨kind, word, value, hspells, hhead⟩ =>
      hnone kind word value hspells hhead)
    simp only [not_or, not_exists, Bool.not_eq_true] at hother
    obtain ⟨hquote, hdigit, hname, hsymbol⟩ := hother
    have hslash : d ≠ '/' := by
      rintro rfl
      exact hsymbol .slash rfl
    have hnarrow : Symbol.ofChar? d = none := Option.eq_none_iff_forall_ne_some.2 hsymbol
    show first d rest = .unexpected d
    simp [first, hblank, hquote, hdigit, hname, hslash, symbol?, hnarrow]
  | unterminated body =>
    obtain rfl : rest = [] := hends
    obtain ⟨rfl, rfl⟩ := List.cons.inj hsource
    show quoted (body ++ []) = .unterminated body
    rw [List.append_nil, quoted_open hproper]

theorem starts_quote (rest : List Char) : ∃ segment, Starts ('"' :: rest) segment := by
  obtain ⟨body, after, rfl, hbody, hafter⟩ := exists_run (· != '"') rest
  have hclosed : '"' ∉ body := fun h => absurd (hbody _ h) (by decide)
  cases after with
  | nil => exact ⟨.unterminated body, [], by simp [text], hclosed, rfl⟩
  | cons quote later =>
    obtain rfl : quote = '"' := by simpa using hafter quote rfl
    exact ⟨.lexeme .string ('"' :: body ++ ['"']), later, by simp [text],
      ⟨_, .string hclosed⟩, trivial⟩

theorem starts_comment (rest : List Char) : ∃ segment, Starts ('/' :: '/' :: rest) segment := by
  obtain ⟨body, after, rfl, hbody, hafter⟩ := exists_run (· != '\n') rest
  refine ⟨.comment body, after, rfl, fun h => absurd (hbody _ h) (by decide), ?_⟩
  intro c hc
  simpa using hafter c hc

theorem starts_digit {c : Char} (h : c.isDigit = true) (rest : List Char) :
    ∃ segment, Starts (c :: rest) segment := by
  obtain ⟨digits, after, hsource, hdigits, hafter⟩ := exists_run Char.isDigit (c :: rest)
  have hsome : digits ≠ [] := by
    rintro rfl
    have := hafter c (by rw [← List.nil_append after, ← hsource]; rfl)
    rw [h] at this
    cases this
  have hpoint : '.' ∉ digits := fun h => absurd (hdigits _ h) (by decide)
  by_cases hfraction : ∃ d more, after = '.' :: d :: more ∧ d.isDigit = true
  · obtain ⟨d, more, rfl, hd⟩ := hfraction
    obtain ⟨places, later, hmore, hplaces, hlater⟩ := exists_run Char.isDigit more
    refine ⟨.lexeme .number (digits ++ '.' :: d :: places), later, by simp [text, hsource, hmore],
      ⟨_, .fraction hsome hdigits (List.cons_ne_nil _ _) ?_⟩, hlater, fun hnone => ?_⟩
    · simpa [hd] using hplaces
    · simp at hnone
  · refine ⟨.lexeme .number digits, after, hsource.symm, ⟨_, .whole hsome hdigits⟩, hafter,
      fun _ d more hmore => ?_⟩
    exact Bool.eq_false_iff.2 fun hd => hfraction ⟨d, more, hmore, hd⟩

theorem starts_name {c : Char} (h : isNameStart c = true) (rest : List Char) :
    ∃ segment, Starts (c :: rest) segment := by
  obtain ⟨more, after, rfl, hmore, hafter⟩ := exists_run isNamePart rest
  by_cases hkeyword : ∃ keyword : Keyword, keyword.text = c :: more
  · obtain ⟨keyword, htext⟩ := hkeyword
    refine ⟨.lexeme (.keyword keyword) (c :: more), after, rfl, ⟨none, ?_⟩, hafter⟩
    rw [← htext]
    exact .keyword keyword
  · exact ⟨.lexeme .identifier (c :: more), after, rfl,
      ⟨_, .identifier h hmore (not_exists.1 hkeyword)⟩, hafter⟩

theorem starts_symbol {c : Char} {narrow : Symbol} (h : Symbol.ofChar? c = some narrow)
    {rest : List Char} (hcomment : c = '/' → rest.head? ≠ some '/') :
    ∃ segment, Starts (c :: rest) segment := by
  have htext : narrow.text = [c] := (only_symbol h).2.2.2.2
  by_cases hwide : ∃ wide more, narrow.withEqual? = some wide ∧ rest = '=' :: more
  · obtain ⟨wide, more, hwide, rfl⟩ := hwide
    have hlong : wide.text = narrow.text ++ ['='] := by
      cases narrow <;> cases hwide <;> rfl
    refine ⟨.lexeme (.symbol wide) wide.text, more, by simp [text, hlong, htext],
      ⟨_, .symbol wide⟩, ?_⟩
    cases narrow <;> cases hwide <;> trivial
  · refine ⟨.lexeme (.symbol narrow) narrow.text, rest, by simp [text, htext],
      ⟨_, .symbol narrow⟩, ?_⟩
    have hequal : ∀ wide, narrow.withEqual? = some wide → rest.head? ≠ some '=' := by
      intro wide h hhead
      obtain ⟨more, rfl⟩ := List.head?_eq_some_iff.1 hhead
      exact hwide ⟨wide, more, h, rfl⟩
    cases narrow
    case bang => exact hequal _ rfl
    case equal => exact hequal _ rfl
    case less => exact hequal _ rfl
    case greater => exact hequal _ rfl
    case slash => exact hcomment (List.cons.inj htext).1.symm
    all_goals trivial

/-- Every source that is not empty begins with such a segment. -/
theorem exists_starts (c : Char) (rest : List Char) : ∃ segment, Starts (c :: rest) segment := by
  by_cases hblank : isBlank c = true
  · exact ⟨.blank c, rest, rfl, hblank, trivial⟩
  by_cases hcomment : c = '/' ∧ rest.head? = some '/'
  · obtain ⟨rfl, hhead⟩ := hcomment
    obtain ⟨more, rfl⟩ := List.head?_eq_some_iff.1 hhead
    exact starts_comment more
  by_cases hword : ∃ kind word value, Spells kind word value ∧ word.head? = some c
  · obtain rfl | hdigit | hname | ⟨symbol, hsymbol⟩ := begins_word_iff.1 hword
    · exact starts_quote rest
    · exact starts_digit hdigit rest
    · exact starts_name hname rest
    · exact starts_symbol hsymbol (fun h hhead => hcomment ⟨h, hhead⟩)
  · exact ⟨.unexpected c, rest, rfl, ⟨Bool.eq_false_iff.2 hblank,
      fun kind word value hspells hhead => hword ⟨kind, word, value, hspells, hhead⟩⟩, trivial⟩

/-- **The segment that the scanner takes** is what it says and cannot go on. -/
theorem starts_first (c : Char) (rest : List Char) : Starts (c :: rest) (first c rest) := by
  obtain ⟨segment, h⟩ := exists_starts c rest
  rwa [first_of_starts h]

end Segment

end Lox
