import Lox.Proofs.Relabeling.Trees
import Lox.Scan
import Lox.Segment.Cover

/-!
# Scanning sources that are joined by a line end

No word, comment or faulty piece goes on behind a line end, a string that is not closed apart.  So a
source that has no such string can be continued on a new line, and what follows is cut into the
same segments as on its own, only on later lines.

* `Segment.first_append`: the first segment of a source does not see what follows the line end;
* `segments_append`: the segments of two sources joined by a line end;
* `withLines_later`: lines are counted from where a source begins;
* `words` and `scan_append`: the words of two such sources, each kind being that of a word.
-/

namespace Lox

/-! ### The first segment -/

theorem takeWhile_append_stop {p : Char → Bool} {stop : Char} (h : p stop = false)
    (source later : List Char) :
    (source ++ stop :: later).takeWhile p = source.takeWhile p := by
  induction source with
  | nil => simp [h]
  | cons c rest ih =>
    simp only [List.cons_append, List.takeWhile_cons, ih]

theorem dropWhile_append_stop {p : Char → Bool} {stop : Char} (h : p stop = false)
    (source later : List Char) :
    (source ++ stop :: later).dropWhile p = source.dropWhile p ++ stop :: later := by
  induction source with
  | nil => simp [h]
  | cons c rest ih =>
    simp only [List.cons_append, List.dropWhile_cons, ih]
    split <;> rfl

namespace Segment

variable (c : Char) (rest later : List Char)

theorem numeral_append (source : List Char) :
    numeral (source ++ '\n' :: later) = numeral source := by
  have stop : Char.isDigit '\n' = false := rfl
  unfold numeral
  rw [takeWhile_append_stop stop, dropWhile_append_stop stop]
  cases source.dropWhile Char.isDigit with
  | nil => rfl
  | cons point fraction =>
    by_cases h : point = '.'
    · subst h
      simp only [List.cons_append, takeWhile_append_stop stop]
    · simp [h]

theorem quoted_append (h : ∀ body, quoted rest ≠ .unterminated body) :
    quoted (rest ++ '\n' :: later) = quoted rest := by
  have closed : (rest.takeWhile (· != '"')).length < rest.length := by
    by_cases closed : (rest.takeWhile (· != '"')).length < rest.length
    · exact closed
    · exact absurd (if_neg closed) (h rest)
  have body : (rest ++ '\n' :: later).takeWhile (· != '"') = rest.takeWhile (· != '"') := by
    rw [List.takeWhile_append, if_neg (by omega)]
  have longer : (rest.takeWhile (· != '"')).length < (rest ++ '\n' :: later).length := by
    rw [List.length_append]
    omega
  unfold quoted
  rw [body, if_pos longer, if_pos closed]

theorem symbol?_append : symbol? c (rest ++ '\n' :: later) = symbol? c rest := by
  unfold symbol?
  cases rest with
  | nil =>
    cases Symbol.ofChar? c with
    | none => rfl
    | some narrow => cases narrow <;> rfl
  | cons d rest =>
    cases Symbol.ofChar? c with
    | none => rfl
    | some narrow =>
      simp only [Option.map_some, List.cons_append]
      cases narrow.withEqual? with
      | none => rfl
      | some wide =>
        by_cases h : d = '='
        · subst h
          rfl
        · simp [h]

/-- **The first segment does not see the next line.**  What follows a line end changes nothing in
the first segment of the source before it, unless that is a string which is not closed. -/
theorem first_append (h : ∀ body, first c rest ≠ .unterminated body) :
    first c (rest ++ '\n' :: later) = first c rest := by
  have slashes : (c == '/' && (rest ++ '\n' :: later).head? == some '/') =
      (c == '/' && rest.head? == some '/') := by
    cases rest <;> simp
  unfold first at h ⊢
  rw [slashes]
  split
  · rfl
  next hblank =>
  split
  · next hquote =>
    rw [if_neg hblank, if_pos hquote] at h
    exact quoted_append rest later h
  split
  · next hslash =>
    cases rest with
    | nil => simp at hslash
    | cons d rest =>
      simp only [List.cons_append, List.tail_cons]
      rw [takeWhile_append_stop rfl]
  split
  · rw [← List.cons_append, numeral_append]
  split
  · rw [takeWhile_append_stop rfl]
  · rw [symbol?_append]

end Segment

/-! ### All segments -/

theorem segmentsAfter_append (skip : Nat) (source later : List Char) (hskip : skip ≤ source.length)
    (h : ∀ body, .unterminated body ∉ segmentsAfter skip source) :
    segmentsAfter skip (source ++ '\n' :: later) =
      segmentsAfter skip source ++ .blank '\n' :: segments later := by
  induction source generalizing skip with
  | nil =>
    obtain rfl : skip = 0 := Nat.le_zero.1 hskip
    rfl
  | cons c rest ih =>
    cases skip with
    | succ skip => exact ih skip (Nat.le_of_succ_le_succ hskip) h
    | zero =>
      have hfirst : ∀ body, Segment.first c rest ≠ .unterminated body := by
        intro body hbody
        refine h body ?_
        rw [segmentsAfter, hbody]
        exact List.mem_cons_self
      have hrest : ∀ body,
          .unterminated body ∉ segmentsAfter ((Segment.first c rest).text.length - 1) rest := by
        intro body hbody
        exact h body (List.mem_cons_of_mem _ hbody)
      have hlength : (Segment.first c rest).text.length - 1 ≤ rest.length := by
        have hprefix := (Segment.first_prefix c rest).length_le
        rw [List.length_cons] at hprefix
        omega
      simp only [List.cons_append, segmentsAfter, Segment.first_append c rest later hfirst,
        ih _ hlength hrest]

/-- **Segments of joined sources.**  Joined by a line end, two sources are cut as they are on their
own if the first has no string that is not closed. -/
theorem segments_append (source later : List Char)
    (h : ∀ body, .unterminated body ∉ segments source) :
    segments (source ++ '\n' :: later) = segments source ++ .blank '\n' :: segments later :=
  segmentsAfter_append 0 source later (Nat.zero_le _) h

theorem mem_segmentsAfter {skip : Nat} {source : List Char} {segment : Segment}
    (h : segment ∈ segmentsAfter skip source) : ∃ c rest, segment = Segment.first c rest := by
  induction source generalizing skip with
  | nil => cases skip <;> cases h
  | cons c rest ih =>
    cases skip with
    | succ skip => exact ih h
    | zero =>
      rcases List.mem_cons.1 h with rfl | h
      · exact ⟨c, rest, rfl⟩
      · exact ih h

/-! ### Lines -/

theorem withLines_append (line : Nat) (before after : List Segment) :
    withLines line (before ++ after) =
      withLines line before ++
        withLines (line + lineEnds (before.flatMap Segment.text)) after := by
  induction before generalizing line with
  | nil => rfl
  | cons segment rest ih =>
    simp only [List.cons_append, withLines, ih, List.flatMap_cons, lineEnds, List.count_append,
      Nat.add_assoc]

/-- Lines are counted from where a source begins. -/
theorem withLines_later (line lines : Nat) (list : List Segment) :
    withLines (line + lines) list =
      (withLines line list).map fun (line, segment) => (line + lines, segment) := by
  induction list generalizing line with
  | nil => rfl
  | cons segment rest ih =>
    simp only [withLines, List.map_cons, ← ih, Nat.add_right_comm]

theorem map_snd_withLines (line : Nat) (list : List Segment) :
    (withLines line list).map Prod.snd = list := by
  induction list generalizing line with
  | nil => rfl
  | cons segment rest ih => simp only [withLines, List.map_cons, ih]

namespace Segment

theorem token?_later (line lines : Nat) (segment : Segment) :
    segment.token? (line + lines) = (segment.token? line).map (Token.later lines) := by
  cases segment <;> rfl

theorem error?_eq_none_iff (line line' : Nat) (segment : Segment) :
    segment.error? line = none ↔ segment.error? line' = none := by
  cases segment <;> simp [error?]

/-- No word is of the kind that ends a sequence of tokens. -/
theorem kind_ne_eof_of_first {c : Char} {rest word : List Char} {kind : TokenKind}
    (h : first c rest = .lexeme kind word) : kind ≠ .eof := by
  rintro rfl
  unfold first at h
  split at h
  · cases h
  split at h
  · unfold quoted at h
    simp only at h
    split at h <;> cases h
  split at h
  · cases h
  split at h
  · cases h
  split at h
  · unfold Segment.word at h
    split at h <;> cases h
  split at h <;> cases h

end Segment

/-! ### Words -/

/-- The tokens of a source without the end token. -/
def words (source : List Char) : List Token :=
  (withLines 1 (segments source)).filterMap fun (line, segment) => segment.token? line

theorem tokens_scan (source : String) :
    (scan source).tokens = words source.toList ++ [.endOf (1 + lineEnds source.toList)] := rfl

/-- Each of them is a segment with which some text begins. -/
theorem exists_first_of_mem_words {source : List Char} {token : Token} (h : token ∈ words source) :
    ∃ line c rest, (Segment.first c rest).token? line = some token := by
  obtain ⟨⟨line, segment⟩, hplaced, htoken⟩ := List.mem_filterMap.1 h
  have hmem : segment ∈ segments source := by
    rw [← map_snd_withLines 1 (segments source)]
    exact List.mem_map_of_mem hplaced
  obtain ⟨c, rest, rfl⟩ := mem_segmentsAfter hmem
  exact ⟨line, c, rest, htoken⟩

theorem kind_ne_eof_of_mem_words {source : List Char} {token : Token} (h : token ∈ words source) :
    token.kind ≠ .eof := by
  obtain ⟨line, c, rest, htoken⟩ := exists_first_of_mem_words h
  cases hfirst : Segment.first c rest with
  | lexeme kind word =>
    rw [hfirst] at htoken
    cases htoken
    exact Segment.kind_ne_eof_of_first hfirst
  | _ =>
    rw [hfirst] at htoken
    cases htoken

/-- A source has no error exactly when none of its segments is faulty, wherever it stands. -/
theorem errors_scan_eq_nil {source : String} :
    (scan source).errors = [] ↔ ∀ segment ∈ segments source.toList, segment.error? 1 = none := by
  show List.filterMap _ (withLines 1 (segments source.toList)) = [] ↔ _
  rw [List.filterMap_eq_nil_iff]
  constructor
  · intro h segment hmem
    rw [← map_snd_withLines 1 (segments source.toList)] at hmem
    obtain ⟨⟨line, segment⟩, hplaced, rfl⟩ := List.mem_map.1 hmem
    exact (Segment.error?_eq_none_iff line 1 segment).1 (h _ hplaced)
  · rintro h ⟨line, segment⟩ hplaced
    have hmem : segment ∈ segments source.toList := by
      rw [← map_snd_withLines 1 (segments source.toList)]
      exact List.mem_map_of_mem hplaced
    exact (Segment.error?_eq_none_iff line 1 segment).2 (h segment hmem)

theorem segments_append_of_no_error {source : String} (h : (scan source).errors = [])
    (later : String) :
    segments (source ++ "\n" ++ later).toList =
      segments source.toList ++ .blank '\n' :: segments later.toList := by
  have closed : ∀ body, .unterminated body ∉ segments source.toList := by
    intro body hmem
    have := errors_scan_eq_nil.1 h _ hmem
    cases this
  rw [String.toList_append, String.toList_append, List.append_assoc]
  exact segments_append source.toList later.toList closed

/-- **Scanning joined sources.**  If a source has no error, then joined to another by a line end it
keeps its words, and those of the other are on later lines. -/
theorem words_append {source : String} (h : (scan source).errors = []) (later : String) :
    words (source ++ "\n" ++ later).toList =
      words source.toList ++
        (words later.toList).map (Token.later (1 + lineEnds source.toList)) := by
  have lines : 1 + lineEnds source.toList + lineEnds (Segment.blank '\n').text =
      1 + (1 + lineEnds source.toList) := by
    rw [show lineEnds (Segment.blank '\n').text = 1 from rfl]
    omega
  unfold words
  rw [segments_append_of_no_error h, withLines_append, segments_text, List.filterMap_append]
  congr 1
  rw [withLines, lines, withLines_later, List.map_filterMap]
  show List.filterMap _ (List.map _ _) = _
  rw [List.filterMap_map]
  congr
  funext placed
  exact Segment.token?_later _ _ _

theorem errors_scan_append {source later : String} (h : (scan source).errors = [])
    (hlater : (scan later).errors = []) : (scan (source ++ "\n" ++ later)).errors = [] := by
  rw [errors_scan_eq_nil, segments_append_of_no_error h]
  intro segment hmem
  rcases List.mem_append.1 hmem with hmem | hmem
  · exact errors_scan_eq_nil.1 h segment hmem
  rcases List.mem_cons.1 hmem with rfl | hmem
  · rfl
  · exact errors_scan_eq_nil.1 hlater segment hmem

end Lox
