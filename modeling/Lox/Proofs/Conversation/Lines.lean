import Lox.Lines
import Mathlib.Data.List.Basic

/-!
# How input is read

Input is cut into lines, and these are read as texts up to the first that is none.  Both are said
here without the functions that do it.

* `CutInto`: bytes cut into lines, which `inputLines` does and nothing else (`cutInto_iff`);
* `bytesOf`: the bytes of a text;
* `Reads`: the texts that are read from an input, and the lines that are left;
* `exists_reads` and `Reads.newline_notMem`: every input is read in this way, and no text that is
  read holds a line end.
-/

namespace Lox

/-! ### Lines -/

/-- How bytes are cut into lines.  A line ends at the first line feed.  One carriage return directly
before it is dropped.  What no line feed follows is a line if it is anything at all. -/
inductive CutInto : List UInt8 → List (List UInt8) → Prop where
  | nothing : CutInto [] []
  | last {line : List UInt8} (hsome : line ≠ []) (hline : lineFeed ∉ line) : CutInto line [line]
  | feed {line rest : List UInt8} {lines : List (List UInt8)} (hline : lineFeed ∉ line)
      (hreturn : line.getLast? ≠ some carriageReturn) (later : CutInto rest lines) :
      CutInto (line ++ lineFeed :: rest) (line :: lines)
  | returnFeed {line rest : List UInt8} {lines : List (List UInt8)} (hline : lineFeed ∉ line)
      (later : CutInto rest lines) :
      CutInto (line ++ carriageReturn :: lineFeed :: rest) (line :: lines)

theorem CutInto.lineFeed_notMem {input : List UInt8} {lines : List (List UInt8)}
    (h : CutInto input lines) : ∀ line ∈ lines, lineFeed ∉ line := by
  induction h with
  | nothing => simp
  | last _ hline => simpa using hline
  | feed hline _ _ ih => exact List.forall_mem_cons.2 ⟨hline, ih⟩
  | returnFeed hline _ ih => exact List.forall_mem_cons.2 ⟨hline, ih⟩

/-- Every input can be cut. -/
theorem exists_cutInto (input : List UInt8) : ∃ lines, CutInto input lines := by
  induction hlength : input.length using Nat.strongRecOn generalizing input with
  | ind length ih =>
    by_cases hfeed : lineFeed ∈ input
    · obtain ⟨line, rest, rfl, hline⟩ := List.eq_append_cons_of_mem hfeed
      have hshorter : rest.length < length := by
        rw [← hlength, List.length_append, List.length_cons]
        omega
      obtain ⟨lines, later⟩ := ih rest.length hshorter rest rfl
      by_cases hreturn : line.getLast? = some carriageReturn
      · obtain ⟨body, rfl⟩ := List.getLast?_eq_some_iff.1 hreturn
        have hbody : lineFeed ∉ body := fun h => hline (List.mem_append_left _ h)
        rw [List.append_assoc]
        exact ⟨_, .returnFeed hbody later⟩
      · exact ⟨_, .feed hline hreturn later⟩
    · by_cases hsome : input = []
      · rw [hsome]
        exact ⟨[], .nothing⟩
      · exact ⟨[input], .last hsome hfeed⟩

theorem pieces_open {line : List UInt8} (hline : lineFeed ∉ line) (hsome : line ≠ []) :
    pieces line = [line] := by
  induction line with
  | nil => exact absurd rfl hsome
  | cons byte rest ih =>
    obtain ⟨hbyte, hrest⟩ := not_or.1 (mt List.mem_cons.2 hline)
    rw [pieces, if_neg (Ne.symm hbyte)]
    cases rest with
    | nil => rfl
    | cons next rest => rw [ih hrest (List.cons_ne_nil _ _)]

theorem pieces_line {line : List UInt8} (hline : lineFeed ∉ line) (rest : List UInt8) :
    pieces (line ++ lineFeed :: rest) = (line ++ [lineFeed]) :: pieces rest := by
  induction line with
  | nil => rw [List.nil_append, pieces, if_pos rfl, List.nil_append]
  | cons byte more ih =>
    obtain ⟨hbyte, hmore⟩ := not_or.1 (mt List.mem_cons.2 hline)
    rw [List.cons_append, pieces, if_neg (Ne.symm hbyte), ih hmore, List.cons_append]

theorem lineOf_open {line : List UInt8} (hline : lineFeed ∉ line) : lineOf line = line := by
  unfold lineOf
  cases hreverse : line.reverse with
  | nil => exact (List.reverse_eq_nil_iff.1 hreverse).symm
  | cons last before =>
    have hmem : last ∈ line := List.mem_reverse.1 (hreverse ▸ List.mem_cons_self)
    exact if_neg (ne_of_mem_of_not_mem hmem hline)

theorem lineOf_feed {line : List UInt8} (hreturn : line.getLast? ≠ some carriageReturn) :
    lineOf (line ++ [lineFeed]) = line := by
  rw [List.getLast?_eq_head?_reverse] at hreturn
  simp only [lineOf, List.reverse_append, List.reverse_singleton, List.singleton_append, if_true]
  cases hreverse : line.reverse with
  | nil => exact (List.reverse_eq_nil_iff.1 hreverse).symm
  | cons c body =>
    have hc : c ≠ carriageReturn := fun h => hreturn (by rw [hreverse, h]; rfl)
    simp only [if_neg hc]
    rw [← hreverse, List.reverse_reverse]

theorem lineOf_returnFeed (line : List UInt8) :
    lineOf (line ++ [carriageReturn, lineFeed]) = line := by
  simp [lineOf]

/-- **The lines of an input** are those into which it can be cut, and there is one way to cut it. -/
theorem cutInto_iff {input : List UInt8} {lines : List (List UInt8)} :
    CutInto input lines ↔ inputLines input = lines := by
  have only : ∀ {input lines}, CutInto input lines → inputLines input = lines := by
    intro input lines h
    unfold inputLines
    induction h with
    | nothing => rfl
    | last hsome hline => rw [pieces_open hline hsome, List.map_singleton, lineOf_open hline]
    | feed hline hreturn _ ih =>
      rw [pieces_line hline, List.map_cons, lineOf_feed hreturn, ih]
    | @returnFeed line rest lines hline _ ih =>
      have hreturned : lineFeed ∉ line ++ [carriageReturn] := fun h => by
        obtain h | h := List.mem_append.1 h
        · exact hline h
        · exact absurd (List.mem_singleton.1 h) (by decide)
      have hsplit := congrArg (List.map lineOf) (pieces_line hreturned rest)
      rw [List.append_assoc, List.append_assoc, List.map_cons, ih] at hsplit
      exact hsplit.trans (congrArg (· :: lines) (lineOf_returnFeed line))
  refine ⟨only, fun h => ?_⟩
  obtain ⟨lines', hcut⟩ := exists_cutInto input
  rwa [← h, only hcut]

/-! ### Texts -/

/-- The bytes of a text. -/
def bytesOf (text : String) : List UInt8 := text.toUTF8.data.toList

theorem decodeLine_eq_some {line : List UInt8} {text : String} :
    decodeLine line = some text ↔ line = bytesOf text := by
  unfold decodeLine String.fromUTF8?
  constructor
  · intro h
    split at h
    · next hvalid =>
      cases h
      rfl
    · cases h
  · rintro rfl
    exact dif_pos text.isValidUTF8

/-- The texts that are read from an input, and the lines that are left: these are none, or the first
of them is no text. -/
structure Reads (input : List UInt8) (sources : List String) (unread : List (List UInt8)) :
    Prop where
  cut : CutInto input (sources.map bytesOf ++ unread)
  stops : ∀ line ∈ unread.head?, ∀ text, line ≠ bytesOf text

/-- Every input is read in this way. -/
theorem exists_reads (input : List UInt8) : ∃ sources unread, Reads input sources unread := by
  have upTo : ∀ lines : List (List UInt8), ∃ (sources : List String) (unread : List (List UInt8)),
      lines = sources.map bytesOf ++ unread ∧
        ∀ line ∈ unread.head?, ∀ text, line ≠ bytesOf text := by
    intro lines
    induction lines with
    | nil => exact ⟨[], [], rfl, by simp⟩
    | cons line rest ih =>
      by_cases htext : ∃ text, line = bytesOf text
      · obtain ⟨text, rfl⟩ := htext
        obtain ⟨sources, unread, rfl, stops⟩ := ih
        exact ⟨text :: sources, unread, rfl, stops⟩
      · refine ⟨[], line :: rest, rfl, ?_⟩
        rintro _ ⟨⟩ text rfl
        exact htext ⟨text, rfl⟩
  obtain ⟨lines, hcut⟩ := exists_cutInto input
  obtain ⟨sources, unread, rfl, stops⟩ := upTo lines
  exact ⟨sources, unread, hcut, stops⟩

theorem lineFeed_mem_bytesOf {text : String} (h : '\n' ∈ text.toList) :
    lineFeed ∈ bytesOf text := by
  have hencode : text.toByteArray = text.toList.utf8Encode := by
    rw [← String.toByteArray_ofList, String.ofList_toList]
  have hbytes : bytesOf text = text.toList.flatMap String.utf8EncodeChar := by
    show text.toByteArray.data.toList = _
    rw [hencode, List.utf8Encode, List.data_toByteArray, List.toList_toArray]
  rw [hbytes]
  exact List.mem_flatMap.2 ⟨'\n', h, by decide⟩

/-- No text that is read holds a line end. -/
theorem Reads.newline_notMem {input : List UInt8} {sources : List String}
    {unread : List (List UInt8)} (h : Reads input sources unread) :
    ∀ source ∈ sources, '\n' ∉ source.toList := by
  intro source hsource hnewline
  have hline : bytesOf source ∈ sources.map bytesOf ++ unread :=
    List.mem_append_left _ (List.mem_map_of_mem hsource)
  exact h.cut.lineFeed_notMem _ hline (lineFeed_mem_bytesOf hnewline)

end Lox
