import Lox.Segment

/-!
# Segments cover their source

A source is the concatenation of its segments: nothing is left out and nothing is used twice.

Main statements:
* `Segment.first_prefix` and `Segment.first_text_ne_nil`: the first segment is where the source
  begins, and it is not empty;
* `segments_text`: the segments of a source, joined together, are the source.
-/

namespace Lox

namespace Segment

/-- A numeral is where its source begins. -/
theorem numeral_prefix (source : List Char) : numeral source <+: source := by
  have split := List.takeWhile_append_dropWhile (p := Char.isDigit) (l := source)
  unfold numeral
  split
  · next rest hrest =>
    split
    · exact List.takeWhile_prefix _
    · rw [hrest] at split
      have more : rest.takeWhile Char.isDigit <+: rest := List.takeWhile_prefix _
      conv => rhs; rw [← split]
      exact (List.prefix_append_right_inj _).2 ((List.cons_prefix_cons).2 ⟨rfl, more⟩)
  · exact List.takeWhile_prefix _

/-- A string, closed or not, is where its source begins. -/
theorem quoted_prefix (rest : List Char) : (quoted rest).text <+: '"' :: rest := by
  have split := List.takeWhile_append_dropWhile (p := (· != '"')) (l := rest)
  unfold quoted
  simp only
  split
  · next shorter =>
    have head := List.head?_dropWhile_not (fun x : Char => x != '"') rest
    simp only [text, List.cons_append]
    refine List.cons_prefix_cons.2 ⟨rfl, ?_⟩
    cases hd : rest.dropWhile (· != '"') with
    | nil =>
      rw [hd, List.append_nil] at split
      rw [split] at shorter; omega
    | cons q tail =>
      rw [hd] at head
      conv => rhs; rw [← split, hd]
      simp at head
      subst head
      exact (List.prefix_append_right_inj _).2 ⟨tail, rfl⟩
  · exact List.prefix_rfl

/-- A word keeps its spelling, reserved or not. -/
theorem word_text (spelling : List Char) : (word spelling).text = spelling := by
  unfold word
  split <;> rfl

/-- A symbol is where its source begins. -/
theorem symbol?_prefix {c : Char} {rest : List Char} {symbol : Symbol}
    (h : symbol? c rest = some symbol) : symbol.text <+: c :: rest := by
  obtain ⟨narrow, hc, rfl⟩ := Option.map_eq_some_iff.1 h
  have written : narrow.text = [c] := by
    unfold Symbol.ofChar? at hc
    split at hc <;> cases hc <;> rfl
  split
  · next wide tail hw =>
    have : wide.text = narrow.text ++ ['='] := by
      cases narrow <;> cases hw <;> rfl
    rw [this, written]
    exact ⟨tail, rfl⟩
  · rw [written]
    exact ⟨_, rfl⟩

/-- The first segment of a source is where the source begins. -/
theorem first_prefix (c : Char) (rest : List Char) : (first c rest).text <+: c :: rest := by
  unfold first
  split
  · exact ⟨rest, rfl⟩
  split
  · next h => simpa [beq_iff_eq.1 h] using quoted_prefix rest
  split
  · next h =>
    simp only [Bool.and_eq_true, beq_iff_eq, List.head?_eq_some_iff] at h
    obtain ⟨rfl, tail, rfl⟩ := h
    exact List.cons_prefix_cons.2 ⟨rfl, List.cons_prefix_cons.2 ⟨rfl, List.takeWhile_prefix _⟩⟩
  split
  · exact numeral_prefix _
  split
  · rw [word_text]
    exact List.cons_prefix_cons.2 ⟨rfl, List.takeWhile_prefix _⟩
  split
  · next h => exact symbol?_prefix h
  · exact ⟨rest, rfl⟩

theorem numeral_ne_nil {c : Char} (rest : List Char) (h : c.isDigit = true) :
    numeral (c :: rest) ≠ [] := by
  unfold numeral
  rw [List.takeWhile_cons_of_pos h]
  split
  · split <;> simp
  · simp

theorem quoted_text_ne_nil (rest : List Char) : (quoted rest).text ≠ [] := by
  unfold quoted
  simp only
  split <;> simp [text]

/-- No segment is empty. -/
theorem first_text_ne_nil (c : Char) (rest : List Char) : (first c rest).text ≠ [] := by
  unfold first
  split
  · simp [text]
  split
  · exact quoted_text_ne_nil rest
  split
  · simp [text]
  split
  · next h => exact numeral_ne_nil rest h
  split
  · simp [word_text]
  split
  · next symbol _ => cases symbol <;> simp [text, Symbol.text]
  · simp [text]

end Segment

/-- What is skipped apart, segments leave nothing out and use nothing twice. -/
theorem segmentsAfter_text (skip : Nat) (source : List Char) :
    (segmentsAfter skip source).flatMap Segment.text = source.drop skip := by
  induction source generalizing skip with
  | nil => cases skip <;> rfl
  | cons c rest ih =>
    cases skip with
    | succ skip => simpa [segmentsAfter] using ih skip
    | zero =>
      obtain ⟨tail, whole⟩ := Segment.first_prefix c rest
      have taken : (Segment.first c rest).text.length ≠ 0 := fun none =>
        Segment.first_text_ne_nil c rest (List.length_eq_zero_iff.1 none)
      obtain ⟨n, hn⟩ := Nat.exists_eq_succ_of_ne_zero taken
      have left : rest.drop n = tail := by
        have := congrArg (List.drop (n + 1)) whole
        rw [← Nat.succ_eq_add_one, ← hn, List.drop_left, hn] at this
        simpa using this.symm
      simp only [segmentsAfter, List.flatMap_cons, ih, hn, Nat.succ_eq_add_one,
        Nat.add_sub_cancel, left, whole, List.drop_zero]

/-- The segments of a source, joined together, are the source. -/
theorem segments_text (source : List Char) :
    (segments source).flatMap Segment.text = source := segmentsAfter_text 0 source

end Lox
