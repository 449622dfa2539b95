import Lox.Proofs.Seam.Scanning
import Lox.Segment.Cover

/-!
# Lines of tokens

The tokens of a source stand on its lines in order: the first line is 1, no token is on an earlier
line than the one before it, and the end token is on the last line.

* `line_withLines` and `withLines_ordered`: the same of segments, from any first line;
* `lines_ordered` and `one_le_line`: the main results.
-/

namespace Lox

theorem line_of_token? {line : Nat} {segment : Segment} {token : Token}
    (h : segment.token? line = some token) : token.line = line := by
  cases segment <;> cases h
  rfl

/-- No segment ends before the first line, and none after all line ends. -/
theorem line_withLines {line : Nat} {list : List Segment} {placed : Nat × Segment}
    (h : placed ∈ withLines line list) :
    line ≤ placed.1 ∧ placed.1 ≤ line + lineEnds (list.flatMap Segment.text) := by
  induction list generalizing line with
  | nil => cases h
  | cons segment rest ih =>
    have ends : lineEnds ((segment :: rest).flatMap Segment.text) =
        lineEnds segment.text + lineEnds (rest.flatMap Segment.text) := by
      rw [List.flatMap_cons, lineEnds, List.count_append]
      rfl
    rw [ends]
    rcases List.mem_cons.1 h with rfl | h
    · dsimp only
      omega
    · have := ih h
      omega

theorem withLines_ordered (line : Nat) (list : List Segment) :
    (withLines line list).Pairwise fun placed later => placed.1 ≤ later.1 := by
  induction list generalizing line with
  | nil => exact .nil
  | cons segment rest ih =>
    exact List.pairwise_cons.2 ⟨fun _ h => (line_withLines h).1, ih _⟩

/-- The line of a word is one of the source. -/
theorem line_of_mem_words {source : List Char} {token : Token} (h : token ∈ words source) :
    1 ≤ token.line ∧ token.line ≤ 1 + lineEnds source := by
  obtain ⟨⟨line, segment⟩, hplaced, htoken⟩ := List.mem_filterMap.1 h
  have bounds := line_withLines hplaced
  rw [segments_text] at bounds
  rw [line_of_token? htoken]
  exact bounds

/-- **Tokens stand in the order of their lines.** -/
theorem lines_ordered (source : String) :
    (scan source).tokens.Pairwise fun token later => token.line ≤ later.line := by
  have among : (words source.toList).Pairwise fun token later => token.line ≤ later.line := by
    refine List.pairwise_filterMap.2 ((withLines_ordered 1 _).imp ?_)
    intro placed placed' hle token htoken later hlater
    rw [line_of_token? htoken, line_of_token? hlater]
    exact hle
  rw [tokens_scan]
  refine List.pairwise_append.2 ⟨among, List.pairwise_singleton _ _, ?_⟩
  intro token htoken theEnd hend
  rw [List.mem_singleton.1 hend]
  exact (line_of_mem_words htoken).2

/-- Lines are counted from 1. -/
theorem one_le_line {source : String} {token : Token} (h : token ∈ (scan source).tokens) :
    1 ≤ token.line := by
  rw [tokens_scan] at h
  rcases List.mem_append.1 h with h | h
  · exact (line_of_mem_words h).1
  · rw [List.mem_singleton.1 h]
    exact Nat.le_add_right 1 _

end Lox
