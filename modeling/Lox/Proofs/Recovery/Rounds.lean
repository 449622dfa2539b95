import Mathlib.Data.List.Pairwise
import Lox.Proofs.Outline.Programs

/-!
# Progress and the order of errors

Each round of the loop over the declarations of a program leaves at least one token behind, and the
errors of a round point at tokens that it leaves behind, or at the end.  So the rounds come to an
end, no token is blamed twice, and errors of different rounds are in the order of their tokens.
Within a round they need not be: of `a + b = c + d = 1` the second sign is reported before the
first.

* `bounds_of_mem_marks`: the errors of a round are between its start and the start of the next;
* `ordered_of_rounds` and `apart_of_rounds`: so they are in order, and at different positions;
* `InOrder`: what this says of all errors of a program;
* `rounds_of_parse`: the rounds of parsing a program, and the errors they give.
-/

namespace Lox.Recovery

open Lox.Grammar Lox.Outline

variable {kinds : List TokenKind} {text : Text kinds} {round : Round} {rounds : List Round}
  {start : Nat}

/-! ### One round -/

/-- An error of a round is a report, or the error that ends the round. -/
theorem mem_marks_iff {mark : Mark} :
    mark ∈ round.marks ↔
      (∃ target ∈ round.targets, Sketch.badTarget target = mark) ∨ round.ending = .error mark := by
  rw [Round.marks, List.mem_append, List.mem_map]
  refine or_congr Iff.rfl ?_
  cases round.ending <;> simp [eq_comm]

/-- The errors of a round are between its start and the start of the next, or at the end. -/
theorem bounds_of_mem_marks (h : round.Sound kinds) : ∀ mark ∈ round.marks,
    round.start ≤ mark.position ∧
      (mark.position < round.next ∨ mark.position = kinds.length ∧ round.next = kinds.length) := by
  intro mark hmark
  obtain ⟨target, htarget, rfl⟩ | hending := mem_marks_iff.1 hmark
  · obtain ⟨hle, hlt, _⟩ := h.targets target htarget
    exact ⟨hle, .inl hlt⟩
  · obtain ⟨_, hle, _, hlt⟩ := h.failure mark hending
    exact ⟨hle, hlt⟩

/-- They are at different positions, and only the last may be at the end. -/
theorem apart_of_round (h : round.Sound kinds) : round.marks.Pairwise fun mark other =>
    mark.position ≠ other.position ∧ mark.position < kinds.length := by
  have hbefore {target : Nat} (htarget : target ∈ round.targets) : target < kinds.length :=
    Nat.lt_of_lt_of_le (h.targets target htarget).2.1 h.next_le
  refine List.pairwise_append.2 ⟨List.pairwise_map.2 ?_, ?_, ?_⟩
  · exact h.nodup.imp_of_mem fun htarget _ hne => ⟨hne, hbefore htarget⟩
  · cases round.ending with
    | error mark => exact List.pairwise_singleton _ _
    | ok statement => exact .nil
  · intro mark hmark other hother
    obtain ⟨target, htarget, rfl⟩ := List.mem_map.1 hmark
    have hending : round.ending = .error other := by
      cases hending : round.ending <;> simp_all
    have hlt := (h.failure other hending).2.2.1 target htarget
    exact ⟨Nat.ne_of_lt hlt, hbefore htarget⟩

/-! ### All rounds -/

/-- The rounds behind the first begin where it says. -/
theorem rounds_tail (h : Rounds text start (round :: rounds)) :
    start = round.start ∧ Rounds text round.next rounds := by
  cases h with
  | read _ _ hlater => exact ⟨rfl, hlater⟩
  | recovered _ _ _ hlater => exact ⟨rfl, hlater⟩

/-- No round begins before the first. -/
theorem start_le_of_rounds (h : Rounds text start rounds)
    (hsound : ∀ round ∈ rounds, round.Sound kinds) : ∀ round ∈ rounds, start ≤ round.start := by
  induction rounds generalizing start with
  | nil => exact fun _ h => absurd h List.not_mem_nil
  | cons first rounds ih =>
    obtain ⟨rfl, hlater⟩ := rounds_tail h
    obtain ⟨hfirst, hsound⟩ := List.forall_mem_cons.1 hsound
    refine List.forall_mem_cons.2 ⟨Nat.le_refl _, fun round hround => ?_⟩
    exact Nat.le_trans (Nat.le_of_lt hfirst.start_lt) (ih hlater hsound round hround)

/-- There are at most as many rounds as tokens. -/
theorem length_of_rounds (h : Rounds text start rounds)
    (hsound : ∀ round ∈ rounds, round.Sound kinds) : start + rounds.length ≤ kinds.length := by
  induction rounds generalizing start with
  | nil =>
    cases h
    exact Nat.le_refl _
  | cons first rounds ih =>
    obtain ⟨rfl, hlater⟩ := rounds_tail h
    obtain ⟨hfirst, hsound⟩ := List.forall_mem_cons.1 hsound
    have hlength := ih hlater hsound
    have hlt := hfirst.start_lt
    rw [List.length_cons]
    omega

/-- The errors of a round are before those of later rounds. -/
theorem ordered_of_rounds (h : Rounds text start rounds)
    (hsound : ∀ round ∈ rounds, round.Sound kinds) :
    rounds.Pairwise fun round later =>
      ∀ mark ∈ round.marks, ∀ other ∈ later.marks, mark.position < other.position := by
  induction rounds generalizing start with
  | nil => exact .nil
  | cons first rounds ih =>
    obtain ⟨_, hlater⟩ := rounds_tail h
    obtain ⟨hfirst, hrounds⟩ := List.forall_mem_cons.1 hsound
    refine List.pairwise_cons.2 ⟨fun later hmem mark hmark other hother => ?_, ih hlater hrounds⟩
    have hstart := start_le_of_rounds hlater hrounds later hmem
    have hopen := (hrounds later hmem).start_lt
    have hend := (hrounds later hmem).next_le
    have hbehind := (bounds_of_mem_marks (hrounds later hmem) other hother).1
    have hbefore := (bounds_of_mem_marks hfirst mark hmark).2
    omega

/-- All errors are at different positions, and only the last may be at the end. -/
theorem apart_of_rounds (h : Rounds text start rounds)
    (hsound : ∀ round ∈ rounds, round.Sound kinds) :
    (rounds.flatMap Round.marks).Pairwise fun mark other =>
      mark.position ≠ other.position ∧ mark.position < kinds.length := by
  refine List.pairwise_flatMap.2 ⟨fun round hround => apart_of_round (hsound round hround), ?_⟩
  refine (ordered_of_rounds h hsound).imp_of_mem fun {round later} _ hlater hlt mark hmark => ?_
  intro other hother
  have hlt := hlt mark hmark other hother
  have hend := (hsound later hlater).next_le
  have hother := (bounds_of_mem_marks (hsound later hlater) other hother).2
  omega

/-! ### The errors of a program -/

/-- The errors that rounds give, by the positions of the tokens that they point at. -/
structure InOrder (tokens : List Token) (rounds : List Round) : Prop where
  /-- No token is blamed twice. -/
  nodup : ((rounds.flatMap Round.marks).map Mark.position).Nodup
  /-- Each error points at a token before the end, or at the end. -/
  position_le : ∀ mark ∈ rounds.flatMap Round.marks, mark.position ≤ (beforeEnd tokens).length
  /-- A target is reported at an equals sign. -/
  equals : ∀ mark ∈ rounds.flatMap Round.marks,
    mark.cause.message = "Invalid assignment target." →
      (tokenAt tokens mark.position).kind = .symbol .equal
  /-- The errors of a round are before those of later rounds. -/
  ordered : rounds.Pairwise fun round later =>
    ∀ mark ∈ round.marks, ∀ other ∈ later.marks, mark.position < other.position
  /-- Any other error is the last of its round, and behind all others of the round. -/
  last : ∀ round ∈ rounds, ∀ before mark after, round.marks = before ++ mark :: after →
    mark.cause.message ≠ "Invalid assignment target." →
      after = [] ∧ ∀ other ∈ before, other.position < mark.position
  /-- Only the last of all errors can point at the end. -/
  atEnd : ∀ mark ∈ (rounds.flatMap Round.marks).dropLast,
    mark.position < (beforeEnd tokens).length

/-- An error that is no report is the last of its round. -/
theorem last_of_round (h : round.Sound kinds) {before after : List Mark} {mark : Mark}
    (hmarks : round.marks = before ++ mark :: after)
    (hcause : mark.cause.message ≠ "Invalid assignment target.") :
    after = [] ∧ ∀ other ∈ before, other.position < mark.position := by
  have hreport : mark ∉ round.targets.map Sketch.badTarget := by
    rintro hmem
    obtain ⟨target, _, rfl⟩ := List.mem_map.1 hmem
    exact hcause rfl
  have hending : round.ending = .error mark := by
    have hmem : mark ∈ round.marks := by simp [hmarks]
    exact (mem_marks_iff.1 hmem).resolve_left fun h => hreport (List.mem_map.2 h)
  rw [Round.marks, hending] at hmarks
  obtain rfl | ⟨middle, other, rfl⟩ := List.eq_nil_or_concat after
  · rw [← List.append_cancel_right hmarks]
    refine ⟨rfl, fun other hother => ?_⟩
    obtain ⟨target, htarget, rfl⟩ := List.mem_map.1 hother
    exact (h.failure mark hending).2.2.1 target htarget
  · rw [List.concat_eq_append, ← List.cons_append, ← List.append_assoc] at hmarks
    rw [(List.append_inj' hmarks rfl).1] at hreport
    exact absurd (List.mem_append_right _ List.mem_cons_self) hreport

theorem inOrder_of_rounds {tokens : List Token} (h : Rounds (textOf tokens) 0 rounds)
    (hsound : ∀ round ∈ rounds, round.Sound (kindsOf tokens)) : InOrder tokens rounds := by
  have hlength : (kindsOf tokens).length = (beforeEnd tokens).length := List.length_map _
  have hapart := apart_of_rounds h hsound
  rw [hlength] at hapart
  have hmem {mark : Mark} (hmark : mark ∈ rounds.flatMap Round.marks) :
      ∃ round ∈ rounds, mark ∈ round.marks ∧ round.Sound (kindsOf tokens) := by
    obtain ⟨round, hround, hmark⟩ := List.mem_flatMap.1 hmark
    exact ⟨round, hround, hmark, hsound round hround⟩
  constructor
  · exact List.pairwise_map.2 (hapart.imp And.left)
  · intro mark hmark
    obtain ⟨round, _, hmark, hround⟩ := hmem hmark
    have hend := hround.next_le
    have hbefore := (bounds_of_mem_marks hround mark hmark).2
    omega
  · intro mark hmark hcause
    obtain ⟨round, _, hmark, hround⟩ := hmem hmark
    obtain ⟨target, htarget, rfl⟩ | hending := mem_marks_iff.1 hmark
    · exact ((textOf tokens).kind_token target).trans (hround.targets target htarget).2.2
    · exact absurd hcause (hround.failure mark hending).1
  · exact ordered_of_rounds h hsound
  · intro round hround before mark after
    exact last_of_round (hsound round hround)
  · intro mark hmark
    have hne := List.ne_nil_of_mem (List.mem_of_mem_dropLast hmark)
    rw [← List.dropLast_append_getLast hne] at hapart
    exact ((List.pairwise_append.1 hapart).2.2 mark hmark _ List.mem_cons_self).2

/-- **Parsing makes progress and blames no token twice.**  Parsing a program goes through rounds
from its first token to its end.  Each of them leaves a token behind, so there are at most as many
as there are tokens.  What parsing gives are the errors of the rounds, or else their statements.
Each error points at the token at its position, and these positions are distinct and in order as
`InOrder` says, so there is at most one error more than there are tokens. -/
theorem rounds_of_parse (tokens : List Token) :
    ∃ rounds : List Round, Rounds (textOf tokens) 0 rounds ∧
      (∀ round ∈ rounds, round.start < round.next) ∧
      rounds.length ≤ (beforeEnd tokens).length ∧
      parse tokens = (outcome rounds).fill (tokenAt tokens) ∧
      InOrder tokens rounds ∧
      (rounds.flatMap Round.marks).length ≤ (beforeEnd tokens).length + 1 := by
  have hlength : (kindsOf tokens).length = (beforeEnd tokens).length := List.length_map _
  obtain ⟨rounds, hsound, hall⟩ :=
    exists_rounds (kindsOf tokens) (kindsOf tokens).length 0 (Nat.zero_add _)
  have hrounds := hall (textOf tokens)
  have horder := inOrder_of_rounds hrounds hsound
  refine ⟨rounds, hrounds, fun round hround => (hsound round hround).start_lt, ?_,
    parse_of_rounds hrounds, horder, ?_⟩
  · have := length_of_rounds hrounds hsound
    omega
  · have hrange : (rounds.flatMap Round.marks).map Mark.position ⊆
        List.range ((beforeEnd tokens).length + 1) := by
      intro position hposition
      obtain ⟨mark, hmark, rfl⟩ := List.mem_map.1 hposition
      exact List.mem_range.2 (Nat.lt_succ_of_le (horder.position_le mark hmark))
    simpa using (horder.nodup.subperm hrange).length_le

end Lox.Recovery
