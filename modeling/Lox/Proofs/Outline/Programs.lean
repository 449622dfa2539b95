import Lox.Proofs.Outline.Parsers
import Lox.Proofs.Recovery.Restart

/-!
# Programs look at kinds

The loop over the declarations of a program goes through the same rounds on all programs with the
same kinds of tokens: each begins at the same position with the same outline of a reply, and after
an error reading goes on at the same position.  So what parsing gives has the same outline.

* `Round` and `Rounds`: a round of the loop, and the rounds from a position to the end;
* `exists_rounds`: the rounds are the same for all texts with the same kinds of tokens;
* `parse_of_rounds`: what parsing gives is put together from the rounds;
* `blames_of_parse`: its errors blame tokens of the program or its end;
* `parse_by_kinds`: it is an outline, which depends on the kinds alone, filled in with the tokens.
-/

namespace Lox.Outline

open Lox.Grammar Lox.Recovery

variable {kinds : List TokenKind}

/-! ### The rounds of the loop -/

/-- A round of the loop over the declarations: where it begins, the equals signs that it reports for
their targets, the error or the statement that ends it, and where the next round begins. -/
structure Round where
  start : Nat
  targets : List Nat
  ending : Except Mark StmtOutline
  next : Nat

namespace Round

/-- The outlines of the errors of a round, in order. -/
def marks (round : Round) : List Mark :=
  round.targets.map Sketch.badTarget ++
    match round.ending with
    | .error mark => [mark]
    | .ok _ => []

/-- The outline of the statement that was read, if one was. -/
def statement? (round : Round) : Option StmtOutline := round.ending.toOption

/-- What holds of a round whatever the tokens are, if their kinds are the given ones. -/
structure Sound (kinds : List TokenKind) (round : Round) : Prop where
  start_lt : round.start < round.next
  next_le : round.next ≤ kinds.length
  nodup : round.targets.Nodup
  targets : ∀ target ∈ round.targets,
    round.start ≤ target ∧ target < round.next ∧ kinds.getD target .eof = .symbol .equal
  /-- An error that ends a round is behind all that was reported, and before the next round unless
  it is at the end. -/
  failure : ∀ mark, round.ending = .error mark →
    mark.cause.message ≠ "Invalid assignment target." ∧ round.start ≤ mark.position ∧
      (∀ target ∈ round.targets, target < mark.position) ∧
        (mark.position < round.next ∨ mark.position = kinds.length ∧ round.next = kinds.length)

end Round

/-- The rounds in which the loop goes from a position to the end of a text. -/
inductive Rounds (text : Text kinds) : Nat → List Round → Prop where
  | finished : Rounds text kinds.length []
  | read {start stop : Nat} {targets : List Nat} {statement : StmtOutline} {rounds : List Round}
      (hopen : start < kinds.length)
      (hreply : declaration (nested maxNesting) text.theEnd (text.tokens.drop start) =
        ⟨.ok (statement.fill text.token), text.tokens.drop stop,
          targets.map fun target => (Sketch.badTarget target).error text.token⟩)
      (hlater : Rounds text stop rounds) :
      Rounds text start (⟨start, targets, .ok statement, stop⟩ :: rounds)
  | recovered {start next : Nat} {targets : List Nat} {mark : Mark} {rounds : List Round}
      (hopen : start < kinds.length)
      (hreply : declaration (nested maxNesting) text.theEnd (text.tokens.drop start) =
        ⟨.error (mark.error text.token), text.tokens.drop mark.position,
          targets.map fun target => (Sketch.badTarget target).error text.token⟩)
      (hnext : recover (text.tokens.drop mark.position) = text.tokens.drop next)
      (hlater : Rounds text next rounds) :
      Rounds text start (⟨start, targets, .error mark, next⟩ :: rounds)

/-! ### The same rounds for all texts -/

/-- There is a text with given kinds of tokens. -/
def Text.plain (kinds : List TokenKind) : Text kinds where
  tokens := kinds.map fun kind => ⟨kind, "", none, 1⟩
  theEnd := .endOf 1
  map_kind := by simp [Function.comp_def]
  kind_theEnd := rfl

/-- Where reading goes on behind a token that was given up. -/
theorem exists_restart (kinds : List TokenKind) (remaining position : Nat)
    (h : position + 1 + remaining = kinds.length) :
    ∃ next, position < next ∧ next ≤ kinds.length ∧ ∀ text : Text kinds,
      restart (text.token position) (text.tokens.drop (position + 1)) = text.tokens.drop next := by
  induction remaining generalizing position with
  | zero =>
    refine ⟨kinds.length, by omega, Nat.le_refl _, fun text => ?_⟩
    rw [text.drop_eq_nil (by omega), text.drop_eq_nil (Nat.le_refl _), restart]
  | succ remaining ih =>
    have hlt : position + 1 < kinds.length := by omega
    by_cases hmay : kinds.getD position .eof = .symbol .semicolon ∨
        beginsStatement (kinds.getD (position + 1) .eof) = true
    · refine ⟨position + 1, Nat.lt_succ_self _, Nat.le_of_lt hlt, fun text => ?_⟩
      rw [text.drop_eq_cons hlt, restart, if_pos]
      simpa [Text.kind_token] using hmay
    · obtain ⟨next, hbehind, hle, hnext⟩ := ih (position + 1) (by omega)
      refine ⟨next, by omega, hle, fun text => ?_⟩
      rw [text.drop_eq_cons hlt, restart, if_neg]
      · exact hnext text
      · simpa [Text.kind_token] using hmay

/-- Where reading goes on after an error.  The token that is blamed is left behind. -/
theorem exists_recover {position : Nat} (h : position ≤ kinds.length) :
    ∃ next, next ≤ kinds.length ∧
      (position < next ∨ position = kinds.length ∧ next = kinds.length) ∧
        ∀ text : Text kinds, recover (text.tokens.drop position) = text.tokens.drop next := by
  obtain hlt | rfl := Nat.lt_or_eq_of_le h
  · obtain ⟨next, hbehind, hle, hnext⟩ :=
      exists_restart kinds (kinds.length - (position + 1)) position (by omega)
    refine ⟨next, hle, .inl hbehind, fun text => ?_⟩
    rw [text.drop_eq_cons hlt]
    exact hnext text
  · refine ⟨kinds.length, Nat.le_refl _, .inr ⟨rfl, rfl⟩, fun text => ?_⟩
    rw [text.drop_eq_nil h]
    rfl

/-- A declaration that is read takes a token. -/
theorem lt_of_read {text : Text kinds} {start stop : Nat} {stmt : Stmt}
    {reports : List SyntaxError} (hopen : start < kinds.length) (hstop : stop ≤ kinds.length)
    (h : declaration (nested maxNesting) text.theEnd (text.tokens.drop start) =
      ⟨.ok stmt, text.tokens.drop stop, reports⟩) : start < stop := by
  rw [text.drop_eq_cons hopen] at h
  have hlength := (suffix_of_read text.kind_theEnd h).length_le
  rw [List.length_drop, List.length_drop, text.length_tokens] at hlength
  omega

/-- **All texts with the same kinds of tokens are read in the same rounds.** -/
theorem exists_rounds (kinds : List TokenKind) (remaining start : Nat)
    (h : start + remaining = kinds.length) :
    ∃ rounds : List Round, (∀ round ∈ rounds, round.Sound kinds) ∧
      ∀ text : Text kinds, Rounds text start rounds := by
  induction remaining using Nat.strongRecOn generalizing start with
  | ind remaining ih =>
    obtain rfl | hopen : start = kinds.length ∨ start < kinds.length := by omega
    · exact ⟨[], fun _ h => absurd h List.not_mem_nil, fun _ => .finished⟩
    · obtain ⟨⟨result, stop, targets⟩, hsketch, hreply⟩ :=
        outlined_declaration (outlinedNested kinds maxNesting) start (Nat.le_of_lt hopen)
      have hstart : start ≤ stop := hsketch.le_stop
      have hstop : stop ≤ kinds.length := hsketch.stop_le
      cases result with
      | ok statement =>
        have hlt : start < stop := lt_of_read hopen hstop (hreply (Text.plain kinds))
        obtain ⟨rounds, hsound, hrounds⟩ := ih (kinds.length - stop) (by omega) stop (by omega)
        refine ⟨⟨start, targets, .ok statement, stop⟩ :: rounds,
          List.forall_mem_cons.2 ⟨⟨hlt, hstop, hsketch.nodup, hsketch.between, nofun⟩, hsound⟩,
          fun text => .read hopen (hreply text) (hrounds text)⟩
      | error cause =>
        obtain ⟨next, hnext, hbehind, hrecover⟩ := exists_recover hstop
        have hlt : start < next := by omega
        have hleft : stop ≤ next := by omega
        obtain ⟨rounds, hsound, hrounds⟩ := ih (kinds.length - next) (by omega) next (by omega)
        refine ⟨⟨start, targets, .error ⟨stop, cause⟩, next⟩ :: rounds,
          List.forall_mem_cons.2
            ⟨⟨hlt, hnext, hsketch.nodup, fun target htarget => ?_, ?_⟩, hsound⟩,
          fun text => .recovered hopen (hreply text) (hrecover text) (hrounds text)⟩
        · obtain ⟨hle, hread, hequal⟩ := hsketch.between target htarget
          exact ⟨hle, Nat.lt_of_lt_of_le hread hleft, hequal⟩
        · rintro mark ⟨⟩
          exact ⟨hsketch.cause cause rfl, hsketch.le_stop,
            fun target htarget => (hsketch.between target htarget).2.1, hbehind⟩

/-! ### What parsing gives -/

/-- The outline of what the rounds of a program give. -/
def outcome (rounds : List Round) : Outcome :=
  match rounds.flatMap Round.marks with
  | [] => .ok (rounds.filterMap Round.statement?)
  | marks => .error marks

/-- What the loop finds is what its rounds find, in order. -/
theorem resume_of_rounds {text : Text kinds} {start : Nat} {rounds : List Round}
    (h : Rounds text start rounds) :
    resume text.theEnd (text.tokens.drop start) =
      ⟨fillAll text.token (rounds.filterMap Round.statement?),
        (rounds.flatMap Round.marks).map (Mark.error text.token)⟩ := by
  induction h with
  | finished =>
    rw [text.drop_eq_nil (Nat.le_refl _)]
    rfl
  | read hopen hreply _ ih =>
    rw [text.drop_eq_cons hopen] at hreply ⊢
    rw [resume_of_read text.kind_theEnd hreply, ih]
    exact congrArg₂ Findings.mk rfl (by simp [Round.marks, Function.comp_def])
  | recovered hopen hreply hnext _ ih =>
    rw [text.drop_eq_cons hopen] at hreply ⊢
    rw [resume_of_failed text.kind_theEnd hreply, hnext, ih]
    exact congrArg₂ Findings.mk rfl (by simp [Round.marks, Function.comp_def])

/-- The kinds of the tokens of a program that count. -/
def kindsOf (tokens : List Token) : List TokenKind := (beforeEnd tokens).map Token.kind

/-- The token at a position of a program.  Behind all that count stands the one that ends it. -/
def tokenAt (tokens : List Token) (position : Nat) : Token :=
  (beforeEnd tokens).getD position (endToken tokens)

/-- The text that a sequence of tokens is. -/
def textOf (tokens : List Token) : Text (kindsOf tokens) :=
  ⟨beforeEnd tokens, endToken tokens, rfl, Derivation.endToken_kind tokens⟩

theorem token_textOf (tokens : List Token) : (textOf tokens).token = tokenAt tokens := rfl

/-- What parsing gives is what the rounds give. -/
theorem parse_of_rounds {tokens : List Token} {rounds : List Round}
    (h : Rounds (textOf tokens) 0 rounds) :
    parse tokens = (outcome rounds).fill (tokenAt tokens) := by
  have hfindings : findings tokens = _ := resume_of_rounds h
  rw [parse, hfindings, outcome, token_textOf]
  cases rounds.flatMap Round.marks with
  | nil => rfl
  | cons mark marks => rfl

/-- What parsing gives is an outline that depends on the kinds alone, filled in with the tokens. -/
theorem exists_outline : ∃ outline : List TokenKind → Outcome, ∀ tokens : List Token,
    parse tokens = (outline (kindsOf tokens)).fill (tokenAt tokens) := by
  choose rounds _ hrounds using fun kinds : List TokenKind =>
    exists_rounds kinds kinds.length 0 (Nat.zero_add _)
  exact ⟨fun kinds => outcome (rounds kinds), fun tokens =>
    parse_of_rounds (hrounds _ (textOf tokens))⟩

/-- Every error of a program points at one of the tokens before its end, or at the end. -/
theorem blames_of_parse {tokens : List Token} {errors : List SyntaxError}
    (h : parse tokens = .error errors) :
    ∀ e ∈ errors, ∃ token ∈ beforeEnd tokens ++ [endToken tokens], ∃ cause,
      e = .atToken token cause := by
  obtain ⟨outline, houtline⟩ := exists_outline
  rw [houtline tokens] at h
  cases hkinds : outline (kindsOf tokens) with
  | ok statements => rw [hkinds] at h; cases h
  | error marks =>
    rw [hkinds] at h
    obtain rfl := Except.error.inj h
    intro e he
    obtain ⟨mark, _, rfl⟩ := List.mem_map.1 he
    refine ⟨tokenAt tokens mark.position, ?_, mark.cause, rfl⟩
    rw [tokenAt, List.getD_eq_getElem?_getD]
    cases htoken : (beforeEnd tokens)[mark.position]? with
    | none => exact List.mem_append_right _ (List.mem_singleton_self _)
    | some token => exact List.mem_append_left _ (List.mem_of_getElem? htoken)

/-- **Parsing looks at kinds.**  If two sequences of tokens have the same kinds before the first end
token of each, then what parsing gives for either is the same outline, filled in with its tokens.
So both are accepted or both are refused, and in the statements or the errors of one, each token
that is kept or blamed and each literal are replaced by those at the same position of the other.
The outline is the same for all sequences of those kinds. -/
theorem parse_by_kinds :
    ∃ outline : List TokenKind → Outcome, ∀ first second : List Token,
      kindsOf first = kindsOf second →
        parse first = (outline (kindsOf first)).fill (tokenAt first) ∧
          parse second = (outline (kindsOf first)).fill (tokenAt second) := by
  obtain ⟨outline, houtline⟩ := exists_outline
  exact ⟨outline, fun first second hkinds => ⟨houtline first, hkinds ▸ houtline second⟩⟩

/-- The tokens of an assignment of a text to a name, on one line. -/
def assigned (name text : String) (line : Nat) : List Token :=
  [⟨.identifier, name, none, line⟩, ⟨.symbol .equal, "=", none, line⟩,
    ⟨.string, text, some (.string text), line⟩, ⟨.symbol .semicolon, ";", none, line⟩]

/-- Two assignments of the same kinds, one of them with end tokens behind it. -/
theorem parse_by_kinds_assigned :
    kindsOf (assigned "a" "one" 1) = kindsOf (assigned "b" "two" 2 ++ [.endOf 3, .endOf 4]) ∧
      ∃ outline : Outcome,
        parse (assigned "a" "one" 1) = outline.fill (tokenAt (assigned "a" "one" 1)) ∧
          parse (assigned "b" "two" 2 ++ [.endOf 3, .endOf 4]) =
            outline.fill (tokenAt (assigned "b" "two" 2 ++ [.endOf 3, .endOf 4])) :=
  have ⟨_, h⟩ := parse_by_kinds
  ⟨rfl, _, h _ _ rfl⟩

end Lox.Outline
