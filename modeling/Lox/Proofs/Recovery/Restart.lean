import Mathlib.Order.Bounds.Defs
import Lox.Proofs.Diagnosis.FirstFault

/-!
# Restart

Wherever the loop over the declarations of a program stands, it goes on as if the program began
there.  Nothing of what was read or given up before is left over, neither tokens nor levels of
nesting.  After an error it stands at the first place behind the token that was blamed where a
statement may begin, and if that token is the end, it is done.

The loop is followed by the relation `Stands`, which has a case for its start and for each of the
two ways in which a round can end.  That the rounds do not run out is because each takes a token.

* `replyAt`: what reading a declaration replies at a position;
* `Stands`: the loop stands at a position, having found something;
* `MayRestart`: the places where reading may go on after an error;
* `restarts`: the loop goes on as if the program began there, and where it goes on after an error.
-/

namespace Lox.Recovery

open Lox.Derivation Lox.Diagnosis Lox.Grammar

/-! ### The rounds of the loop -/

variable {limit : Nat} {theEnd token : Token} {more rest : List Token} {stmt : Stmt}
  {e : SyntaxError} {reports : List SyntaxError}

/-- A declaration that was read took at least one token, and left the others as they are. -/
theorem suffix_of_read (hend : theEnd.kind = .eof)
    (h : declaration (nested limit) theEnd (token :: more) = ⟨.ok stmt, rest, reports⟩) :
    rest <:+ more := by
  obtain ⟨taken, htokens, _, hresult⟩ := exact_topLevel hend limit (token :: more)
  rw [h] at htokens hresult
  obtain ⟨first, others, rfl, _⟩ := (begins (mem_language.1 hresult.1)).exists_cons rfl
  exact ⟨others, (List.cons.inj htokens).2.symm⟩

/-- A declaration that was given up left the tokens as they are from the blamed one on. -/
theorem suffix_of_failed (hend : theEnd.kind = .eof)
    (h : declaration (nested limit) theEnd (token :: more) = ⟨.error e, rest, reports⟩) :
    rest <:+ token :: more ∧ e = .atToken (rest.headD theEnd) e.cause := by
  obtain ⟨taken, htokens, _, hresult⟩ := exact_topLevel hend limit (token :: more)
  rw [h] at htokens hresult
  exact ⟨⟨taken, htokens.symm⟩, hresult.1⟩

theorem restart_suffix (previous : Token) (tokens : List Token) :
    restart previous tokens <:+ tokens := by
  induction tokens generalizing previous with
  | nil => exact List.suffix_refl _
  | cons token rest ih =>
    rw [restart]
    split
    · exact List.suffix_refl _
    · exact (ih token).trans (List.suffix_cons token rest)

theorem recover_suffix (tokens : List Token) : recover tokens <:+ tokens.tail := by
  cases tokens with
  | nil => exact List.suffix_refl _
  | cons blamed rest => exact restart_suffix blamed rest

/-- After an error, at least one token is left behind. -/
theorem suffix_of_recover (h : rest <:+ token :: more) : recover rest <:+ more := by
  refine (recover_suffix rest).trans ?_
  obtain rfl | h := List.suffix_cons_iff.1 h
  · exact List.suffix_refl _
  · exact (List.tail_suffix rest).trans h

/-- Rounds beyond those that are needed make no difference. -/
theorem program_rounds (hend : theEnd.kind = .eof) (rounds others tokens : List Token)
    (hlong : tokens.length ≤ rounds.length) (hlong' : tokens.length ≤ others.length) :
    program (nested limit) theEnd rounds tokens = program (nested limit) theEnd others tokens := by
  induction rounds generalizing others tokens with
  | nil =>
    cases List.length_eq_zero_iff.1 (Nat.le_zero.1 hlong)
    cases others <;> rfl
  | cons _ rounds ih =>
    cases tokens with
    | nil => cases others <;> rfl
    | cons token more =>
      cases others with
      | nil => cases hlong'
      | cons _ others =>
        have hlater {tokens : List Token} (h : tokens <:+ more) :
            program (nested limit) theEnd rounds tokens =
              program (nested limit) theEnd others tokens :=
          ih others tokens (h.length_le.trans (Nat.le_of_succ_le_succ hlong))
            (h.length_le.trans (Nat.le_of_succ_le_succ hlong'))
        rw [program, program]
        rcases hreply : declaration (nested limit) theEnd (token :: more) with
          ⟨e | stmt, rest, reports⟩
        · simp only [hlater (suffix_of_recover (suffix_of_failed hend hreply).1)]
        · simp only [hlater (suffix_of_read hend hreply)]

/-! ### What is found from a place on -/

/-- What is found in one part of a program and then in the next. -/
instance : Append Findings :=
  ⟨fun first later => ⟨first.statements ++ later.statements, first.errors ++ later.errors⟩⟩

theorem findings_append_assoc (first second third : Findings) :
    first ++ second ++ third = first ++ (second ++ third) :=
  congrArg₂ Findings.mk (List.append_assoc _ _ _) (List.append_assoc _ _ _)

theorem findings_append_nil (found : Findings) : found ++ (⟨[], []⟩ : Findings) = found :=
  congrArg₂ Findings.mk (List.append_nil _) (List.append_nil _)

/-- What the loop finds from some tokens on. -/
def resume (theEnd : Token) (tokens : List Token) : Findings :=
  program (nested maxNesting) theEnd tokens tokens

/-- What it finds is the declaration that was read, and what it finds behind that. -/
theorem resume_of_read (hend : theEnd.kind = .eof)
    (h : declaration (nested maxNesting) theEnd (token :: more) = ⟨.ok stmt, rest, reports⟩) :
    resume theEnd (token :: more) = (⟨[stmt], reports⟩ : Findings) ++ resume theEnd rest := by
  have hshort := (suffix_of_read hend h).length_le
  rw [resume, program, h, resume, program_rounds hend rest more rest (Nat.le_refl _) hshort]
  rfl

/-- Or it is the error, behind all that was reported before it. -/
theorem resume_of_failed (hend : theEnd.kind = .eof)
    (h : declaration (nested maxNesting) theEnd (token :: more) = ⟨.error e, rest, reports⟩) :
    resume theEnd (token :: more) =
      (⟨[], reports ++ [e]⟩ : Findings) ++ resume theEnd (recover rest) := by
  have hshort := (suffix_of_recover (suffix_of_failed hend h).1).length_le
  rw [resume, program, h, resume,
    program_rounds hend (recover rest) more (recover rest) (Nat.le_refl _) hshort]
  refine congrArg₂ Findings.mk rfl ?_
  rw [List.append_assoc]
  rfl

/-- A program that begins at a position is read as the tokens in hand there are. -/
theorem findings_drop {tokens : List Token} {r : Nat} (h : r ≤ (beforeEnd tokens).length) :
    findings (tokens.drop r) = resume (endToken tokens) ((beforeEnd tokens).drop r) := by
  rw [findings, beforeEnd_drop h]
  obtain hlt | rfl := Nat.lt_or_eq_of_le h
  · rw [endToken_drop hlt]
    rfl
  · rw [List.drop_length]
    rfl

/-! ### Where the loop stands -/

/-- What reading a declaration replies at a position. -/
def replyAt (tokens : List Token) (r : Nat) : Reply Stmt :=
  declaration (nested maxNesting) (endToken tokens) ((beforeEnd tokens).drop r)

/-- The loop over the declarations stands at a position, and has found something up to there. -/
inductive Stands (tokens : List Token) : Nat → Findings → Prop where
  | start : Stands tokens 0 ⟨[], []⟩
  | read {r : Nat} {found : Findings} {stmt : Stmt} {rest : List Token}
      {reports : List SyntaxError} (h : Stands tokens r found)
      (hopen : r < (beforeEnd tokens).length)
      (hreply : replyAt tokens r = ⟨.ok stmt, rest, reports⟩) :
      Stands tokens (position tokens rest) (found ++ ⟨[stmt], reports⟩)
  | recovered {r : Nat} {found : Findings} {e : SyntaxError} {rest : List Token}
      {reports : List SyntaxError} (h : Stands tokens r found)
      (hopen : r < (beforeEnd tokens).length)
      (hreply : replyAt tokens r = ⟨.error e, rest, reports⟩) :
      Stands tokens (position tokens (recover rest)) (found ++ ⟨[], reports ++ [e]⟩)

theorem Stands.le {tokens : List Token} {r : Nat} {found : Findings} (h : Stands tokens r found) :
    r ≤ (beforeEnd tokens).length := by
  cases h with
  | start => exact Nat.zero_le _
  | read => exact position_le _ _
  | recovered => exact position_le _ _

/-- While the loop has not come to the end, there are tokens in hand. -/
theorem exists_inHand {tokens : List Token} {r : Nat} (hopen : r < (beforeEnd tokens).length) :
    ∃ token more, (beforeEnd tokens).drop r = token :: more ∧
      token :: more <:+ beforeEnd tokens := by
  have hsuffix := List.drop_suffix r (beforeEnd tokens)
  cases hdrop : (beforeEnd tokens).drop r with
  | nil => exact absurd (List.drop_eq_nil_iff.1 hdrop) (Nat.not_le.2 hopen)
  | cons token more => exact ⟨token, more, rfl, hdrop ▸ hsuffix⟩

/-- **A clean restart.**  What is found in all is what was found before, and what is found when the
program begins where the loop stands. -/
theorem Stands.findings_eq {tokens : List Token} {r : Nat} {found : Findings}
    (h : Stands tokens r found) : findings tokens = found ++ findings (tokens.drop r) := by
  have hend := endToken_kind tokens
  induction h with
  | start => rfl
  | @read r found stmt rest reports h hopen hreply ih =>
    obtain ⟨token, more, hdrop, hsuffix⟩ := exists_inHand hopen
    rw [replyAt, hdrop] at hreply
    have hrest := (suffix_of_read hend hreply).trans ((List.suffix_cons token more).trans hsuffix)
    rw [ih, findings_drop h.le, findings_drop (position_le _ _), drop_position hrest, hdrop,
      resume_of_read hend hreply, findings_append_assoc]
  | @recovered r found e rest reports h hopen hreply ih =>
    obtain ⟨token, more, hdrop, hsuffix⟩ := exists_inHand hopen
    rw [replyAt, hdrop] at hreply
    have hrest := (suffix_of_recover (suffix_of_failed hend hreply).1).trans
      ((List.suffix_cons token more).trans hsuffix)
    rw [ih, findings_drop h.le, findings_drop (position_le _ _), drop_position hrest, hdrop,
      resume_of_failed hend hreply, findings_append_assoc]

/-! ### Where reading goes on after an error -/

/-- The kind of the token at a position, the end token that is added included. -/
def kindAt (tokens : List Token) (position : Nat) : Option TokenKind :=
  (ended tokens)[position]?.map Token.kind

/-- Reading may go on at a position: at the end, behind a semicolon, or before a word that begins a
statement. -/
def MayRestart (tokens : List Token) (next : Nat) : Prop :=
  kindAt tokens next = some .eof ∨ kindAt tokens (next - 1) = some (.symbol .semicolon) ∨
    ∃ kind, kindAt tokens next = some kind ∧ beginsStatement kind = true

theorem kindAt_of_append {tokens before rest : List Token}
    (h : beforeEnd tokens = before ++ rest) :
    kindAt tokens before.length = some (rest.headD (endToken tokens)).kind := by
  rw [kindAt, get?_ended h]
  rfl

/-- Whether reading may go on behind a token is seen from that token and the next. -/
theorem mayRestart_iff {tokens before rest : List Token} {previous : Token}
    (h : beforeEnd tokens = before ++ previous :: rest) :
    MayRestart tokens (before.length + 1) ↔
      (rest.headD (endToken tokens)).kind = .eof ∨ previous.kind = .symbol .semicolon ∨
        beginsStatement (rest.headD (endToken tokens)).kind = true := by
  have hprevious : kindAt tokens before.length = some previous.kind := kindAt_of_append h
  have h' : beforeEnd tokens = (before ++ [previous]) ++ rest := by
    rw [h, List.append_assoc]
    rfl
  have hnext := kindAt_of_append h'
  rw [List.length_append, List.length_singleton] at hnext
  simp [MayRestart, hprevious, hnext]

/-- The first place behind a token where reading may go on, found by looking at one token after
another. -/
theorem isLeast_restart {tokens : List Token} (before : List Token) (previous : Token)
    (rest : List Token) (h : beforeEnd tokens = before ++ previous :: rest) :
    IsLeast {next | before.length < next ∧ MayRestart tokens next}
      (position tokens (restart previous rest)) := by
  induction rest generalizing before previous with
  | nil =>
    have h' : beforeEnd tokens = (before ++ [previous]) ++ [] := by rw [h, List.append_nil]
    have hposition := position_of_append h'
    rw [List.length_append, List.length_singleton] at hposition
    rw [restart, hposition]
    have hmay := (mayRestart_iff h).2 (.inl (endToken_kind tokens))
    exact ⟨⟨Nat.lt_succ_self _, hmay⟩, fun next hnext => hnext.1⟩
  | cons token rest ih =>
    have h' : beforeEnd tokens = (before ++ [previous]) ++ token :: rest := by
      rw [h, List.append_assoc]
      rfl
    have hposition := position_of_append h'
    have hlength : (before ++ [previous]).length = before.length + 1 := List.length_append
    rw [restart]
    split
    next hmay =>
      rw [hposition, hlength]
      rw [Bool.or_eq_true, beq_iff_eq] at hmay
      exact ⟨⟨Nat.lt_succ_self _, (mayRestart_iff h).2 (.inr hmay)⟩, fun next hnext => hnext.1⟩
    next hmay =>
      rw [Bool.or_eq_true, beq_iff_eq, not_or] at hmay
      obtain ⟨⟨hlt, hrestart⟩, hleast⟩ := ih (before ++ [previous]) token h'
      rw [hlength] at hlt hleast
      refine ⟨⟨Nat.lt_of_succ_lt hlt, hrestart⟩, fun next hnext => ?_⟩
      obtain ⟨hbehind, hother⟩ := hnext
      obtain hlt | rfl := Nat.lt_or_eq_of_le (Nat.succ_le_of_lt hbehind)
      · exact hleast ⟨hlt, hother⟩
      · -- it may not go on directly behind the token
        obtain heof | hsemicolon | hbegins := (mayRestart_iff h).1 hother
        · have hmem : token ∈ beforeEnd tokens := by simp [h]
          exact absurd heof (kind_ne_eof_of_mem_beforeEnd hmem)
        · exact absurd hsemicolon hmay.1
        · exact absurd hbegins hmay.2

/-- **Where the loop goes on.**  A declaration that is given up blames the token at some position.
If that is the end token, nothing more is found.  Otherwise the loop goes on at the first place
behind it where that is allowed. -/
theorem exists_blamed {tokens : List Token} {r : Nat} (hopen : r < (beforeEnd tokens).length)
    {e : SyntaxError} {rest : List Token} {reports : List SyntaxError}
    (hreply : replyAt tokens r = ⟨.error e, rest, reports⟩) :
    ∃ blamed, r ≤ position tokens rest ∧ (ended tokens)[position tokens rest]? = some blamed ∧
      e = .atToken blamed e.cause ∧
      (blamed.kind = .eof → position tokens (recover rest) = (beforeEnd tokens).length) ∧
      (blamed.kind ≠ .eof → IsLeast {next | position tokens rest < next ∧ MayRestart tokens next}
        (position tokens (recover rest))) := by
  have hend := endToken_kind tokens
  obtain ⟨token, more, hdrop, hsuffix⟩ := exists_inHand hopen
  rw [replyAt, hdrop] at hreply
  obtain ⟨hrest, hblamed⟩ := suffix_of_failed hend hreply
  obtain ⟨before, hsplit⟩ := hrest.trans hsuffix
  have hposition := position_of_append hsplit.symm
  refine ⟨rest.headD (endToken tokens), ?_, ?_, hblamed, ?_, ?_⟩
  · have hlength := hrest.length_le
    rw [← hdrop, List.length_drop] at hlength
    rw [position]
    omega
  · rw [hposition]
    exact get?_ended hsplit.symm
  · intro hkind
    cases rest with
    | nil => rfl
    | cons blamed later =>
      have hmem : blamed ∈ beforeEnd tokens := by simp [← hsplit]
      exact absurd hkind (kind_ne_eof_of_mem_beforeEnd hmem)
  · intro hkind
    cases rest with
    | nil => exact absurd hend hkind
    | cons blamed later =>
      rw [hposition]
      exact isLeast_restart before blamed later hsplit.symm

/-- **Recovery is a clean restart.**  Wherever the loop stands, what is found from there on is what
is found when the program begins there.  If the declaration there is given up, it blames the token
at some position.  Nothing more is found if that is the end, and otherwise the loop goes on at the
first place behind it that is the end, or stands behind a semicolon or before a word that begins a
statement. -/
theorem restarts {tokens : List Token} {r : Nat} {found : Findings} (h : Stands tokens r found) :
    findings tokens = found ++ findings (tokens.drop r) ∧
      ∀ e rest reports, r < (beforeEnd tokens).length →
        replyAt tokens r = ⟨.error e, rest, reports⟩ →
        ∃ i blamed, i = position tokens rest ∧ r ≤ i ∧ (ended tokens)[i]? = some blamed ∧
          e = .atToken blamed e.cause ∧
          (blamed.kind = .eof → findings tokens = found ++ (⟨[], reports ++ [e]⟩ : Findings)) ∧
          (blamed.kind ≠ .eof → ∃ next, Stands tokens next (found ++ ⟨[], reports ++ [e]⟩) ∧
            IsLeast {next | i < next ∧ MayRestart tokens next} next) := by
  refine ⟨h.findings_eq, fun e rest reports hopen hreply => ?_⟩
  have hlater := h.recovered hopen hreply
  obtain ⟨blamed, hle, hget, hblamed, hend, hnext⟩ := exists_blamed hopen hreply
  refine ⟨position tokens rest, blamed, rfl, hle, hget, hblamed, fun hkind => ?_, fun hkind => ?_⟩
  · rw [hlater.findings_eq, findings_drop hlater.le, hend hkind, List.drop_length]
    exact findings_append_nil _
  · exact ⟨_, hlater, hnext hkind⟩

/-- The tokens of `1 + ; print 2;` on one line, without an end token. -/
def halfSum : List Token :=
  let sign (symbol : Symbol) (text : String) : Token := ⟨.symbol symbol, text, none, 1⟩
  [⟨.number, "1", some .nil, 1⟩, sign .plus "+", sign .semicolon ";",
    ⟨.keyword .print, "print", none, 1⟩, ⟨.number, "2", some .nil, 1⟩, sign .semicolon ";"]

/-- The first semicolon is blamed, and reading goes on at `print`. -/
theorem restarts_halfSum :
    replyAt halfSum 0 =
        ⟨.error ⟨1, .lexeme ";", .expectedExpression⟩, halfSum.drop 2, []⟩ ∧
      findings halfSum = (⟨[], [⟨1, .lexeme ";", .expectedExpression⟩]⟩ : Findings) ++
        findings (halfSum.drop 3) ∧
      ∃ i blamed, i = position halfSum (halfSum.drop 2) ∧ 0 ≤ i ∧
        (ended halfSum)[i]? = some blamed ∧
        ⟨1, .lexeme ";", .expectedExpression⟩ = SyntaxError.atToken blamed .expectedExpression ∧
        (blamed.kind = .eof →
          findings halfSum = ⟨[], [⟨1, .lexeme ";", .expectedExpression⟩]⟩) ∧
        (blamed.kind ≠ .eof → ∃ next,
          Stands halfSum next ⟨[], [⟨1, .lexeme ";", .expectedExpression⟩]⟩ ∧
            IsLeast {next | i < next ∧ MayRestart halfSum next} next) :=
  have hopen : 0 < (beforeEnd halfSum).length := by decide
  have hreply : replyAt halfSum 0 =
    ⟨.error ⟨1, .lexeme ";", .expectedExpression⟩, halfSum.drop 2, []⟩ := rfl
  ⟨hreply, (restarts (.recovered .start hopen hreply)).1,
    (restarts .start).2 _ _ _ hopen hreply⟩

end Lox.Recovery
