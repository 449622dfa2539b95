import Lox.Grammar.Program
import Lox.Proofs.Derivation.Statement

/-!
# Replies of parsers

What a composed parser replies follows from what its parts reply.  There are two ways to say it.
Forwards, `Reaches` tells from how deep a text is nested whether a parser gets to a given reply or
stops with a complaint about the nesting.  Backwards, a parser that succeeded without any report
is made of parts that did.

* `Done`: the reply of a parser that succeeded without a report;
* `bind_of_done` and `done_of_bind`: composition, forwards and backwards;
* `require_word`, `take?_of_mem`, `take?_of_stops` and `next_cons`: what the smallest parsers do;
* `Stops`: the next token is of none of the given kinds;
* `Reaches` with `reaches_trans`, `reaches_bind` and `reaches_deeper`: what becomes of a text with
  a number of levels when so many levels are left.
-/

namespace Lox.Grammar

open Lox.Parser Lox.Derivation

variable {α β : Type}

/-- The reply of a parser that answers with a value, leaves some tokens and reports nothing. -/
abbrev Done (a : α) (rest : List Token) : Reply α := ⟨.ok a, rest, []⟩

/-! ### Composition -/

/-- A parser that succeeds passes on to the next, and its reports come first. -/
theorem bind_of_ok {p : Parser α} {f : α → Parser β} {theEnd : Token} {tokens rest : List Token}
    {a : α} {reports : List SyntaxError} (h : p theEnd tokens = ⟨.ok a, rest, reports⟩) :
    (p >>= f) theEnd tokens =
      ⟨(f a theEnd rest).result, (f a theEnd rest).rest,
        reports ++ (f a theEnd rest).reports⟩ := by
  show andThen p f theEnd tokens = _
  simp only [andThen, h]

/-- A parser that is done passes on to the next. -/
theorem bind_of_done {p : Parser α} {f : α → Parser β} {theEnd : Token}
    {tokens rest : List Token} {a : α} (h : p theEnd tokens = Done a rest) :
    (p >>= f) theEnd tokens = f a theEnd rest :=
  bind_of_ok h

/-- A parser that fails ends what it is part of. -/
theorem bind_of_failed {p : Parser α} {f : α → Parser β} {theEnd : Token}
    {tokens rest : List Token} {e : SyntaxError} {reports : List SyntaxError}
    (h : p theEnd tokens = ⟨.error e, rest, reports⟩) :
    (p >>= f) theEnd tokens = ⟨.error e, rest, reports⟩ := by
  show andThen p f theEnd tokens = _
  simp only [andThen, h]

/-- If a composed parser is done, so was its first part, and its second part is. -/
theorem done_of_bind {p : Parser α} {f : α → Parser β} {theEnd : Token}
    {tokens rest : List Token} {b : β} (h : (p >>= f) theEnd tokens = Done b rest) :
    ∃ a between, p theEnd tokens = Done a between ∧ f a theEnd between = Done b rest := by
  change andThen p f theEnd tokens = Done b rest at h
  rcases hp : p theEnd tokens with ⟨result, between, reports⟩
  simp only [andThen, hp] at h
  cases result with
  | error e => cases h
  | ok a =>
    rcases hf : f a theEnd between with ⟨later, left, found⟩
    simp only [hf, Reply.mk.injEq, List.append_eq_nil_iff] at h
    obtain ⟨rfl, rfl, rfl, rfl⟩ := h
    exact ⟨a, between, rfl, hf⟩

theorem done_of_pure {theEnd : Token} {tokens rest : List Token} {a b : α}
    (h : (pure a : Parser α) theEnd tokens = Done b rest) : a = b ∧ tokens = rest := by
  cases h
  exact ⟨rfl, rfl⟩

/-! ### The smallest parsers -/

/-- The next token, if there is one, is of none of the given kinds. -/
def Stops (kinds : List TokenKind) (tokens : List Token) : Prop :=
  ∀ token ∈ tokens.head?, token.kind ∉ kinds

@[simp] theorem stops_cons {kinds : List TokenKind} {token : Token} {tokens : List Token} :
    Stops kinds (token :: tokens) ↔ token.kind ∉ kinds := by
  simp [Stops]

@[simp] theorem stops_nil {kinds : List TokenKind} : Stops kinds [] := by
  simp [Stops]

theorem Stops.mono {kinds fewer : List TokenKind} {tokens : List Token} (h : Stops kinds tokens)
    (hsub : fewer ⊆ kinds) : Stops fewer tokens :=
  fun token htoken hkind => h token htoken (hsub hkind)

theorem take?_of_mem {kinds : List TokenKind} {theEnd token : Token} {rest : List Token}
    (h : token.kind ∈ kinds) : take? kinds theEnd (token :: rest) = Done (some token) rest := by
  simp [take?, h]

theorem take?_of_stops {kinds : List TokenKind} {theEnd : Token} {tokens : List Token}
    (h : Stops kinds tokens) : take? kinds theEnd tokens = Done none tokens := by
  cases tokens with
  | nil => rfl
  | cons token rest => simp [take?, stops_cons.1 h]

/-- What is taken is the next token, and it is of one of the given kinds. -/
theorem done_of_take? {kinds : List TokenKind} {theEnd : Token} {tokens rest : List Token}
    {taken : Option Token} (h : take? kinds theEnd tokens = Done taken rest) :
    (taken = none ∧ rest = tokens ∧ Stops kinds tokens) ∨
      ∃ token, taken = some token ∧ tokens = token :: rest ∧ token.kind ∈ kinds := by
  cases tokens with
  | nil => cases h; exact .inl ⟨rfl, rfl, stops_nil⟩
  | cons token more =>
    by_cases hkind : token.kind ∈ kinds
    · rw [take?_of_mem hkind] at h
      cases h
      exact .inr ⟨token, rfl, rfl, hkind⟩
    · rw [take?_of_stops (stops_cons.2 hkind)] at h
      cases h
      exact .inl ⟨rfl, rfl, stops_cons.2 hkind⟩

theorem require_word (expectation : Expectation) {theEnd : Token} {rest : List Token}
    (word : Word expectation.kind) :
    require expectation theEnd (word.val :: rest) = Done word.val rest := by
  simp [require, word.property]

/-- If something has to follow, it is the next token. -/
theorem done_of_require {expectation : Expectation} {f : Token → Parser β} {theEnd : Token}
    {tokens rest : List Token} {b : β}
    (h : (require expectation >>= f) theEnd tokens = Done b rest) :
    ∃ (word : Word expectation.kind) (more : List Token),
      tokens = word.val :: more ∧ f word.val theEnd more = Done b rest := by
  obtain ⟨token, more, hrequire, hmore⟩ := done_of_bind h
  cases tokens with
  | nil => cases hrequire
  | cons first later =>
    by_cases hkind : first.kind = expectation.kind
    · simp only [require, if_pos hkind] at hrequire
      cases hrequire
      exact ⟨⟨token, hkind⟩, more, rfl, hmore⟩
    · simp only [require, if_neg hkind, fail] at hrequire
      cases hrequire

theorem next_eq {theEnd : Token} {tokens : List Token} :
    next theEnd tokens = Done (tokens.headD theEnd) tokens := rfl

theorem next_cons {theEnd token : Token} {rest : List Token} :
    next theEnd (token :: rest) = Done token (token :: rest) := rfl

theorem skip_cons {theEnd token : Token} {rest : List Token} :
    skip theEnd (token :: rest) = Done () rest := rfl

theorem not_done_of_fail {cause : SyntaxError.Cause} {theEnd : Token} {tokens rest : List Token}
    {a : α} : fail cause theEnd tokens ≠ Done a rest := nofun

/-! ### Texts with levels of nesting -/

/-- A reply to a text with some levels of nesting when a number of levels is left: if the levels
suffice it is the given one, and otherwise a complaint about the nesting and nothing else. -/
def Reaches (limit levels : Nat) (reply goal : Reply α) : Prop :=
  if levels ≤ limit then reply = goal
  else ∃ blamed left, reply = ⟨.error (.atToken blamed .tooMuchNesting), left, []⟩

theorem reaches_of_le {limit levels : Nat} {reply goal : Reply α}
    (h : Reaches limit levels reply goal) (hle : levels ≤ limit) : reply = goal := by
  simpa [Reaches, hle] using h

theorem reaches_of_lt {limit levels : Nat} {reply goal : Reply α}
    (h : Reaches limit levels reply goal) (hlt : limit < levels) :
    ∃ blamed left, reply = ⟨.error (.atToken blamed .tooMuchNesting), left, []⟩ := by
  simpa [Reaches, Nat.not_le.2 hlt] using h

theorem reaches_of_eq {limit : Nat} {reply goal : Reply α} (h : reply = goal) :
    Reaches limit 0 reply goal := by
  simpa [Reaches] using h

/-- Two parts of a text are as deep as the deeper of the two. -/
theorem reaches_trans {limit levels₁ levels₂ : Nat} {reply between goal : Reply α}
    (h₁ : Reaches limit levels₁ reply between) (h₂ : Reaches limit levels₂ between goal) :
    Reaches limit (max levels₁ levels₂) reply goal := by
  by_cases hle₁ : levels₁ ≤ limit
  · rw [reaches_of_le h₁ hle₁]
    by_cases hle₂ : levels₂ ≤ limit
    · rw [Reaches, if_pos (by omega)]
      exact reaches_of_le h₂ hle₂
    · rw [Reaches, if_neg (by omega)]
      exact reaches_of_lt h₂ (by omega)
  · rw [Reaches, if_neg (by omega)]
    exact reaches_of_lt h₁ (by omega)

/-- What follows a text without levels of its own adds none. -/
theorem reaches_trans_eq {limit levels : Nat} {reply between goal : Reply α}
    (h₁ : Reaches limit levels reply between) (h₂ : between = goal) :
    Reaches limit levels reply goal := h₂ ▸ h₁

/-- A composed parser goes on where its first part is done, and complains when that complains. -/
theorem reaches_bind {limit levels : Nat} {p : Parser α} {f : α → Parser β}
    {theEnd : Token} {tokens between : List Token} {a : α}
    (h : Reaches limit levels (p theEnd tokens) (Done a between)) :
    Reaches limit levels ((p >>= f) theEnd tokens) (f a theEnd between) := by
  by_cases hle : levels ≤ limit
  · rw [Reaches, if_pos hle]
    exact bind_of_done (reaches_of_le h hle)
  · rw [Reaches, if_neg hle]
    obtain ⟨blamed, left, herror⟩ := reaches_of_lt h (by omega)
    exact ⟨blamed, left, bind_of_failed herror⟩

/-- The parsers one level further in reach what the rule itself reaches, at the cost of a level. -/
theorem reaches_deeper (part rule : Nested → Parser α)
    (hnone : part (nested 0) = fail .tooMuchNesting)
    (hmore : ∀ limit, part (nested (limit + 1)) = rule (nested limit))
    {levels : Nat} {theEnd : Token} {tokens : List Token} {goal : Reply α}
    (h : ∀ limit, Reaches limit levels (rule (nested limit) theEnd tokens) goal) (limit : Nat) :
    Reaches limit (levels + 1) (part (nested limit) theEnd tokens) goal := by
  cases limit with
  | zero =>
    rw [Reaches, if_neg (by omega), hnone]
    exact ⟨tokens.headD theEnd, tokens, rfl⟩
  | succ limit =>
    rw [hmore]
    by_cases hle : levels ≤ limit
    · rw [Reaches, if_pos (by omega)]
      exact reaches_of_le (h limit) hle
    · rw [Reaches, if_neg (by omega)]
      exact reaches_of_lt (h limit) (by omega)

end Lox.Grammar
