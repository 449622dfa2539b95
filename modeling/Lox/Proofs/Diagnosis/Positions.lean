import Lox.Grammar.Program

/-!
# Positions

Where something stands among the tokens of a program.  Positions are counted from the first token,
and the last one is that of the token that ends the program, which is added if there is none.

* `ended`: the tokens with an end token behind them;
* `position`: where the tokens in hand begin;
* `get?_ended`: which token is next there;
* `beforeEnd_drop` and `endToken_drop`: the tokens from a position on end where all of them do.
-/

namespace Lox.Diagnosis

open Lox.Grammar

/-- The tokens with an end token behind them, which is the one that ends the program if there is
no other. -/
def ended (tokens : List Token) : List Token :=
  tokens ++ [.endOf ((tokens.getLast?.map Token.line).getD 1)]

/-- The token that ends the program comes next behind the tokens that count. -/
theorem ended_eq (tokens : List Token) :
    ∃ more, ended tokens = beforeEnd tokens ++ endToken tokens :: more := by
  cases hfind : tokens.find? isEnd with
  | none =>
    have hopen : ∀ token ∈ tokens, (!isEnd token) = true := by
      simpa using List.find?_eq_none.1 hfind
    have hbefore : beforeEnd tokens = tokens := by
      rw [beforeEnd, ← List.append_nil tokens, List.takeWhile_append_of_pos hopen,
        List.takeWhile_nil]
    exact ⟨[], by rw [endToken, hfind, hbefore, ended]⟩
  | some token =>
    obtain ⟨htoken, before, later, htokens, hopen⟩ := List.find?_eq_some_iff_append.1 hfind
    have hbefore : beforeEnd tokens = before := by
      rw [beforeEnd, htokens, List.takeWhile_append_of_pos hopen,
        List.takeWhile_cons_of_neg (by simp [htoken]), List.append_nil]
    refine ⟨later ++ [.endOf ((tokens.getLast?.map Token.line).getD 1)], ?_⟩
    rw [endToken, hfind, hbefore, ← List.cons_append, ← List.append_assoc, ← htokens, ended]

/-- No token that counts is an end token. -/
theorem kind_ne_eof_of_mem_beforeEnd {tokens : List Token} {token : Token}
    (h : token ∈ beforeEnd tokens) : token.kind ≠ .eof := by
  have hall : (beforeEnd tokens).all (fun token => !isEnd token) = true := List.all_takeWhile
  simpa [isEnd] using List.all_eq_true.1 hall token h

/-- A place among the tokens that count is a position, and the token there is next. -/
theorem get?_ended {tokens before rest : List Token} (h : beforeEnd tokens = before ++ rest) :
    (ended tokens)[before.length]? = some (rest.headD (endToken tokens)) := by
  obtain ⟨more, hended⟩ := ended_eq tokens
  rw [hended, h, List.append_assoc, List.getElem?_append_right (Nat.le_refl _), Nat.sub_self]
  cases rest <;> rfl

theorem take_of_beforeEnd {tokens before rest : List Token}
    (h : beforeEnd tokens = before ++ rest) : tokens.take before.length = before := by
  obtain ⟨ending, hending⟩ := List.takeWhile_prefix (l := tokens) (fun token => !isEnd token)
  rw [← hending]
  change (beforeEnd tokens ++ ending).take before.length = before
  rw [h, List.append_assoc, List.take_left]

/-- The position of the first of the tokens in hand, or of the end token if there is none. -/
def position (tokens inHand : List Token) : Nat := (beforeEnd tokens).length - inHand.length

theorem position_le (tokens inHand : List Token) :
    position tokens inHand ≤ (beforeEnd tokens).length := Nat.sub_le _ _

theorem drop_position {tokens inHand : List Token} (h : inHand <:+ beforeEnd tokens) :
    (beforeEnd tokens).drop (position tokens inHand) = inHand :=
  (List.suffix_iff_eq_drop.1 h).symm

theorem position_of_append {tokens before inHand : List Token}
    (h : beforeEnd tokens = before ++ inHand) : position tokens inHand = before.length := by
  rw [position, h, List.length_append, Nat.add_sub_cancel]

/-! ### The tokens from a position on -/

theorem beforeEnd_cons {token : Token} (rest : List Token) (h : isEnd token = false) :
    beforeEnd (token :: rest) = token :: beforeEnd rest :=
  List.takeWhile_cons_of_pos (by simp [h])

theorem beforeEnd_cons_of_isEnd {token : Token} (rest : List Token) (h : isEnd token = true) :
    beforeEnd (token :: rest) = [] :=
  List.takeWhile_cons_of_neg (by simp [h])

/-- The tokens from a position on have the same tokens before their end. -/
theorem beforeEnd_drop {tokens : List Token} {r : Nat} (h : r ≤ (beforeEnd tokens).length) :
    beforeEnd (tokens.drop r) = (beforeEnd tokens).drop r := by
  induction r generalizing tokens with
  | zero => rfl
  | succ r ih =>
    cases tokens with
    | nil => rfl
    | cons token rest =>
      cases hend : isEnd token with
      | true =>
        rw [beforeEnd_cons_of_isEnd rest hend] at h
        cases h
      | false =>
        rw [beforeEnd_cons rest hend] at h ⊢
        exact ih (Nat.le_of_succ_le_succ h)

/-- They have the same end token, unless they are none of those that count. -/
theorem endToken_drop {tokens : List Token} {r : Nat} (h : r < (beforeEnd tokens).length) :
    endToken (tokens.drop r) = endToken tokens := by
  induction r generalizing tokens with
  | zero => rfl
  | succ r ih =>
    cases tokens with
    | nil => cases h
    | cons token rest =>
      cases hend : isEnd token with
      | true =>
        rw [beforeEnd_cons_of_isEnd rest hend] at h
        cases h
      | false =>
        rw [beforeEnd_cons rest hend] at h
        have hrest := Nat.lt_of_succ_lt_succ h
        rw [List.drop_succ_cons, ih hrest]
        cases rest with
        | nil => cases hrest
        | cons next rest =>
          have hfind : (token :: next :: rest).find? isEnd = (next :: rest).find? isEnd :=
            List.find?_cons_of_neg (by simp [hend])
          rw [endToken, endToken, hfind, List.getLast?_cons_cons]

end Lox.Diagnosis
