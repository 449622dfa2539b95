import Mathlib.Algebra.BigOperators.Group.List.Basic
import Mathlib.Algebra.Ring.Int.Defs
import Lox.Proofs.Parsing.Reply
import Lox.Proofs.Recovery.Prints

/-!
# Braces around print statements

Whether a print statement stands in a block is seen from the braces before it: some of them are then
still open.  Where none is, either the rest of the program follows behind the statement, or an
`else` that goes with an `if` around it.

* `unclosed`: the opening braces less the closing ones;
* `Body.unclosed_tokens`: in a whole program there are as many of the one as of the other;
* `Body.around_prints`: the braces before a print statement, and what follows if none is open.
-/

namespace Lox.Derivation

open Lox.Grammar

/-! ### Counting braces -/

/-- An opening brace counts up, and a closing one down. -/
def braceWeight : TokenKind → Int
  | .symbol .leftBrace => 1
  | .symbol .rightBrace => -1
  | _ => 0

/-- The number of opening braces less that of closing braces. -/
def unclosed (tokens : List Token) : Int := (tokens.map fun token => braceWeight token.kind).sum

@[simp] theorem unclosed_nil : unclosed [] = 0 := rfl

@[simp] theorem unclosed_append (tokens others : List Token) :
    unclosed (tokens ++ others) = unclosed tokens + unclosed others := by
  simp [unclosed]

@[simp] theorem unclosed_word {kind : TokenKind} (word : Word kind) (tokens : List Token) :
    unclosed (word.val :: tokens) = braceWeight kind + unclosed tokens := by
  simp [unclosed, word.property]

/-- Tokens around the statements in a statement have no braces, those of blocks apart. -/
theorem Inert.unclosed_eq {tokens : List Token} (h : Inert tokens) : unclosed tokens = 0 := by
  have hweights : ∀ kind ∈ inertKinds, braceWeight kind = 0 := by decide
  refine List.sum_eq_zero fun weight hweight => ?_
  obtain ⟨token, htoken, rfl⟩ := List.mem_map.1 hweight
  exact hweights _ (h token htoken)

mutual

theorem Statement.unclosed_tokens : ∀ {takesElse : Bool} (statement : Statement takesElse),
    unclosed statement.tokens = 0
  | _, .expression expr semicolon => by
    simp [Statement.tokens, expr.inert.unclosed_eq, braceWeight]
  | _, .print word expr semicolon => by
    simp [Statement.tokens, expr.inert.unclosed_eq, braceWeight]
  | _, .block opening body closing => by
    simp [Statement.tokens, Body.unclosed_tokens body, braceWeight]
  | _, .loop word opening condition closing body => by
    simp [Statement.tokens, condition.inert.unclosed_eq, Statement.unclosed_tokens body,
      braceWeight]
  | _, .ifThen word opening condition closing thenBranch => by
    simp [Statement.tokens, condition.inert.unclosed_eq, Statement.unclosed_tokens thenBranch,
      braceWeight]
  | _, .ifElse word opening condition closing thenBranch otherwise elseBranch => by
    simp [Statement.tokens, condition.inert.unclosed_eq, Statement.unclosed_tokens thenBranch,
      Statement.unclosed_tokens elseBranch, braceWeight]
  | _, .forLoop word opening start condition semicolon step closing body => by
    simp [Statement.tokens, start.inert.unclosed_eq, (Clause.inert condition).unclosed_eq,
      (Clause.inert step).unclosed_eq, Statement.unclosed_tokens body, braceWeight]

theorem Declaration.unclosed_tokens : ∀ (declaration : Declaration), unclosed declaration.tokens = 0
  | .var declaration => declaration.inert.unclosed_eq
  | .statement statement => Statement.unclosed_tokens statement

/-- **Every brace of a program is closed.** -/
theorem Body.unclosed_tokens : ∀ (body : Body), unclosed body.tokens = 0
  | .nil => rfl
  | .cons first rest => by
    simp [Body.tokens, Declaration.unclosed_tokens first, Body.unclosed_tokens rest]

end

/-! ### Around a print statement -/

/-- Whether no `else` follows is seen from what stands behind, unless nothing does. -/
theorem stops_of_append {kinds : List TokenKind} {tokens others : List Token}
    (h : Stops kinds (tokens ++ others)) : tokens = [] ∨ Stops kinds tokens := by
  cases tokens with
  | nil => exact .inl rfl
  | cons token tokens => exact .inr (stops_cons.2 (stops_cons.1 h))

mutual

theorem Statement.around_prints : ∀ {takesElse : Bool} (statement : Statement takesElse),
    ∀ site ∈ statement.prints, 0 ≤ unclosed site.before ∧
      (unclosed site.before = 0 → Stops [.keyword .else] site.after →
        site.after = [])
  | _, .expression _ _ => by simp [Statement.prints]
  | _, .print _ _ _ => by simp [Statement.prints]
  | _, .block opening body closing => by
    simp only [Statement.prints, List.forall_mem_map, PrintSite.within]
    intro site hsite
    obtain ⟨hclosed, _⟩ := Body.around_prints body site hsite
    have hbefore : unclosed ([opening.val] ++ site.before) =
        1 + unclosed site.before := by simp [braceWeight]
    exact ⟨by omega, fun hzero => by omega⟩
  | _, .loop word opening condition closing body => by
    have hhead := (inert_condition word (by decide) opening condition closing).unclosed_eq
    simp only [Statement.prints, List.forall_mem_map, PrintSite.within, unclosed_append, hhead,
      Int.zero_add, List.append_nil]
    exact Statement.around_prints body
  | _, .ifThen word opening condition closing thenBranch => by
    have hhead := (inert_condition word (by decide) opening condition closing).unclosed_eq
    simp only [Statement.prints, List.forall_mem_map, PrintSite.within, unclosed_append, hhead,
      Int.zero_add, List.append_nil]
    exact Statement.around_prints thenBranch
  | _, .ifElse word opening condition closing thenBranch otherwise elseBranch => by
    have hhead := (inert_condition word (by decide) opening condition closing).unclosed_eq
    have hotherwise := (inert_word otherwise (by decide) inert_nil).unclosed_eq
    simp only [Statement.prints, List.forall_mem_append, List.forall_mem_map, PrintSite.within,
      unclosed_append, hhead, hotherwise, Statement.unclosed_tokens thenBranch, Int.zero_add,
      List.append_nil]
    refine ⟨fun site hsite => ?_, Statement.around_prints elseBranch⟩
    obtain ⟨hclosed, hthen⟩ := Statement.around_prints thenBranch site hsite
    refine ⟨hclosed, fun hzero hstops => ?_⟩
    -- the `else` of this statement follows, or one that goes with an `if` within
    have hempty : site.after = [] := (stops_of_append hstops).elim id (hthen hzero)
    rw [hempty, List.nil_append, stops_cons, otherwise.property] at hstops
    exact absurd List.mem_cons_self hstops
  | _, .forLoop word opening start condition semicolon step closing body => by
    have hhead := (inert_clauses word opening start condition semicolon step closing).unclosed_eq
    simp only [Statement.prints, List.forall_mem_map, PrintSite.within, unclosed_append, hhead,
      Int.zero_add, List.append_nil]
    exact Statement.around_prints body

theorem Declaration.around_prints : ∀ (declaration : Declaration),
    ∀ site ∈ declaration.prints, 0 ≤ unclosed site.before ∧
      (unclosed site.before = 0 → Stops [.keyword .else] site.after →
        site.after = [])
  | .var _ => by simp [Declaration.prints]
  | .statement statement => Statement.around_prints statement

/-- **What stands around a print statement.**  The braces before it that are closed have been
opened.  If all of them are closed and no `else` follows, the rest of the program does. -/
theorem Body.around_prints : ∀ (body : Body),
    ∀ site ∈ body.prints, 0 ≤ unclosed site.before ∧
      (unclosed site.before = 0 → Stops [.keyword .else] site.after →
        ∃ later : Body, later.levels ≤ body.levels ∧ site.after = later.tokens)
  | .nil => by simp [Body.prints]
  | .cons first rest => by
    simp only [Body.prints, List.forall_mem_append, List.forall_mem_map, PrintSite.within,
      unclosed_append, Declaration.unclosed_tokens first, Int.zero_add, List.append_nil,
      List.nil_append, Body.levels]
    refine ⟨fun site hsite => ?_, fun site hsite => ?_⟩
    · obtain ⟨hclosed, hfirst⟩ := Declaration.around_prints first site hsite
      refine ⟨hclosed, fun hzero hstops => ⟨rest, Nat.le_max_right _ _, ?_⟩⟩
      have hempty : site.after = [] := (stops_of_append hstops).elim id (hfirst hzero)
      rw [hempty, List.nil_append]
    · obtain ⟨hclosed, hrest⟩ := Body.around_prints rest site hsite
      refine ⟨hclosed, fun hzero hstops => ?_⟩
      obtain ⟨later, hlevels, hafter⟩ := hrest hzero hstops
      exact ⟨later, Nat.le_trans hlevels (Nat.le_max_right _ _), hafter⟩

end

end Lox.Derivation
