import Lox.Proofs.Derivation.Statement
import Lox.Proofs.Occurrences.Roles

/-!
# Tokens of trees that were written

A syntax tree that stands for a derivation tree has its tokens from there: each is one of those that
were written, and its kind is one that the grammar has for its role.  So it is too with the step of
a loop, which was written before the body and stands behind it in the tree.

* `Role.kinds`: the kinds of tokens in a role;
* `Written`: the tokens of a tree are from a text, with a rule for each way to build trees and for
  more text around;
* `Phrase.written`, `Declaration.written`, `Body.written`: the trees that are parsed are so.
-/

namespace Lox

/-- The kinds of tokens that the grammar has in a role. -/
def Role.kinds : Role → List TokenKind
  | .variable => [.identifier]
  | .target => [.identifier]
  | .declared => [.identifier]
  | .sign => [.symbol .bang, .symbol .minus]
  | .operator =>
    [.symbol .plus, .symbol .minus, .symbol .star, .symbol .slash,
      .symbol .greater, .symbol .greaterEqual, .symbol .less, .symbol .lessEqual,
      .symbol .equalEqual, .symbol .bangEqual]
  | .connective => [.keyword .and, .keyword .or]

/-- A token of a tree that is one of the given tokens, and of a kind that its role has. -/
structure Occurrence.WrittenIn (tokens : List Token) (occurrence : Occurrence) : Prop where
  mem : occurrence.token ∈ tokens
  kind : occurrence.token.kind ∈ occurrence.role.kinds

/-- The tokens of a tree are among the given tokens, each of a kind that its role has. -/
def Written (tokens : List Token) (occurrences : List Occurrence) : Prop :=
  ∀ occurrence ∈ occurrences, occurrence.WrittenIn tokens

namespace Written

variable {tokens more : List Token} {occurrences others : List Occurrence}

theorem nil : Written tokens [] := fun _ h => absurd h List.not_mem_nil

theorem cons {role : Role} {token : Token} (hmem : token ∈ tokens)
    (hkind : token.kind ∈ role.kinds) (h : Written tokens occurrences) :
    Written tokens (⟨role, token⟩ :: occurrences) :=
  List.forall_mem_cons.2 ⟨⟨hmem, hkind⟩, h⟩

theorem append (h : Written tokens occurrences) (h' : Written tokens others) :
    Written tokens (occurrences ++ others) :=
  List.forall_mem_append.2 ⟨h, h'⟩

theorem mono (h : Written tokens occurrences) (hmore : ∀ token ∈ tokens, token ∈ more) :
    Written more occurrences :=
  fun occurrence hmem => ⟨hmore _ (h occurrence hmem).mem, (h occurrence hmem).kind⟩

end Written

namespace Derivation

theorem Word.mem_kinds {role : Role} (name : Word .identifier) (h : .identifier ∈ role.kinds) :
    name.val.kind ∈ role.kinds := by
  rw [name.property]
  exact h

/-- What the operators of a precedence are there for. -/
def Precedence.role : Precedence → Role
  | .or => .connective
  | .and => .connective
  | _ => .operator

theorem Precedence.operators_subset (precedence : Precedence) :
    precedence.operators ⊆ precedence.role.kinds := by
  cases precedence <;> decide

theorem occurrences_build (precedence : Precedence) (operator : Token) (left right : Expr) :
    (precedence.build operator left right).occurrences =
      ⟨precedence.role, operator⟩ :: (left.occurrences ++ right.occurrences) := by
  cases precedence <;> rfl

/-- The tokens of an expression were written. -/
theorem Phrase.written {rule : Rule} (phrase : Phrase rule) :
    Written phrase.tokens phrase.expr.occurrences := by
  induction phrase with
  | assignment name equals value ih =>
    refine .cons List.mem_cons_self (Word.mem_kinds name (by decide)) (ih.mono fun _ h => ?_)
    simp [tokens, h]
  | operation _ ih => exact ih
  | single _ ih => exact ih
  | @join precedence left operator right ihl ihr =>
    rw [expr, occurrences_build]
    refine .cons ?_ (precedence.operators_subset operator.property)
      (.append (ihl.mono fun _ h => ?_) (ihr.mono fun _ h => ?_))
    · simp [tokens]
    · simp [tokens, h]
    · simp [tokens, h]
  | signed sign operand ih =>
    refine .cons List.mem_cons_self sign.property (ih.mono fun _ h => ?_)
    simp [tokens, h]
  | unsigned _ ih => exact ih
  | literal _ => exact .nil
  | identifier token =>
    exact .cons List.mem_cons_self (Word.mem_kinds token (by decide)) .nil
  | group opening inner closing ih =>
    refine ih.mono fun _ h => ?_
    simp [tokens, h]

theorem VarDeclaration.written (declaration : VarDeclaration) :
    Written declaration.tokens declaration.stmt.occurrences := by
  cases declaration with
  | plain var name semicolon =>
    refine .cons ?_ (Word.mem_kinds name (by decide)) .nil
    simp [tokens]
  | valued var name equals value semicolon =>
    refine .cons ?_ (Word.mem_kinds name (by decide)) (value.written.mono fun _ h => ?_)
    · simp [tokens]
    · simp [tokens, h]

theorem StartClause.written (start : StartClause) :
    Written start.tokens (start.stmt?.elim [] Stmt.occurrences) := by
  cases start with
  | absent semicolon => exact .nil
  | var declaration => exact declaration.written
  | expression expr semicolon =>
    refine expr.written.mono fun _ h => ?_
    simp [tokens, h]

theorem Clause.written (clause : Clause) :
    Written (Clause.tokens clause) ((Clause.expr? clause).elim [] Expr.occurrences) := by
  cases clause with
  | none => exact .nil
  | some expr => exact expr.written

mutual

/-- The tokens of a statement were written. -/
theorem Statement.written : ∀ {takesElse : Bool} (statement : Statement takesElse),
    Written statement.tokens statement.stmt.occurrences
  | _, .expression expr _ => expr.written.mono fun _ h => by simp [Statement.tokens, h]
  | _, .print _ expr _ => expr.written.mono fun _ h => by simp [Statement.tokens, h]
  | _, .block _ body _ => body.written.mono fun _ h => by simp [Statement.tokens, h]
  | _, .loop _ _ condition _ body =>
    .append (condition.written.mono fun _ h => by simp [Statement.tokens, h])
      (body.written.mono fun _ h => by simp [Statement.tokens, h])
  | _, .ifThen _ _ condition _ thenBranch =>
    .append (condition.written.mono fun _ h => by simp [Statement.tokens, h])
      (thenBranch.written.mono fun _ h => by simp [Statement.tokens, h])
  | _, .ifElse _ _ condition _ thenBranch _ elseBranch =>
    .append (condition.written.mono fun _ h => by simp [Statement.tokens, h])
      (.append (thenBranch.written.mono fun _ h => by simp [Statement.tokens, h])
        (elseBranch.written.mono fun _ h => by simp [Statement.tokens, h]))
  | _, .forLoop word opening start condition semicolon step closing body => by
    rw [stmt_forLoop word opening start condition semicolon step closing body,
      occurrences_forLoop]
    have hstart := start.written
    have hcondition := Clause.written condition
    have hbody := body.written
    have hstep := Clause.written step
    refine .append (hstart.mono ?_) (.append (hcondition.mono ?_)
      (.append (hbody.mono ?_) (hstep.mono ?_))) <;>
      intro token h <;> simp [Statement.tokens, h]

theorem Declaration.written : ∀ (declaration : Declaration),
    Written declaration.tokens declaration.stmt.occurrences
  | .var declaration => declaration.written
  | .statement statement => statement.written

/-- The tokens of a program were written. -/
theorem Body.written : ∀ (body : Body), Written body.tokens (occurrencesAll body.stmts)
  | .nil => .nil
  | .cons first rest =>
    .append (first.written.mono fun _ h => by simp [Body.tokens, h])
      (rest.written.mono fun _ h => by simp [Body.tokens, h])

end

end Derivation

end Lox
