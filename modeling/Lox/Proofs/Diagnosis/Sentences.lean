import Mathlib.Computability.Language
import Lox.Proofs.Derivation.Statement

/-!
# Sentences

The grammar as sets of token sequences, without trees.  It differs from the derivation trees in
that anything which can be an operand of `or` may stand before an equals sign, that nesting is not
limited, and that nothing is said about which `if` an `else` belongs to: as sequences, the same are
derived whichever it is.

* `Category` and `Derives`: the categories of the grammar and their sequences;
* `derives_body`: what a derivation tree writes is a sequence of the category of programs, so that
  every accepted program is one;
* `begins`: how the sequences of a category begin, and which categories can be empty;
* `exists_sentence`: no category is without a sequence;
* `Resolved`: statements with each `else` at the nearest `if`, which are all statements
  (`exists_resolved`).
-/

namespace Lox.Diagnosis

open Lox.Derivation

/-- The categories of the grammar. -/
inductive Category where
  | program
  | declaration
  /-- What follows the word `var`. -/
  | varDeclaration
  | statement
  /-- The first clause of a `for` loop, with the semicolon that ends it. -/
  | start
  /-- The second or third clause of a `for` loop. -/
  | clause
  /-- An expression, or a part of one. -/
  | phrase (rule : Rule)
  /-- The operators of a precedence behind an operand, each with the operand that follows it. -/
  | joined (precedence : Precedence)

/-- The token sequences of a category. -/
inductive Derives : Category → List Token → Prop where
  | noDeclaration : Derives .program []
  | declarations {first rest : List Token} (hfirst : Derives .declaration first)
      (hrest : Derives .program rest) : Derives .program (first ++ rest)
  | varDeclaration (var : Word (.keyword .var)) {tokens : List Token}
      (h : Derives .varDeclaration tokens) : Derives .declaration (var.val :: tokens)
  | statement {tokens : List Token} (h : Derives .statement tokens) : Derives .declaration tokens
  | plain (name : Word .identifier) (semicolon : Word (.symbol .semicolon)) :
      Derives .varDeclaration [name.val, semicolon.val]
  | valued (name : Word .identifier) (equals : Word (.symbol .equal)) {value : List Token}
      (hvalue : Derives (.phrase .expression) value) (semicolon : Word (.symbol .semicolon)) :
      Derives .varDeclaration (name.val :: equals.val :: (value ++ [semicolon.val]))
  | effect {expr : List Token} (hexpr : Derives (.phrase .expression) expr)
      (semicolon : Word (.symbol .semicolon)) : Derives .statement (expr ++ [semicolon.val])
  | print (word : Word (.keyword .print)) {expr : List Token}
      (hexpr : Derives (.phrase .expression) expr) (semicolon : Word (.symbol .semicolon)) :
      Derives .statement (word.val :: (expr ++ [semicolon.val]))
  | block (opening : Word (.symbol .leftBrace)) {body : List Token} (hbody : Derives .program body)
      (closing : Word (.symbol .rightBrace)) :
      Derives .statement (opening.val :: (body ++ [closing.val]))
  | loop (word : Word (.keyword .while)) (opening : Word (.symbol .leftParen))
      {condition : List Token} (hcondition : Derives (.phrase .expression) condition)
      (closing : Word (.symbol .rightParen)) {body : List Token} (hbody : Derives .statement body) :
      Derives .statement (word.val :: opening.val :: (condition ++ closing.val :: body))
  | ifThen (word : Word (.keyword .if)) (opening : Word (.symbol .leftParen))
      {condition : List Token} (hcondition : Derives (.phrase .expression) condition)
      (closing : Word (.symbol .rightParen)) {thenBranch : List Token}
      (hthen : Derives .statement thenBranch) :
      Derives .statement (word.val :: opening.val :: (condition ++ closing.val :: thenBranch))
  | ifElse (word : Word (.keyword .if)) (opening : Word (.symbol .leftParen))
      {condition : List Token} (hcondition : Derives (.phrase .expression) condition)
      (closing : Word (.symbol .rightParen)) {thenBranch : List Token}
      (hthen : Derives .statement thenBranch) (otherwise : Word (.keyword .else))
      {elseBranch : List Token} (helse : Derives .statement elseBranch) :
      Derives .statement (word.val :: opening.val ::
        (condition ++ closing.val :: (thenBranch ++ otherwise.val :: elseBranch)))
  | forLoop (word : Word (.keyword .for)) (opening : Word (.symbol .leftParen))
      {start condition step : List Token} (hstart : Derives .start start)
      (hcondition : Derives .clause condition) (semicolon : Word (.symbol .semicolon))
      (hstep : Derives .clause step) (closing : Word (.symbol .rightParen))
      {body : List Token} (hbody : Derives .statement body) :
      Derives .statement (word.val :: opening.val ::
        (start ++ (condition ++ semicolon.val :: (step ++ closing.val :: body))))
  | noStart (semicolon : Word (.symbol .semicolon)) : Derives .start [semicolon.val]
  | startVariable (var : Word (.keyword .var)) {tokens : List Token}
      (h : Derives .varDeclaration tokens) : Derives .start (var.val :: tokens)
  | startExpression {expr : List Token} (hexpr : Derives (.phrase .expression) expr)
      (semicolon : Word (.symbol .semicolon)) : Derives .start (expr ++ [semicolon.val])
  | noClause : Derives .clause []
  | clause {expr : List Token} (hexpr : Derives (.phrase .expression) expr) : Derives .clause expr
  | assignment {target value : List Token} (htarget : Derives (.phrase (.operation .or)) target)
      (equals : Word (.symbol .equal)) (hvalue : Derives (.phrase .expression) value) :
      Derives (.phrase .expression) (target ++ equals.val :: value)
  | unassigned {tokens : List Token} (h : Derives (.phrase (.operation .or)) tokens) :
      Derives (.phrase .expression) tokens
  | operation {precedence : Precedence} {first rest : List Token}
      (hfirst : Derives (.phrase precedence.tighter) first)
      (hrest : Derives (.joined precedence) rest) :
      Derives (.phrase (.operation precedence)) (first ++ rest)
  | noOperator {precedence : Precedence} : Derives (.joined precedence) []
  | operator {precedence : Precedence} (operator : OneOf precedence.operators)
      {right rest : List Token} (hright : Derives (.phrase precedence.tighter) right)
      (hrest : Derives (.joined precedence) rest) :
      Derives (.joined precedence) (operator.val :: (right ++ rest))
  | signed (sign : OneOf signs) {operand : List Token} (h : Derives (.phrase .unary) operand) :
      Derives (.phrase .unary) (sign.val :: operand)
  | unsigned {tokens : List Token} (h : Derives (.phrase .primary) tokens) :
      Derives (.phrase .unary) tokens
  | literal (token : OneOf literals) : Derives (.phrase .primary) [token.val]
  | identifier (token : Word .identifier) : Derives (.phrase .primary) [token.val]
  | group (opening : Word (.symbol .leftParen)) {inner : List Token}
      (hinner : Derives (.phrase .expression) inner) (closing : Word (.symbol .rightParen)) :
      Derives (.phrase .primary) (opening.val :: (inner ++ [closing.val]))

/-- The language of a category. -/
def language (category : Category) : Language Token := fun tokens => Derives category tokens

theorem mem_language {category : Category} {tokens : List Token} :
    tokens ∈ language category ↔ Derives category tokens := Iff.rfl

/-! ### What derivation trees write -/

/-- An operand is an operation without operators. -/
theorem Derives.single {precedence : Precedence} {tokens : List Token}
    (h : Derives (.phrase precedence.tighter) tokens) :
    Derives (.phrase (.operation precedence)) tokens := by
  have := Derives.operation h .noOperator
  rwa [List.append_nil] at this

theorem Derives.joined_append {precedence : Precedence} {tokens right : List Token}
    (h : Derives (.joined precedence) tokens) (last : OneOf precedence.operators)
    (hright : Derives (.phrase precedence.tighter) right) :
    Derives (.joined precedence) (tokens ++ last.val :: right) := by
  generalize hcategory : Category.joined precedence = category at h
  induction h with
  | noOperator =>
    cases hcategory
    have := Derives.operator last hright .noOperator
    rwa [List.append_nil] at this
  | operator operator hoperand _ _ ih =>
    cases hcategory
    have := Derives.operator operator hoperand (ih rfl)
    rwa [← List.append_assoc] at this
  | _ => cases hcategory

/-- An operation can be continued by another operator and its operand. -/
theorem Derives.join {precedence : Precedence} {left right : List Token}
    (h : Derives (.phrase (.operation precedence)) left) (operator : OneOf precedence.operators)
    (hright : Derives (.phrase precedence.tighter) right) :
    Derives (.phrase (.operation precedence)) (left ++ operator.val :: right) := by
  cases h with
  | operation hfirst hrest =>
    rw [List.append_assoc]
    exact .operation hfirst (hrest.joined_append operator hright)

theorem derives_phrase {rule : Rule} (phrase : Phrase rule) :
    Derives (.phrase rule) phrase.tokens := by
  induction phrase with
  | assignment name equals value ih =>
    have hname := Derives.unsigned (.identifier name)
    exact .assignment (.single (.single (.single (.single (.single (.single hname)))))) equals ih
  | operation _ ih => exact .unassigned ih
  | single _ ih => exact .single ih
  | join _ operator _ ihl ihr => exact ihl.join operator ihr
  | signed sign _ ih => exact .signed sign ih
  | unsigned _ ih => exact .unsigned ih
  | literal token => exact .literal token
  | identifier token => exact .identifier token
  | group opening _ closing ih => exact .group opening ih closing

theorem derives_startClause (start : StartClause) : Derives .start start.tokens := by
  cases start with
  | absent semicolon => exact .noStart semicolon
  | var declaration =>
    cases declaration with
    | plain var name semicolon => exact .startVariable var (.plain name semicolon)
    | valued var name equals value semicolon =>
      exact .startVariable var (.valued name equals (derives_phrase value) semicolon)
  | expression expr semicolon => exact .startExpression (derives_phrase expr) semicolon

theorem derives_clause (clause : Clause) : Derives .clause (Clause.tokens clause) := by
  cases clause with
  | none => exact .noClause
  | some expr => exact .clause (derives_phrase expr)

mutual

theorem derives_statement : ∀ {takesElse : Bool} (statement : Statement takesElse),
    Derives .statement statement.tokens
  | _, .expression expr semicolon => .effect (derives_phrase expr) semicolon
  | _, .print word expr semicolon => .print word (derives_phrase expr) semicolon
  | _, .block opening body closing => .block opening (derives_body body) closing
  | _, .loop word opening condition closing body =>
    .loop word opening (derives_phrase condition) closing (derives_statement body)
  | _, .ifThen word opening condition closing thenBranch =>
    .ifThen word opening (derives_phrase condition) closing (derives_statement thenBranch)
  | _, .ifElse word opening condition closing thenBranch otherwise elseBranch => by
    have := Derives.ifElse word opening (derives_phrase condition) closing
      (derives_statement thenBranch) otherwise (derives_statement elseBranch)
    simpa [Statement.tokens] using this
  | _, .forLoop word opening start condition semicolon step closing body => by
    have := Derives.forLoop word opening (derives_startClause start) (derives_clause condition)
      semicolon (derives_clause step) closing (derives_statement body)
    simpa [Statement.tokens] using this

theorem derives_declaration : ∀ declaration : Declaration,
    Derives .declaration declaration.tokens
  | .var (.plain var name semicolon) => .varDeclaration var (.plain name semicolon)
  | .var (.valued var name equals value semicolon) =>
    .varDeclaration var (.valued name equals (derives_phrase value) semicolon)
  | .statement statement => .statement (derives_statement statement)

/-- **What a derivation tree writes is a sentence.** -/
theorem derives_body : ∀ body : Body, Derives .program body.tokens
  | .nil => .noDeclaration
  | .cons first rest => .declarations (derives_declaration first) (derives_body rest)

end

/-! ### How sentences begin -/

namespace Category

/-- The kinds of tokens that a nonempty sequence of a category begins with. -/
def openers : Category → List TokenKind
  | program => .keyword .var :: (statementWords ++ Derivation.openers)
  | declaration => .keyword .var :: (statementWords ++ Derivation.openers)
  | varDeclaration => [.identifier]
  | statement => statementWords ++ Derivation.openers
  | start => .symbol .semicolon :: .keyword .var :: Derivation.openers
  | clause => Derivation.openers
  | phrase .primary => .identifier :: .symbol .leftParen :: literals
  | phrase _ => Derivation.openers
  | joined precedence => precedence.operators

/-- Whether nothing at all is a sequence of a category. -/
def canBeEmpty : Category → Bool
  | program => true
  | clause => true
  | joined _ => true
  | _ => false

end Category

/-- A sequence begins as those of a category do: with one of its openers, or it is empty and the
category allows that. -/
def BeginsAs (category : Category) (tokens : List Token) : Prop :=
  (tokens = [] ∧ category.canBeEmpty = true) ∨
    ∃ first more, tokens = first :: more ∧ first.kind ∈ category.openers

theorem BeginsAs.of_cons {category : Category} {first : Token} {more : List Token}
    (h : first.kind ∈ category.openers) : BeginsAs category (first :: more) :=
  .inr ⟨first, more, rfl, h⟩

theorem BeginsAs.exists_cons {category : Category} {tokens : List Token}
    (h : BeginsAs category tokens) (hempty : category.canBeEmpty = false) :
    ∃ first more, tokens = first :: more ∧ first.kind ∈ category.openers := by
  obtain ⟨_, hcan⟩ | hcons := h
  · rw [hempty] at hcan
    cases hcan
  · exact hcons

/-- What begins with a sequence that cannot be empty begins as that does. -/
theorem BeginsAs.append {category whole : Category} {tokens : List Token}
    (h : BeginsAs category tokens) (hempty : category.canBeEmpty = false)
    (hsub : category.openers ⊆ whole.openers) (more : List Token) :
    BeginsAs whole (tokens ++ more) := by
  obtain ⟨first, rest, rfl, hfirst⟩ := h.exists_cons hempty
  exact .of_cons (hsub hfirst)

theorem BeginsAs.widen {category whole : Category} {tokens : List Token}
    (h : BeginsAs category tokens) (hempty : category.canBeEmpty = false)
    (hsub : category.openers ⊆ whole.openers) : BeginsAs whole tokens := by
  have := h.append hempty hsub []
  rwa [List.append_nil] at this

/-- Every sequence begins as those of its category do. -/
theorem begins {category : Category} {tokens : List Token} (h : Derives category tokens) :
    BeginsAs category tokens := by
  induction h with
  | noDeclaration | noClause | noOperator => exact .inl ⟨rfl, rfl⟩
  | declarations _ _ ih _ => exact ih.append rfl (by simp [Category.openers]) _
  | statement _ ih => exact ih.widen rfl (by simp [Category.openers])
  | effect _ _ ih => exact ih.append rfl (by simp [Category.openers]) _
  | startExpression _ _ ih => exact ih.append rfl (by simp [Category.openers]) _
  | assignment _ _ _ ih _ => exact ih.append rfl (by simp [Category.openers]) _
  | unassigned _ ih => exact ih.widen rfl (by simp [Category.openers])
  | clause _ ih => exact ih.widen rfl (by simp [Category.openers])
  | @operation precedence _ _ _ _ ih _ =>
    exact ih.append rfl (by cases precedence <;> exact List.Subset.refl _) _
  | unsigned _ ih => exact ih.widen rfl (by simp only [Category.openers]; decide)
  | operator operator _ _ _ _ => exact .of_cons operator.property
  | signed sign _ _ =>
    have hsubset : signs ⊆ openers := by decide
    exact .of_cons (hsubset sign.property)
  | literal token =>
    exact .of_cons (List.mem_cons_of_mem _ (List.mem_cons_of_mem _ token.property))
  | varDeclaration word _ _ | startVariable word _ _ | plain word _ | valued word _ _ _ _
  | print word _ _ _ | block word _ _ _
  | loop word _ _ _ _ _ _ | ifThen word _ _ _ _ _ _ | ifElse word _ _ _ _ _ _ _ _ _
  | forLoop word _ _ _ _ _ _ _ _ _ _ | noStart word | identifier word | group word _ _ _ =>
    refine .of_cons ?_
    rw [word.property]
    decide

/-! ### No category is empty -/

/-- Some token of a kind. -/
def someWord (kind : TokenKind) : Word kind := ⟨⟨kind, "", none, 1⟩, rfl⟩

theorem exists_phrase (rule : Rule) : ∃ tokens, Derives (.phrase rule) tokens := by
  have hsingle (precedence : Precedence)
      (h : ∃ tokens, Derives (.phrase precedence.tighter) tokens) :
      ∃ tokens, Derives (.phrase (.operation precedence)) tokens := h.imp fun _ h => .single h
  have hprimary : ∃ tokens, Derives (.phrase .primary) tokens :=
    ⟨_, .identifier (someWord .identifier)⟩
  have hunary : ∃ tokens, Derives (.phrase .unary) tokens :=
    hprimary.imp fun _ h => .unsigned h
  have hfactor := hsingle .factor hunary
  have hterm := hsingle .term hfactor
  have hcomparison := hsingle .comparison hterm
  have hequality := hsingle .equality hcomparison
  have hand := hsingle .and hequality
  have hor := hsingle .or hand
  cases rule with
  | expression => exact hor.imp fun _ h => .unassigned h
  | operation precedence =>
    cases precedence with
    | or => exact hor
    | and => exact hand
    | equality => exact hequality
    | comparison => exact hcomparison
    | term => exact hterm
    | factor => exact hfactor
  | unary => exact hunary
  | primary => exact hprimary

/-- No category is without a sequence, so what has been read up to a point can be completed. -/
theorem exists_sentence (category : Category) : ∃ tokens, Derives category tokens := by
  obtain ⟨expr, hexpr⟩ := exists_phrase .expression
  have hstatement := Derives.effect hexpr (someWord _)
  cases category with
  | program => exact ⟨_, .noDeclaration⟩
  | declaration => exact ⟨_, .statement hstatement⟩
  | varDeclaration => exact ⟨_, .plain (someWord _) (someWord _)⟩
  | statement => exact ⟨_, hstatement⟩
  | start => exact ⟨_, .noStart (someWord _)⟩
  | clause => exact ⟨_, .noClause⟩
  | phrase rule => exact exists_phrase rule
  | joined precedence => exact ⟨_, .noOperator⟩

/-! ### The nearest `if` -/

/-- Statements with each `else` at the nearest `if`.  The index says whether an `else` directly
behind the statement would go with an `if` in it. -/
inductive Resolved : Bool → List Token → Prop where
  | effect {expr : List Token} (hexpr : Derives (.phrase .expression) expr)
      (semicolon : Word (.symbol .semicolon)) : Resolved false (expr ++ [semicolon.val])
  | print (word : Word (.keyword .print)) {expr : List Token}
      (hexpr : Derives (.phrase .expression) expr) (semicolon : Word (.symbol .semicolon)) :
      Resolved false (word.val :: (expr ++ [semicolon.val]))
  | block (opening : Word (.symbol .leftBrace)) {body : List Token} (hbody : Derives .program body)
      (closing : Word (.symbol .rightBrace)) :
      Resolved false (opening.val :: (body ++ [closing.val]))
  | loop {takesElse : Bool} (word : Word (.keyword .while)) (opening : Word (.symbol .leftParen))
      {condition : List Token} (hcondition : Derives (.phrase .expression) condition)
      (closing : Word (.symbol .rightParen)) {body : List Token} (hbody : Resolved takesElse body) :
      Resolved takesElse (word.val :: opening.val :: (condition ++ closing.val :: body))
  | ifThen {takesElse : Bool} (word : Word (.keyword .if)) (opening : Word (.symbol .leftParen))
      {condition : List Token} (hcondition : Derives (.phrase .expression) condition)
      (closing : Word (.symbol .rightParen)) {thenBranch : List Token}
      (hthen : Resolved takesElse thenBranch) :
      Resolved true (word.val :: opening.val :: (condition ++ closing.val :: thenBranch))
  | ifElse {takesElse : Bool} (word : Word (.keyword .if)) (opening : Word (.symbol .leftParen))
      {condition : List Token} (hcondition : Derives (.phrase .expression) condition)
      (closing : Word (.symbol .rightParen)) {thenBranch : List Token}
      (hthen : Resolved false thenBranch) (otherwise : Word (.keyword .else))
      {elseBranch : List Token} (helse : Resolved takesElse elseBranch) :
      Resolved takesElse (word.val :: opening.val ::
        (condition ++ closing.val :: (thenBranch ++ otherwise.val :: elseBranch)))
  | forLoop {takesElse : Bool} (word : Word (.keyword .for)) (opening : Word (.symbol .leftParen))
      {start condition step : List Token} (hstart : Derives .start start)
      (hcondition : Derives .clause condition) (semicolon : Word (.symbol .semicolon))
      (hstep : Derives .clause step) (closing : Word (.symbol .rightParen))
      {body : List Token} (hbody : Resolved takesElse body) :
      Resolved takesElse (word.val :: opening.val ::
        (start ++ (condition ++ semicolon.val :: (step ++ closing.val :: body))))

/-- An `else` with its branch behind a statement that takes it goes with the last `if` that can
take it. -/
theorem Resolved.attach {thenBranch elseBranch : List Token} {takesElse : Bool}
    (hthen : Resolved true thenBranch) (otherwise : Word (.keyword .else))
    (helse : Resolved takesElse elseBranch) :
    ∃ whole, Resolved whole (thenBranch ++ otherwise.val :: elseBranch) := by
  generalize htrue : true = index at hthen
  induction hthen with
  | effect | print | block => cases htrue
  | loop word opening hcondition closing _ ih =>
    obtain ⟨whole, h⟩ := ih htrue
    exact ⟨whole, by simpa using Resolved.loop word opening hcondition closing h⟩
  | forLoop word opening hstart hcondition semicolon hstep closing _ ih =>
    obtain ⟨whole, h⟩ := ih htrue
    exact ⟨whole, by
      simpa using Resolved.forLoop word opening hstart hcondition semicolon hstep closing h⟩
  | @ifThen inner word opening _ hcondition closing _ hbranch ih =>
    cases inner with
    | false =>
      exact ⟨takesElse, by
        simpa using Resolved.ifElse word opening hcondition closing hbranch otherwise helse⟩
    | true =>
      obtain ⟨whole, h⟩ := ih rfl
      exact ⟨true, by simpa using Resolved.ifThen word opening hcondition closing h⟩
  | ifElse word opening hcondition closing hbranch between _ _ ih =>
    obtain ⟨whole, h⟩ := ih htrue
    exact ⟨whole, by
      simpa using Resolved.ifElse word opening hcondition closing hbranch between h⟩

/-- **Every statement can be read with each `else` at the nearest `if`.** -/
theorem exists_resolved {tokens : List Token} (h : Derives .statement tokens) :
    ∃ takesElse, Resolved takesElse tokens := by
  generalize hstatement : Category.statement = category at h
  induction h with
  | effect hexpr semicolon => exact ⟨_, .effect hexpr semicolon⟩
  | print word hexpr semicolon => exact ⟨_, .print word hexpr semicolon⟩
  | block opening hbody closing => exact ⟨_, .block opening hbody closing⟩
  | loop word opening hcondition closing _ _ ih =>
    obtain ⟨_, hbody⟩ := ih rfl
    exact ⟨_, .loop word opening hcondition closing hbody⟩
  | ifThen word opening hcondition closing _ _ ih =>
    obtain ⟨_, hthen⟩ := ih rfl
    exact ⟨_, .ifThen word opening hcondition closing hthen⟩
  | ifElse word opening hcondition closing _ otherwise _ _ ihthen ihelse =>
    obtain ⟨takesElse, hthen⟩ := ihthen rfl
    obtain ⟨_, helse⟩ := ihelse rfl
    cases takesElse with
    | false => exact ⟨_, .ifElse word opening hcondition closing hthen otherwise helse⟩
    | true =>
      obtain ⟨whole, hwhole⟩ := hthen.attach otherwise helse
      exact ⟨_, .ifThen word opening hcondition closing hwhole⟩
  | forLoop word opening hstart hcondition semicolon hstep closing _ _ _ _ ih =>
    obtain ⟨_, hbody⟩ := ih rfl
    exact ⟨_, .forLoop word opening hstart hcondition semicolon hstep closing hbody⟩
  | _ => cases hstatement

end Lox.Diagnosis
