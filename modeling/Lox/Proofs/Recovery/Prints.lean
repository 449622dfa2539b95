import Lox.Proofs.Derivation.Statement

/-!
# Print statements in a program

Where the print statements of a program stand, at any depth, with the tokens before and behind each.

* `PrintSite`: a print statement and the tokens around it, `PrintSite.without` being these with its
  expression deleted;
* `Statement.prints` up to `Body.prints`: the print statements in a derivation tree;
* `Body.tokens_of_mem_prints`: around each of them stand the other tokens of the tree;
* `Body.lists`: every word `print` belongs to one of them.
-/

namespace Lox.Derivation

/-- A print statement and the tokens around it. -/
structure PrintSite where
  before : List Token
  word : Word (.keyword .print)
  expr : Phrase .expression
  semicolon : Word (.symbol .semicolon)
  after : List Token

namespace PrintSite

/-- The same statement with more tokens around it. -/
def within (left right : List Token) (site : PrintSite) : PrintSite :=
  { site with before := left ++ site.before, after := site.after ++ right }

/-- The tokens with the statement in its place. -/
def tokens (site : PrintSite) : List Token :=
  site.before ++ site.word.val :: (site.expr.tokens ++ site.semicolon.val :: site.after)

/-- The tokens without the expression, and more tokens behind them. -/
def without (site : PrintSite) (rest : List Token) : List Token :=
  site.before ++ site.word.val :: site.semicolon.val :: (site.after ++ rest)

theorem within_within (left right left' right' : List Token) (site : PrintSite) :
    (site.within left right).within left' right' =
      site.within (left' ++ left) (right ++ right') := by
  simp [within]

@[simp] theorem tokens_within (left right : List Token) (site : PrintSite) :
    (site.within left right).tokens = left ++ (site.tokens ++ right) := by
  simp [tokens, within]

@[simp] theorem without_within (left right rest : List Token) (site : PrintSite) :
    (site.within left right).without rest = left ++ site.without (right ++ rest) := by
  simp [without, within]

/-- Without the expression, the first token is the same. -/
theorem exists_without {site : PrintSite} {first : Token} {more : List Token}
    (h : site.tokens = first :: more) (rest : List Token) :
    ∃ others, site.without rest = first :: others := by
  cases hbefore : site.before with
  | nil =>
    rw [tokens, hbefore] at h
    rw [without, hbefore, ← (List.cons.inj h).1]
    exact ⟨_, rfl⟩
  | cons token before =>
    rw [tokens, hbefore] at h
    rw [without, hbefore, ← (List.cons.inj h).1]
    exact ⟨_, rfl⟩

end PrintSite

mutual

/-- The print statements in a statement. -/
def Statement.prints : {takesElse : Bool} → Statement takesElse → List PrintSite
  | _, .expression _ _ => []
  | _, .print word expr semicolon => [⟨[], word, expr, semicolon, []⟩]
  | _, .block opening body closing => body.prints.map (.within [opening.val] [closing.val])
  | _, .loop word opening condition closing body =>
    body.prints.map (.within (word.val :: opening.val :: (condition.tokens ++ [closing.val])) [])
  | _, .ifThen word opening condition closing thenBranch =>
    thenBranch.prints.map
      (.within (word.val :: opening.val :: (condition.tokens ++ [closing.val])) [])
  | _, .ifElse word opening condition closing thenBranch otherwise elseBranch =>
    let head := word.val :: opening.val :: (condition.tokens ++ [closing.val])
    thenBranch.prints.map (.within head (otherwise.val :: elseBranch.tokens)) ++
      elseBranch.prints.map (.within (head ++ thenBranch.tokens ++ [otherwise.val]) [])
  | _, .forLoop word opening start condition semicolon step closing body =>
    body.prints.map (.within (word.val :: opening.val :: (start.tokens ++
      (Clause.tokens condition ++ semicolon.val :: (Clause.tokens step ++ [closing.val])))) [])

/-- The print statements in a declaration. -/
def Declaration.prints : Declaration → List PrintSite
  | .var _ => []
  | .statement statement => statement.prints

/-- The print statements in declarations. -/
def Body.prints : Body → List PrintSite
  | .nil => []
  | .cons first rest =>
    first.prints.map (.within [] rest.tokens) ++ rest.prints.map (.within first.tokens [])

end

/-! ### What stands around them -/

mutual

theorem Statement.tokens_of_mem_prints : ∀ {takesElse : Bool} (statement : Statement takesElse),
    ∀ site ∈ statement.prints, site.tokens = statement.tokens
  | _, .expression _ _ => by simp [Statement.prints]
  | _, .print word expr semicolon => by
    simp [Statement.prints, Statement.tokens, PrintSite.tokens]
  | _, .block opening body closing => by
    simp only [Statement.prints, List.forall_mem_map, PrintSite.tokens_within]
    intro site hsite
    simp [Body.tokens_of_mem_prints body site hsite, Statement.tokens]
  | _, .loop word opening condition closing body => by
    simp only [Statement.prints, List.forall_mem_map, PrintSite.tokens_within]
    intro site hsite
    simp [Statement.tokens_of_mem_prints body site hsite, Statement.tokens]
  | _, .ifThen word opening condition closing thenBranch => by
    simp only [Statement.prints, List.forall_mem_map, PrintSite.tokens_within]
    intro site hsite
    simp [Statement.tokens_of_mem_prints thenBranch site hsite, Statement.tokens]
  | _, .ifElse word opening condition closing thenBranch otherwise elseBranch => by
    simp only [Statement.prints, List.forall_mem_append, List.forall_mem_map,
      PrintSite.tokens_within]
    refine ⟨fun site hsite => ?_, fun site hsite => ?_⟩
    · simp [Statement.tokens_of_mem_prints thenBranch site hsite, Statement.tokens]
    · simp [Statement.tokens_of_mem_prints elseBranch site hsite, Statement.tokens]
  | _, .forLoop word opening start condition semicolon step closing body => by
    simp only [Statement.prints, List.forall_mem_map, PrintSite.tokens_within]
    intro site hsite
    simp [Statement.tokens_of_mem_prints body site hsite, Statement.tokens]

theorem Declaration.tokens_of_mem_prints : ∀ (declaration : Declaration),
    ∀ site ∈ declaration.prints, site.tokens = declaration.tokens
  | .var _ => by simp [Declaration.prints]
  | .statement statement => Statement.tokens_of_mem_prints statement

/-- Around each print statement stand the other tokens of the program. -/
theorem Body.tokens_of_mem_prints : ∀ (body : Body),
    ∀ site ∈ body.prints, site.tokens = body.tokens
  | .nil => by simp [Body.prints]
  | .cons first rest => by
    simp only [Body.prints, List.forall_mem_append, List.forall_mem_map, PrintSite.tokens_within]
    refine ⟨fun site hsite => ?_, fun site hsite => ?_⟩
    · simp [Declaration.tokens_of_mem_prints first site hsite, Body.tokens]
    · simp [Body.tokens_of_mem_prints rest site hsite, Body.tokens]

end

/-! ### All of them -/

/-- In some tokens each word `print` is the first token of one of the sites. -/
def Lists (tokens : List Token) (sites : List PrintSite) : Prop :=
  ∀ before word rest, word.kind = .keyword .print → tokens = before ++ word :: rest →
    ∃ site ∈ sites, before = site.before ∧ word = site.word.val ∧
      rest = site.expr.tokens ++ site.semicolon.val :: site.after

section

variable {tokens others : List Token} {sites more : List PrintSite}

theorem lists_nil (h : ∀ token ∈ tokens, token.kind ≠ .keyword .print) : Lists tokens [] := by
  rintro before word rest hword rfl
  exact absurd hword (h word (by simp))

theorem Lists.append (h : Lists tokens sites) (h' : Lists others more) :
    Lists (tokens ++ others) (sites.map (.within [] others) ++ more.map (.within tokens [])) := by
  intro before word rest hword hsplit
  have hright (between : List Token) (hbefore : before = tokens ++ between)
      (hothers : others = between ++ word :: rest) :
      ∃ site ∈ sites.map (PrintSite.within [] others) ++ more.map (PrintSite.within tokens []),
        before = site.before ∧ word = site.word.val ∧
          rest = site.expr.tokens ++ site.semicolon.val :: site.after := by
    obtain ⟨site, hsite, rfl, rfl, rfl⟩ := h' between word rest hword hothers
    refine ⟨_, List.mem_append_right _ (List.mem_map_of_mem hsite), hbefore, rfl, ?_⟩
    simp [PrintSite.within]
  obtain ⟨between, hbefore, hothers⟩ | ⟨between, htokens, hrest⟩ :=
    List.append_eq_append_iff.1 hsplit
  · exact hright _ hbefore hothers
  · cases between with
    | nil => exact hright [] (by rw [List.append_nil, htokens, List.append_nil]) hrest.symm
    | cons first between =>
      obtain ⟨rfl, rfl⟩ := List.cons.inj hrest
      obtain ⟨site, hsite, rfl, rfl, rfl⟩ := h before word between hword htokens
      refine ⟨_, List.mem_append_left _ (List.mem_map_of_mem hsite), rfl, rfl, ?_⟩
      simp [PrintSite.within]

/-- Tokens around a part add no site if there is no word `print` among them. -/
theorem Lists.within (left right : List Token) (h : Lists tokens sites)
    (hleft : ∀ token ∈ left, token.kind ≠ .keyword .print)
    (hright : ∀ token ∈ right, token.kind ≠ .keyword .print) :
    Lists (left ++ (tokens ++ right)) (sites.map (.within left right)) := by
  have := (lists_nil hleft).append (h.append (lists_nil hright))
  simpa [Function.comp_def, PrintSite.within_within] using this

end

/-! ### The parts of statements -/

/-- The kinds of tokens around the statements in a statement, blocks and print statements apart. -/
def inertKinds : List TokenKind :=
  [.keyword .for, .keyword .if, .keyword .while, .keyword .else, .keyword .var,
    .symbol .semicolon] ++ expressionKinds

/-- All tokens are of such kinds. -/
def Inert (tokens : List Token) : Prop := ∀ token ∈ tokens, token.kind ∈ inertKinds

theorem Inert.kind_ne {tokens : List Token} (h : Inert tokens) {kind : TokenKind}
    (hkind : kind ∉ inertKinds) : ∀ token ∈ tokens, token.kind ≠ kind :=
  fun token htoken => ne_of_mem_of_not_mem (h token htoken) hkind

theorem inert_nil : Inert [] := fun _ h => absurd h List.not_mem_nil

theorem inert_word {kind : TokenKind} {tokens : List Token} (word : Word kind)
    (hkind : kind ∈ inertKinds) (h : Inert tokens) : Inert (word.val :: tokens) :=
  List.forall_mem_cons.2 ⟨by rwa [word.property], h⟩

theorem Inert.append {tokens others : List Token} (h : Inert tokens) (h' : Inert others) :
    Inert (tokens ++ others) :=
  List.forall_mem_append.2 ⟨h, h'⟩

theorem Phrase.inert {rule : Rule} (phrase : Phrase rule) : Inert phrase.tokens :=
  fun token htoken => List.mem_append_right _ (phrase.kind_mem token htoken)

theorem VarDeclaration.inert (declaration : VarDeclaration) : Inert declaration.tokens := by
  cases declaration with
  | plain var name semicolon =>
    refine inert_word var (by decide) (inert_word name (by decide) ?_)
    exact inert_word semicolon (by decide) inert_nil
  | valued var name equals value semicolon =>
    refine inert_word var (by decide) (inert_word name (by decide) ?_)
    refine inert_word equals (by decide) (value.inert.append ?_)
    exact inert_word semicolon (by decide) inert_nil

theorem StartClause.inert (start : StartClause) : Inert start.tokens := by
  cases start with
  | absent semicolon => exact inert_word semicolon (by decide) inert_nil
  | var declaration => exact declaration.inert
  | expression expr semicolon =>
    exact expr.inert.append (inert_word semicolon (by decide) inert_nil)

theorem Clause.inert (clause : Clause) : Inert (Clause.tokens clause) := by
  cases clause with
  | none => exact inert_nil
  | some expr => exact expr.inert

/-- What stands before the first statement in a `while` loop or an `if`. -/
theorem inert_condition {kind : TokenKind} (word : Word kind) (hkind : kind ∈ inertKinds)
    (opening : Word (.symbol .leftParen)) (condition : Phrase .expression)
    (closing : Word (.symbol .rightParen)) :
    Inert (word.val :: opening.val :: (condition.tokens ++ [closing.val])) := by
  refine inert_word word hkind (inert_word opening (by decide) (condition.inert.append ?_))
  exact inert_word closing (by decide) inert_nil

/-- What stands before the body of a `for` loop. -/
theorem inert_clauses (word : Word (.keyword .for)) (opening : Word (.symbol .leftParen))
    (start : StartClause) (condition : Clause) (semicolon : Word (.symbol .semicolon))
    (step : Clause) (closing : Word (.symbol .rightParen)) :
    Inert (word.val :: opening.val :: (start.tokens ++ (Clause.tokens condition ++
      semicolon.val :: (Clause.tokens step ++ [closing.val])))) := by
  refine inert_word word (by decide) (inert_word opening (by decide) (start.inert.append ?_))
  refine (Clause.inert condition).append (inert_word semicolon (by decide) ?_)
  exact (Clause.inert step).append (inert_word closing (by decide) inert_nil)

/-! ### All print statements -/

mutual

theorem Statement.lists : ∀ {takesElse : Bool} (statement : Statement takesElse),
    Lists statement.tokens statement.prints
  | _, .expression expr semicolon => by
    have hinert := expr.inert.append (inert_word semicolon (by decide) inert_nil)
    rw [Statement.prints, Statement.tokens]
    exact lists_nil (hinert.kind_ne (by decide))
  | _, .print word expr semicolon => by
    have hinert := expr.inert.append (inert_word semicolon (by decide) inert_nil)
    rw [Statement.prints, Statement.tokens]
    intro before first rest hfirst hsplit
    cases before with
    | nil =>
      obtain ⟨rfl, rfl⟩ := List.cons.inj hsplit
      exact ⟨_, List.mem_singleton_self _, rfl, rfl, rfl⟩
    | cons _ before =>
      have hmem : first ∈ expr.tokens ++ [semicolon.val] := by
        rw [show expr.tokens ++ [semicolon.val] = _ from (List.cons.inj hsplit).2]
        simp
      exact absurd hfirst (hinert.kind_ne (by decide) first hmem)
  | _, .block opening body closing => by
    have := (Body.lists body).within [opening.val] [closing.val]
      (by simp [opening.property]) (by simp [closing.property])
    rw [Statement.prints]
    simpa [Statement.tokens] using this
  | _, .loop word opening condition closing body => by
    have hhead := inert_condition word (by decide) opening condition closing
    have := (Statement.lists body).within _ [] (hhead.kind_ne (by decide))
      (inert_nil.kind_ne (by decide))
    rw [Statement.prints]
    simpa [Statement.tokens] using this
  | _, .ifThen word opening condition closing thenBranch => by
    have hhead := inert_condition word (by decide) opening condition closing
    have := (Statement.lists thenBranch).within _ [] (hhead.kind_ne (by decide))
      (inert_nil.kind_ne (by decide))
    rw [Statement.prints]
    simpa [Statement.tokens] using this
  | _, .ifElse word opening condition closing thenBranch otherwise elseBranch => by
    have hhead := inert_condition word (by decide) opening condition closing
    have hotherwise := inert_word otherwise (by decide) inert_nil
    have helse := (Statement.lists elseBranch).within _ [] (hotherwise.kind_ne (by decide))
      (inert_nil.kind_ne (by decide))
    have := ((Statement.lists thenBranch).append helse).within _ [] (hhead.kind_ne (by decide))
      (inert_nil.kind_ne (by decide))
    rw [Statement.prints]
    simpa [Statement.tokens, Function.comp_def, PrintSite.within_within] using this
  | _, .forLoop word opening start condition semicolon step closing body => by
    have hhead := inert_clauses word opening start condition semicolon step closing
    have := (Statement.lists body).within _ [] (hhead.kind_ne (by decide))
      (inert_nil.kind_ne (by decide))
    rw [Statement.prints]
    simpa [Statement.tokens] using this

theorem Declaration.lists : ∀ (declaration : Declaration),
    Lists declaration.tokens declaration.prints
  | .var declaration => by
    rw [Declaration.prints, Declaration.tokens]
    exact lists_nil (declaration.inert.kind_ne (by decide))
  | .statement statement => by
    rw [Declaration.prints, Declaration.tokens]
    exact Statement.lists statement

/-- **Every word `print` belongs to a print statement.** -/
theorem Body.lists : ∀ (body : Body), Lists body.tokens body.prints
  | .nil => by
    rw [Body.prints, Body.tokens]
    exact lists_nil (inert_nil.kind_ne (by decide))
  | .cons first rest => by
    rw [Body.prints, Body.tokens]
    exact (Declaration.lists first).append (Body.lists rest)

end

end Lox.Derivation
