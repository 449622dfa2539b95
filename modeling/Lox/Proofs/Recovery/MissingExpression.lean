import Lox.Proofs.Recovery.Braces
import Lox.Proofs.Recovery.Restart

/-!
# A print statement without its expression

The expression of a print statement in a correct program is deleted, at whatever depth it stands.
The first error is then at the semicolon behind the word `print`, and reading goes on behind that
semicolon, at the level of the whole program.  So whether it is the only error depends on where the
statement stands: a brace that closes a block around it is blamed in turn, as is an `else`.

* `missing_expression` up to `missing_body`: a parser that comes to the place fails there;
* `errors_without`: the errors of the whole program;
* `parse_without_expression`: when it is the only error.
-/

namespace Lox.Recovery

open Lox.Derivation Lox.Diagnosis Lox.Grammar Lox.Parser

variable {α β : Type} {theEnd : Token} {tokens rest : List Token}

/-! ### Parsers that come to the place -/

/-- The reply of a parser that comes to a token where an expression is missing. -/
abbrev Missing (token : Token) (rest : List Token) : Reply α :=
  ⟨.error (.atToken token .expectedExpression), token :: rest, []⟩

/-- No expression begins with a semicolon. -/
theorem missing_expression (deeper : Nested) (semicolon : Word (.symbol .semicolon)) :
    Grammar.expression deeper theEnd (semicolon.val :: rest) = Missing semicolon.val rest := by
  have hprimary : Rule.primary.parser deeper theEnd (semicolon.val :: rest) =
      Missing semicolon.val rest := by
    have hatom : atom? semicolon.val = none := by simp [atom?, semicolon.property]
    show primary deeper theEnd (semicolon.val :: rest) = _
    rw [primary, bind_of_done next_cons, hatom]
    show grouping deeper theEnd (semicolon.val :: rest) = _
    rw [grouping, bind_of_done (take?_of_stops (stops_word semicolon (by decide)))]
    rfl
  have hunary : Rule.unary.parser deeper theEnd (semicolon.val :: rest) =
      Missing semicolon.val rest := by
    rw [parser_unary, bind_of_done (take?_of_stops (stops_word semicolon (by decide)))]
    exact hprimary
  have hoperation (precedence : Precedence)
      (h : precedence.tighter.parser deeper theEnd (semicolon.val :: rest) =
        Missing semicolon.val rest) :
      (Rule.operation precedence).parser deeper theEnd (semicolon.val :: rest) =
        Missing semicolon.val rest := by
    rw [parser_operation]
    exact bind_of_failed h
  show Rule.expression.parser deeper theEnd (semicolon.val :: rest) = _
  rw [parser_expression]
  exact bind_of_failed (hoperation .or (hoperation .and (hoperation .equality
    (hoperation .comparison (hoperation .term (hoperation .factor hunary))))))

/-- A condition in parentheses is read, and reading goes on behind it. -/
theorem bind_condition (opens closes : Expectation) (opening : Word opens.kind)
    (condition : Phrase .expression) (closing : Word closes.kind)
    (hcloses : closes.kind = .symbol .rightParen) {limit : Nat} (hle : condition.levels ≤ limit)
    (f : Expr → Parser α) :
    (do
      let _ ← require opens
      let condition ← Grammar.expression (nested limit)
      let _ ← require closes
      f condition : Parser α) theEnd
        (opening.val :: (condition.tokens ++ closing.val :: rest)) =
      f condition.expr theEnd rest := by
  have hstops : Stops Rule.expression.extending (closing.val :: rest) :=
    stops_word closing (by rw [hcloses]; decide)
  have hcondition : Grammar.expression (nested limit) theEnd
      (condition.tokens ++ closing.val :: rest) = Done condition.expr (closing.val :: rest) :=
    reaches_of_le (reads_phrase condition limit theEnd _ hstops) hle
  rw [bind_of_done (require_word opens opening), bind_of_done hcondition,
    bind_of_done (require_word closes closing)]

/-- A statement within a statement takes one of the levels that are left. -/
theorem missing_deeper {levels limit : Nat} {token : Token}
    (h : ∀ limit, levels ≤ limit →
      Grammar.statement (nested limit) theEnd tokens = Missing token rest)
    (hle : levels + 1 ≤ limit) : (nested limit).statement theEnd tokens = Missing token rest := by
  cases limit with
  | zero => exact absurd hle (Nat.not_succ_le_zero _)
  | succ limit => exact h limit (Nat.le_of_succ_le_succ hle)

/-- No `else` begins declarations one of which has lost its expression. -/
theorem stops_else_without {body : Body} {site : PrintSite} (h : site ∈ body.prints)
    (rest : List Token) : Stops [.keyword .else] (site.without rest) := by
  have htokens := Body.tokens_of_mem_prints body site h
  have hstops := body_stops_else body (stops_nil : Stops _ [])
  rw [List.append_nil, ← htokens] at hstops
  cases hsite : site.tokens with
  | nil => simp [PrintSite.tokens] at hsite
  | cons first more =>
    obtain ⟨others, hwithout⟩ := PrintSite.exists_without hsite rest
    rw [hsite, stops_cons] at hstops
    rwa [hwithout, stops_cons]

mutual

theorem missing_statement : ∀ {takesElse : Bool} (statement : Statement takesElse),
    ∀ site ∈ statement.prints, ∀ (limit : Nat) (theEnd : Token) (rest : List Token),
      statement.levels ≤ limit → (nested limit).statement theEnd (site.without rest) =
        Missing site.semicolon.val (site.after ++ rest)
  | _, .expression _ _ => by simp [Statement.prints]
  | _, .print word expr semicolon => by
    simp only [Statement.prints, List.mem_singleton, forall_eq]
    intro limit theEnd rest
    refine missing_deeper fun limit _ => ?_
    show Grammar.statement (nested limit) theEnd (word.val :: semicolon.val :: rest) = _
    rw [statement_of_word word (by decide), afterWord, printStatement]
    exact bind_of_failed (missing_expression _ semicolon)
  | _, .block opening body closing => by
    simp only [Statement.prints, List.forall_mem_map, PrintSite.without_within]
    intro site hsite limit theEnd rest
    refine missing_deeper fun limit hle => ?_
    have hbody := missing_body body site hsite limit theEnd (site.without (closing.val :: rest))
      (closing.val :: rest) (by simp [PrintSite.without]) hle
    simp only [List.cons_append, List.nil_append, PrintSite.within, List.append_assoc]
    rw [statement_of_word opening (by decide)]
    show Grammar.block (nested limit) theEnd _ = _
    rw [Grammar.block, bind_of_done (by rfl)]
    exact bind_of_failed hbody
  | _, .loop word opening condition closing body => by
    simp only [Statement.prints, List.forall_mem_map, PrintSite.without_within]
    intro site hsite limit theEnd rest
    refine missing_deeper fun limit hle => ?_
    have hbody := missing_statement body site hsite limit theEnd rest (by omega)
    simp only [List.cons_append, List.append_assoc, List.nil_append, PrintSite.within,
      List.append_nil]
    rw [statement_of_word word (by decide), afterWord, whileStatement,
      bind_condition .parenAfterWhile .parenAfterWhileCondition opening condition closing rfl
        (by omega)]
    exact bind_of_failed hbody
  | _, .ifThen word opening condition closing thenBranch => by
    simp only [Statement.prints, List.forall_mem_map, PrintSite.without_within]
    intro site hsite limit theEnd rest
    refine missing_deeper fun limit hle => ?_
    have hthen := missing_statement thenBranch site hsite limit theEnd rest (by omega)
    simp only [List.cons_append, List.append_assoc, List.nil_append, PrintSite.within,
      List.append_nil]
    rw [statement_of_word word (by decide), afterWord, ifStatement,
      bind_condition .parenAfterIf .parenAfterIfCondition opening condition closing rfl (by omega)]
    exact bind_of_failed hthen
  | _, .ifElse word opening condition closing thenBranch otherwise elseBranch => by
    simp only [Statement.prints, List.forall_mem_append, List.forall_mem_map,
      PrintSite.without_within]
    refine ⟨fun site hsite limit theEnd rest => missing_deeper fun limit hle => ?_,
      fun site hsite limit theEnd rest => missing_deeper fun limit hle => ?_⟩
    · have hthen := missing_statement thenBranch site hsite limit theEnd
        (otherwise.val :: (elseBranch.tokens ++ rest)) (by omega)
      simp only [List.cons_append, List.append_assoc, List.nil_append, PrintSite.within]
      rw [statement_of_word word (by decide), afterWord, ifStatement,
        bind_condition .parenAfterIf .parenAfterIfCondition opening condition closing rfl
          (by omega)]
      exact bind_of_failed hthen
    · have hthen := reads_statement thenBranch limit theEnd (otherwise.val :: site.without rest)
        (stops_word otherwise (by decide))
      have hotherwise : otherwise.val.kind ∈ [TokenKind.keyword .else] := by
        simp [otherwise.property]
      have helse := missing_statement elseBranch site hsite limit theEnd rest (by omega)
      simp only [List.cons_append, List.append_assoc, List.nil_append, PrintSite.within,
        List.append_nil]
      rw [statement_of_word word (by decide), afterWord, ifStatement,
        bind_condition .parenAfterIf .parenAfterIfCondition opening condition closing rfl
          (by omega),
        bind_of_done (reaches_of_le hthen (by omega)), bind_of_done (take?_of_mem hotherwise)]
      exact bind_of_failed helse
  | _, .forLoop word opening start condition semicolon step closing body => by
    simp only [Statement.prints, List.forall_mem_map, PrintSite.without_within]
    intro site hsite limit theEnd rest
    refine missing_deeper fun limit hle => ?_
    have hstart := reads_startClause start limit theEnd (Clause.tokens condition ++
      semicolon.val :: (Clause.tokens step ++ closing.val :: site.without rest))
    have hcondition := reads_clause condition semicolon (by decide) (by decide) limit theEnd
      (Clause.tokens step ++ closing.val :: site.without rest)
    have hstep := reads_clause step closing (by decide) (by decide) limit theEnd (site.without rest)
    have hbody := missing_statement body site hsite limit theEnd rest (by omega)
    simp only [List.cons_append, List.append_assoc, List.nil_append, PrintSite.within,
      List.append_nil]
    rw [statement_of_word word (by decide), afterWord, forStatement,
      bind_of_done (require_word .parenAfterFor opening),
      bind_of_done (reaches_of_le hstart (by omega)),
      bind_of_done (reaches_of_le hcondition (by omega)),
      bind_of_done (require_word .semicolonAfterLoopCondition semicolon),
      bind_of_done (reaches_of_le hstep (by omega)),
      bind_of_done (require_word .parenAfterForClauses closing)]
    exact bind_of_failed hbody

theorem missing_declaration : ∀ (declaration : Declaration),
    ∀ site ∈ declaration.prints, ∀ (limit : Nat) (theEnd : Token) (rest : List Token),
      declaration.levels ≤ limit →
        Grammar.declaration (nested limit) theEnd (site.without rest) =
          Missing site.semicolon.val (site.after ++ rest)
  | .var _ => by simp [Declaration.prints]
  | .statement statement => by
    intro site hsite limit theEnd rest hle
    obtain ⟨first, more, htokens, hfirst⟩ := statement.begins
    rw [← Statement.tokens_of_mem_prints statement site hsite] at htokens
    obtain ⟨others, hwithout⟩ := PrintSite.exists_without htokens rest
    have hstatement := missing_statement statement site hsite limit theEnd rest hle
    have hvar : Stops [.keyword .var] (site.without rest) := by
      rw [hwithout, stops_cons]
      intro hvar
      rw [List.mem_singleton.1 hvar] at hfirst
      revert hfirst
      decide
    rw [Grammar.declaration, bind_of_done (take?_of_stops hvar)]
    exact hstatement

theorem missing_body : ∀ (body : Body),
    ∀ site ∈ body.prints, ∀ (limit : Nat) (theEnd : Token) (rounds rest : List Token),
      site.before.length < rounds.length → body.levels ≤ limit →
        declarations (nested limit) rounds theEnd (site.without rest) =
          Missing site.semicolon.val (site.after ++ rest)
  | .nil => by simp [Body.prints]
  | .cons first later => by
    simp only [Body.prints, List.forall_mem_append, List.forall_mem_map, PrintSite.without_within]
    obtain ⟨token, more, htokens, hkind⟩ := first.begins
    have hopen : ¬ (token.kind = .symbol .rightBrace ∨ token.kind = .eof) := by
      rintro (h | h) <;> (rw [h] at hkind; revert hkind; decide)
    refine ⟨fun site hsite limit theEnd rounds rest hlong hle => ?_,
      fun site hsite limit theEnd rounds rest hlong hle => ?_⟩
    · have hfirst := missing_declaration first site hsite limit theEnd (later.tokens ++ rest)
        (by simp only [Body.levels] at hle; omega)
      rw [← Declaration.tokens_of_mem_prints first site hsite] at htokens
      obtain ⟨others, hwithout⟩ := PrintSite.exists_without htokens (later.tokens ++ rest)
      cases rounds with
      | nil => cases hlong
      | cons _ rounds =>
        simp only [PrintSite.within, List.nil_append, List.append_assoc]
        rw [hwithout] at hfirst ⊢
        rw [declarations, bind_of_done next_cons, if_neg hopen]
        exact bind_of_failed hfirst
    · have hlater := missing_body later site hsite limit theEnd
      cases rounds with
      | nil => cases hlong
      | cons _ rounds =>
        have hfirst := reads_declaration first limit theEnd (site.without rest)
          (stops_else_without hsite rest)
        simp only [PrintSite.within, htokens, List.length_append, List.length_cons] at hlong
        simp only [Body.levels] at hle
        simp only [PrintSite.within, List.nil_append, List.append_nil]
        rw [htokens, List.cons_append] at hfirst ⊢
        rw [declarations, bind_of_done next_cons, if_neg hopen,
          bind_of_done (reaches_of_le hfirst (by omega))]
        exact bind_of_failed (hlater rounds rest (by omega) (by omega))

end

/-! ### The errors of the program -/

/-- Behind a semicolon that is blamed, reading goes on. -/
theorem recover_semicolon (semicolon : Word (.symbol .semicolon)) (rest : List Token) :
    recover (semicolon.val :: rest) = rest := by
  cases rest <;> simp [recover, restart, semicolon.property]

/-- The first error is at the semicolon, and the others are found behind it. -/
theorem errors_without : ∀ (body : Body), ∀ site ∈ body.prints, ∀ (theEnd : Token)
    (rest : List Token), theEnd.kind = .eof → body.levels ≤ maxNesting →
      (resume theEnd (site.without rest)).errors =
        .atToken site.semicolon.val .expectedExpression ::
          (resume theEnd (site.after ++ rest)).errors
  | .nil => by simp [Body.prints]
  | .cons first later => by
    simp only [Body.prints, List.forall_mem_append, List.forall_mem_map, PrintSite.without_within]
    obtain ⟨token, more, htokens, _⟩ := first.begins
    refine ⟨fun site hsite theEnd rest hend hle => ?_, fun site hsite theEnd rest hend hle => ?_⟩
    · simp only [Body.levels] at hle
      have hfirst := missing_declaration first site hsite maxNesting theEnd (later.tokens ++ rest)
        (by omega)
      rw [← Declaration.tokens_of_mem_prints first site hsite] at htokens
      obtain ⟨others, hwithout⟩ := PrintSite.exists_without htokens (later.tokens ++ rest)
      simp only [PrintSite.within, List.nil_append, List.append_assoc]
      rw [hwithout] at hfirst ⊢
      rw [resume_of_failed hend hfirst, recover_semicolon]
      rfl
    · simp only [Body.levels] at hle
      have hfirst := reads_declaration first maxNesting theEnd (site.without rest)
        (stops_else_without hsite rest)
      have hreply := reaches_of_le hfirst (by omega)
      have hlater := errors_without later site hsite theEnd rest hend (by omega)
      simp only [PrintSite.within, List.nil_append, List.append_nil]
      rw [htokens, List.cons_append] at hreply ⊢
      rw [resume_of_read hend hreply]
      exact hlater

/-- Nothing else is found exactly if the statement stands in no block and no `else` follows it. -/
theorem alone_iff {body : Body} {site : PrintSite} (hsite : site ∈ body.prints)
    (hle : body.levels ≤ maxNesting) (hend : theEnd.kind = .eof) :
    (resume theEnd site.after).errors = [] ↔
      unclosed site.before = 0 ∧ Stops [.keyword .else] site.after := by
  constructor
  · intro herrors
    obtain ⟨later, _, hafter, _⟩ := body_of_program hend maxNesting _ _
      (resume theEnd site.after).statements (Nat.le_refl _) (congrArg (Findings.mk _) herrors)
    have htokens : unclosed site.tokens = 0 := by
      rw [Body.tokens_of_mem_prints body site hsite, body.unclosed_tokens]
    have hstops := body_stops_else later (stops_nil : Stops _ [])
    rw [List.append_nil] at hstops
    refine ⟨?_, by rwa [hafter]⟩
    simpa [PrintSite.tokens, hafter, later.unclosed_tokens, site.expr.inert.unclosed_eq,
      braceWeight] using htokens
  · rintro ⟨hclosed, hstops⟩
    obtain ⟨later, hlevels, hafter⟩ := (body.around_prints site hsite).2 hclosed hstops
    rw [resume, hafter, program_of_le later maxNesting theEnd _ (Nat.le_refl _) (by omega)]

/-! ### Tokens with a word `print` among them -/

/-- Tokens are split at the first one of a sort in one way. -/
theorem split_at_first {p : Token → Prop} {front other back rest : List Token} {found : Token}
    {next : Token} (h : front ++ found :: back = other ++ next :: rest)
    (hfront : ∀ token ∈ front, ¬ p token) (hfound : p found)
    (hother : ∀ token ∈ other, ¬ p token) (hnext : p next) :
    found = next ∧ back = rest := by
  induction front generalizing other with
  | nil =>
    cases other with
    | nil => exact List.cons.inj h
    | cons token other =>
      obtain ⟨rfl, _⟩ := List.cons.inj h
      exact absurd hfound (hother _ List.mem_cons_self)
  | cons token front ih =>
    obtain ⟨htoken, hfront⟩ := List.forall_mem_cons.1 hfront
    cases other with
    | nil =>
      obtain ⟨rfl, _⟩ := List.cons.inj h
      exact absurd hnext htoken
    | cons first other => exact ih (List.cons.inj h).2 hfront (List.forall_mem_cons.1 hother).2

/-- A word `print` in a program and the next semicolon are those of a print statement. -/
theorem exists_site {body : Body} {before expr after : List Token} {word semicolon : Token}
    (htokens : body.tokens = before ++ word :: (expr ++ semicolon :: after))
    (hword : word.kind = .keyword .print) (hexpr : ∀ token ∈ expr, token.kind ≠ .symbol .semicolon)
    (hsemicolon : semicolon.kind = .symbol .semicolon) :
    ∃ site ∈ body.prints, site.before = before ∧ site.word.val = word ∧
      site.semicolon.val = semicolon ∧ site.after = after := by
  obtain ⟨site, hsite, rfl, rfl, hrest⟩ := Body.lists body before word _ hword htokens
  have hphrase : ∀ token ∈ site.expr.tokens, token.kind ≠ .symbol .semicolon := fun token htoken =>
    ne_of_mem_of_not_mem (site.expr.kind_mem token htoken) (by decide)
  obtain ⟨rfl, rfl⟩ := split_at_first (p := (·.kind = .symbol .semicolon)) hrest hexpr hsemicolon
    hphrase site.semicolon.property
  exact ⟨site, hsite, rfl, rfl, rfl, rfl⟩

/-- Tokens other than end tokens count, and behind them those that count there. -/
theorem beforeEnd_append_of_open {front : List Token} (h : ∀ token ∈ front, token.kind ≠ .eof)
    (rest : List Token) : beforeEnd (front ++ rest) = front ++ beforeEnd rest :=
  List.takeWhile_append_of_pos fun token htoken => by simp [isEnd, h token htoken]

theorem stops_beforeEnd {kinds : List TokenKind} (h : .eof ∉ kinds) (tokens : List Token) :
    Stops kinds (beforeEnd tokens) ↔ Stops kinds tokens := by
  cases tokens with
  | nil => rfl
  | cons token rest =>
    cases hend : isEnd token with
    | true =>
      have heof : token.kind = .eof := by simpa [isEnd] using hend
      rw [beforeEnd_cons_of_isEnd rest hend, stops_cons, heof]
      exact iff_of_true stops_nil h
    | false => rw [beforeEnd_cons rest hend, stops_cons, stops_cons]

/-- **A print statement without its expression.**  In a sequence of tokens that is accepted, delete
all tokens between a word `print` and the semicolon behind it.  Then the first error is that an
expression is expected at this semicolon, and the other errors are those of the tokens behind the
semicolon, as a program of their own.  So it is the only error exactly if the statement stands in no
block, which is to say that all braces before it are closed, and no `else` follows it. -/
theorem parse_without_expression (before expr after : List Token) (word semicolon : Token)
    (stmts : List Stmt) (hword : word.kind = .keyword .print)
    (hexpr : ∀ token ∈ expr, token.kind ≠ .symbol .semicolon)
    (hsemicolon : semicolon.kind = .symbol .semicolon)
    (hopen : ∀ token ∈ before ++ expr, token.kind ≠ .eof)
    (h : parse (before ++ word :: (expr ++ semicolon :: after)) = .ok stmts) :
    parse (before ++ word :: semicolon :: after) =
        .error (.atToken semicolon .expectedExpression :: (findings after).errors) ∧
      (parse (before ++ word :: semicolon :: after) =
          .error [.atToken semicolon .expectedExpression] ↔
        unclosed before = 0 ∧ Stops [.keyword .else] after) := by
  obtain ⟨body, hle, htokens, _⟩ := body_of_findings (findings_of_parse h)
  obtain ⟨hbefore, hbetween⟩ := List.forall_mem_append.1 hopen
  have hwordOpen : isEnd word = false := by simp [isEnd, hword]
  have hsemicolonOpen : isEnd semicolon = false := by simp [isEnd, hsemicolon]
  rw [beforeEnd_append_of_open hbefore, beforeEnd_cons _ hwordOpen,
    beforeEnd_append_of_open hbetween, beforeEnd_cons _ hsemicolonOpen] at htokens
  obtain ⟨site, hsite, rfl, rfl, rfl, hafter⟩ := exists_site htokens.symm hword hexpr hsemicolon
  -- what is read when the expression is deleted
  let left := site.before ++ site.word.val :: site.semicolon.val :: after
  have hleft : beforeEnd left = site.without [] := by
    rw [beforeEnd_append_of_open hbefore, beforeEnd_cons _ hwordOpen,
      beforeEnd_cons _ hsemicolonOpen, PrintSite.without, List.append_nil, hafter]
  have hlater : findings after = resume (endToken left) site.after := by
    have hdrop : findings (left.drop (site.before.length + 2)) = _ :=
      findings_drop (by simp [hleft, PrintSite.without])
    simpa [left, hleft, PrintSite.without] using hdrop
  have hend := endToken_kind left
  have herrors : (findings left).errors =
      .atToken site.semicolon.val .expectedExpression :: (findings after).errors := by
    have := errors_without body site hsite (endToken left) [] hend hle
    rw [List.append_nil, ← hleft, ← hlater] at this
    exact this
  have hparse : parse left =
      .error (.atToken site.semicolon.val .expectedExpression :: (findings after).errors) := by
    rw [parse, herrors]
    rfl
  refine ⟨hparse, ?_⟩
  rw [hparse, Except.error.injEq, List.cons.injEq, hlater, alone_iff hsite hle hend, hafter,
    stops_beforeEnd (by decide)]
  exact and_iff_right rfl

/-- The word `print` and a semicolon, on the first line. -/
def printWord : Token := ⟨.keyword .print, "print", none, 1⟩

@[inherit_doc printWord]
def semicolonSign : Token := ⟨.symbol .semicolon, ";", none, 1⟩

/-- The tokens of `print nil;`. -/
def printNilTokens : List Token :=
  [printWord, ⟨.keyword .nil, "nil", none, 1⟩, semicolonSign]

/-- Of `print nil; print nil;`, the first expression is deleted. -/
theorem parse_without_expression_first :
    parse (printNilTokens ++ printNilTokens) =
        .ok [.print (.literal .nil), .print (.literal .nil)] ∧
      parse (printWord :: semicolonSign :: printNilTokens) =
        .error [.atToken semicolonSign .expectedExpression] :=
  have h : parse (printNilTokens ++ printNilTokens) =
    .ok [.print (.literal .nil), .print (.literal .nil)] := rfl
  ⟨h, (parse_without_expression [] [⟨.keyword .nil, "nil", none, 1⟩] printNilTokens printWord
    semicolonSign _ rfl (by decide) rfl (by decide) h).2.2 ⟨rfl, stops_cons.2 (by decide)⟩⟩

/-- Of a block `{print nil;}`, the expression is deleted: the brace that closes it is blamed too. -/
theorem two_errors_in_block :
    let opening : Token := ⟨.symbol .leftBrace, "\x7b", none, 1⟩
    let closing : Token := ⟨.symbol .rightBrace, "\x7d", none, 1⟩
    parse (opening :: (printNilTokens ++ [closing])) = .ok [.block [.print (.literal .nil)]] ∧
      parse [opening, printWord, semicolonSign, closing] =
        .error [.atToken semicolonSign .expectedExpression,
          .atToken closing .expectedExpression] :=
  ⟨rfl, rfl⟩

end Lox.Recovery
