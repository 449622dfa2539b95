import Mathlib.Tactic.Choose
import Lox.Proofs.Outline.Trees

/-!
# Parsers look at kinds

A parser is run on all texts with the same kinds of tokens, from the same position on.  On all of
them it stops at the same position with the same outline of an answer, or for the same cause, and
reports at the same positions.  It never looks at anything but kinds, and it keeps and blames tokens
by their position.

Parsers are composed of others that have been given what was read before, so the property is one of
families of parsers, one for each text.

* `Sketch`: the outline of a reply;
* `Outlined`: a family of parsers with an outline, with a rule for each way to build parsers;
* `outlinedNested`: the parsers of the grammar are so.
-/

namespace Lox.Outline

open Lox.Grammar Lox.Parser

/-! ### Outlines of replies -/

/-- The outline of a reply: the cause of a failure or the outline of an answer, where the parser
stopped, and the positions of the equals signs that it reported for their targets. -/
structure Sketch (A : Type) where
  result : Except SyntaxError.Cause A
  stop : Nat
  reports : List Nat

namespace Sketch

variable {kinds : List TokenKind} {A α : Type}

/-- The outline of a report. -/
def badTarget (equals : Nat) : Mark := ⟨equals, .invalidAssignmentTarget⟩

/-- The reply on a text.  A parser that fails blames the token where it stopped. -/
def reply (fill : (Nat → Token) → A → α) (text : Text kinds) (sketch : Sketch A) : Reply α where
  result := match sketch.result with
    | .ok answer => .ok (fill text.token answer)
    | .error cause => .error (Mark.error text.token ⟨sketch.stop, cause⟩)
  rest := text.tokens.drop sketch.stop
  reports := sketch.reports.map fun equals => (badTarget equals).error text.token

/-- What holds of the outline of a reply of any parser that began at a position. -/
structure Sound (kinds : List TokenKind) (start : Nat) (sketch : Sketch A) : Prop where
  le_stop : start ≤ sketch.stop
  stop_le : sketch.stop ≤ kinds.length
  /-- No sign is reported twice. -/
  nodup : sketch.reports.Nodup
  /-- What is reported are equals signs that were read. -/
  between : ∀ equals ∈ sketch.reports,
    start ≤ equals ∧ equals < sketch.stop ∧ kinds.getD equals .eof = .symbol .equal
  /-- A target is no cause to stop. -/
  cause : ∀ cause, sketch.result = .error cause → cause.message ≠ "Invalid assignment target."

end Sketch

/-- Parsers, one for each text with given kinds of tokens, that have the same outline. -/
def Outlined {kinds : List TokenKind} {A α : Type} (fill : (Nat → Token) → A → α)
    (p : Text kinds → Parser α) : Prop :=
  ∀ start ≤ kinds.length, ∃ sketch : Sketch A, sketch.Sound kinds start ∧
    ∀ text : Text kinds, p text text.theEnd (text.tokens.drop start) = sketch.reply fill text

section

variable {kinds : List TokenKind} {A B α β : Type} {fill : (Nat → Token) → A → α}
  {fill' : (Nat → Token) → B → β}

/-! ### Sound outlines -/

/-- A parser that answers and reports nothing. -/
theorem sound_done {start stop : Nat} (hle : start ≤ stop) (hstop : stop ≤ kinds.length)
    (answer : A) : Sketch.Sound kinds start ⟨.ok answer, stop, []⟩ :=
  ⟨hle, hstop, List.nodup_nil, fun _ h => absurd h List.not_mem_nil, nofun⟩

/-- What holds from the next position on holds from this one on. -/
theorem Sketch.Sound.of_succ {start : Nat} {sketch : Sketch A}
    (h : sketch.Sound kinds (start + 1)) : sketch.Sound kinds start :=
  { h with
    le_stop := Nat.le_of_succ_le h.le_stop
    between := fun equals hequals => (h.between equals hequals).imp_left Nat.le_of_succ_le }

/-- A failure is one whatever would have been answered. -/
theorem Sketch.Sound.failed {start stop : Nat} {cause : SyntaxError.Cause} {reports : List Nat}
    (h : Sketch.Sound kinds start (⟨.error cause, stop, reports⟩ : Sketch A)) :
    Sketch.Sound kinds start (⟨.error cause, stop, reports⟩ : Sketch B) :=
  { h with cause := fun _ hcause => h.cause _ (congrArg Except.error (Except.error.inj hcause)) }

/-- Reports of what is read first are before those of what is read next. -/
theorem Sketch.Sound.followed {start between stop : Nat} {answer : A} {reports others : List Nat}
    {result : Except SyntaxError.Cause B}
    (h : Sketch.Sound kinds start ⟨.ok answer, between, reports⟩)
    (hlater : Sketch.Sound kinds between ⟨result, stop, others⟩) :
    Sketch.Sound kinds start ⟨result, stop, reports ++ others⟩ where
  le_stop := Nat.le_trans h.le_stop hlater.le_stop
  stop_le := hlater.stop_le
  nodup := List.nodup_append.2 ⟨h.nodup, hlater.nodup, fun i hi j hj =>
    Nat.ne_of_lt (Nat.lt_of_lt_of_le (h.between i hi).2.1 (hlater.between j hj).1)⟩
  between := by
    refine List.forall_mem_append.2 ⟨fun i hi => ?_, fun i hi => ?_⟩
    · obtain ⟨hle, hlt, hequal⟩ := h.between i hi
      exact ⟨hle, Nat.lt_of_lt_of_le hlt hlater.le_stop, hequal⟩
    · obtain ⟨hle, hlt, hequal⟩ := hlater.between i hi
      exact ⟨Nat.le_trans h.le_stop hle, hlt, hequal⟩
  cause := hlater.cause

/-- An equals sign may be reported behind all that was reported of what follows it. -/
theorem Sketch.Sound.reported {start stop : Nat} {value : A} {answer : B} {reports : List Nat}
    (h : Sketch.Sound kinds (start + 1) ⟨.ok value, stop, reports⟩)
    (hequal : kinds.getD start .eof = .symbol .equal) :
    Sketch.Sound kinds start ⟨.ok answer, stop, reports ++ [start]⟩ where
  le_stop := Nat.le_of_succ_le h.le_stop
  stop_le := h.stop_le
  nodup := by
    refine List.nodup_append.2 ⟨h.nodup, List.nodup_cons.2 ⟨List.not_mem_nil, List.nodup_nil⟩, ?_⟩
    intro equals hequals
    simpa using Nat.ne_of_gt (h.between equals hequals).1
  between := by
    refine List.forall_mem_append.2 ⟨h.of_succ.between, ?_⟩
    simpa using ⟨Nat.lt_of_succ_le h.le_stop, hequal⟩
  cause := nofun

/-! ### Ways to build parsers -/

theorem outlined_pure (answer : A) :
    Outlined fill fun text : Text kinds => pure (fill text.token answer) := fun start hstart =>
  ⟨⟨.ok answer, start, []⟩, sound_done (Nat.le_refl _) hstart answer, fun _ => rfl⟩

theorem outlined_fail {cause : SyntaxError.Cause}
    (h : cause.message ≠ "Invalid assignment target.") :
    Outlined fill fun _ : Text kinds => fail cause := by
  intro start hstart
  refine ⟨⟨.error cause, start, []⟩, ⟨Nat.le_refl _, hstart, List.nodup_nil,
    fun _ h => absurd h List.not_mem_nil, fun _ h' => Except.error.inj h' ▸ h⟩, fun text => ?_⟩
  show Reply.mk (.error (.atToken ((text.tokens.drop start).headD text.theEnd) cause)) _ _ = _
  rw [text.headD_drop]
  rfl

/-- The next token is the one at the position. -/
theorem outlined_next :
    Outlined (fun tokenAt position => tokenAt position) fun _ : Text kinds => next := by
  intro start hstart
  refine ⟨⟨.ok start, start, []⟩, sound_done (Nat.le_refl _) hstart start, fun text => ?_⟩
  show Done ((text.tokens.drop start).headD text.theEnd) _ = _
  rw [text.headD_drop]
  rfl

theorem outlined_skip :
    Outlined (fun _ (answer : Unit) => answer) fun _ : Text kinds => skip := by
  intro start hstart
  obtain hlt | rfl := Nat.lt_or_eq_of_le hstart
  · refine ⟨⟨.ok (), start + 1, []⟩, sound_done (Nat.le_succ _) hlt (), fun text => ?_⟩
    show Done () (text.tokens.drop start).tail = _
    rw [text.drop_eq_cons hlt]
    rfl
  · refine ⟨⟨.ok (), kinds.length, []⟩, sound_done (Nat.le_refl _) hstart (), fun text => ?_⟩
    show Done () (text.tokens.drop kinds.length).tail = Done () (text.tokens.drop kinds.length)
    rw [text.drop_eq_nil hstart]
    rfl

/-- A part that is read goes before what comes next. -/
theorem outlined_bind {p : Text kinds → Parser α} {f : Text kinds → α → Parser β}
    (hp : Outlined fill p)
    (hf : ∀ answer, Outlined fill' fun text => f text (fill text.token answer)) :
    Outlined fill' fun text => p text >>= f text := by
  intro start hstart
  obtain ⟨⟨result, between, reports⟩, hfirst, hreply⟩ := hp start hstart
  cases result with
  | error cause =>
    exact ⟨⟨.error cause, between, reports⟩, hfirst.failed, fun text =>
      bind_of_failed (hreply text)⟩
  | ok answer =>
    obtain ⟨⟨last, stop, others⟩, hlater, hreply'⟩ := hf answer between hfirst.stop_le
    refine ⟨⟨last, stop, reports ++ others⟩, hfirst.followed hlater, fun text => ?_⟩
    have hlast : f text (fill text.token answer) text.theEnd (text.tokens.drop between) =
      Sketch.reply fill' text ⟨last, stop, others⟩ := hreply' text
    refine (bind_of_ok (hreply text)).trans ?_
    simp only [hlast, Sketch.reply, List.map_append]

theorem take?_drop (text : Text kinds) {taken : List TokenKind} {start : Nat}
    (h : start < kinds.length ∧ kinds.getD start .eof ∈ taken) :
    take? taken text.theEnd (text.tokens.drop start) =
      Done (some (text.token start)) (text.tokens.drop (start + 1)) := by
  rw [text.drop_eq_cons h.1]
  exact take?_of_mem (by rw [text.kind_token]; exact h.2)

theorem take?_drop_none (text : Text kinds) {taken : List TokenKind} {start : Nat}
    (hstart : start ≤ kinds.length)
    (h : ¬ (start < kinds.length ∧ kinds.getD start .eof ∈ taken)) :
    take? taken text.theEnd (text.tokens.drop start) = Done none (text.tokens.drop start) := by
  refine take?_of_stops ?_
  obtain hlt | rfl := Nat.lt_or_eq_of_le hstart
  · rw [text.drop_eq_cons hlt, stops_cons, text.kind_token]
    exact fun hmem => h ⟨hlt, hmem⟩
  · rw [text.drop_eq_nil hstart]
    exact stops_nil

/-- Whether the next token is taken is seen from its kind. -/
theorem outlined_take? {taken : List TokenKind} {f : Text kinds → Option Token → Parser α}
    (hnone : Outlined fill fun text => f text none)
    (hsome : ∀ position, Outlined fill fun text => f text (some (text.token position))) :
    Outlined fill fun text => take? taken >>= f text := by
  intro start hstart
  by_cases htaken : start < kinds.length ∧ kinds.getD start .eof ∈ taken
  · obtain ⟨sketch, hsketch, hreply⟩ := hsome start (start + 1) htaken.1
    refine ⟨sketch, hsketch.of_succ, fun text => ?_⟩
    rw [← hreply text]
    exact bind_of_done (take?_drop text htaken)
  · obtain ⟨sketch, hsketch, hreply⟩ := hnone start hstart
    refine ⟨sketch, hsketch, fun text => ?_⟩
    rw [← hreply text]
    exact bind_of_done (take?_drop_none text hstart htaken)

/-- An equals sign is reported when what is assigned has been read.  It stands before all that was
reported there. -/
theorem outlined_report {p : Parser β} (h : Outlined fill' fun _ : Text kinds => p) (answer : A) :
    Outlined fill fun text : Text kinds => do
      match ← take? [.symbol .equal] with
      | none => return fill text.token answer
      | some equals =>
        let _ ← p
        report equals .invalidAssignmentTarget
        return fill text.token answer := by
  intro start hstart
  by_cases htaken : start < kinds.length ∧ kinds.getD start .eof ∈ [TokenKind.symbol .equal]
  · obtain ⟨⟨result, stop, reports⟩, hsketch, hreply⟩ := h (start + 1) htaken.1
    cases result with
    | error cause =>
      exact ⟨⟨.error cause, stop, reports⟩, hsketch.of_succ.failed, fun text =>
        (bind_of_done (take?_drop text htaken)).trans (bind_of_failed (hreply text))⟩
    | ok value =>
      refine ⟨⟨.ok answer, stop, reports ++ [start]⟩,
        hsketch.reported (List.mem_singleton.1 htaken.2), fun text => ?_⟩
      refine (bind_of_done (take?_drop text htaken)).trans ((bind_of_ok (hreply text)).trans ?_)
      simp only [Sketch.reply, List.map_append]
      rfl
  · refine ⟨⟨.ok answer, start, []⟩, sound_done (Nat.le_refl _) hstart answer, fun text => ?_⟩
    exact bind_of_done (take?_drop_none text hstart htaken)

theorem outlined_require (expectation : Expectation) :
    Outlined (fun tokenAt position => tokenAt position)
      fun _ : Text kinds => require expectation := by
  intro start hstart
  by_cases hkind : start < kinds.length ∧ kinds.getD start .eof = expectation.kind
  · obtain ⟨hlt, hkind⟩ := hkind
    refine ⟨⟨.ok start, start + 1, []⟩, sound_done (Nat.le_succ _) hlt start, fun text => ?_⟩
    rw [text.drop_eq_cons hlt]
    exact require_word expectation ⟨text.token start, by rw [text.kind_token, hkind]⟩
  · have hfail : Outlined (fun tokenAt (position : Nat) => tokenAt position)
        fun _ : Text kinds => fail (.expected expectation) :=
      outlined_fail (by cases expectation <;> decide)
    obtain ⟨sketch, hsketch, hreply⟩ := hfail start hstart
    refine ⟨sketch, hsketch, fun text => ?_⟩
    rw [← hreply text]
    obtain hlt | rfl := Nat.lt_or_eq_of_le hstart
    · rw [text.drop_eq_cons hlt]
      exact if_neg fun h => hkind ⟨hlt, by rwa [← text.kind_token]⟩
    · rw [text.drop_eq_nil hstart]
      rfl

/-- Of the tokens in hand only the number matters, which is the same for all texts. -/
theorem outlined_inHand {f : Text kinds → List Token → Parser α}
    (h : ∀ (number : Nat) (rounds : Text kinds → List Token),
      (∀ text, (rounds text).length = number) → Outlined fill fun text => f text (rounds text)) :
    Outlined fill fun text => inHand >>= f text := by
  intro start hstart
  obtain ⟨sketch, hsketch, hreply⟩ := h (kinds.length - start)
    (fun text => text.tokens.drop start)
    (fun text => by rw [List.length_drop, text.length_tokens]) start hstart
  exact ⟨sketch, hsketch, fun text => hreply text ▸ bind_of_done rfl⟩

end

/-! ### Expressions -/

/-- The parsers one level further in have outlines. -/
structure OutlinedNested (kinds : List TokenKind) (deeper : Nested) : Prop where
  operand : Outlined ExprOutline.fill fun _ : Text kinds => deeper.operand
  expression : Outlined ExprOutline.fill fun _ : Text kinds => deeper.expression
  statement : Outlined StmtOutline.fill fun _ : Text kinds => deeper.statement

/-- The outline of the expression that a token of a kind is on its own. -/
def atomOutline? (kind : TokenKind) (position : Nat) : Option ExprOutline :=
  match kind with
  | .keyword .false => some (.constant (.bool false))
  | .keyword .true => some (.constant (.bool true))
  | .keyword .nil => some (.constant .nil)
  | .number => some (.literal position)
  | .string => some (.literal position)
  | .identifier => some (.variable position)
  | _ => none

section

variable {kinds : List TokenKind} {deeper : Nested}

theorem atom?_token (text : Text kinds) (position : Nat) :
    atom? (text.token position) =
      (atomOutline? (kinds.getD position .eof) position).map (ExprOutline.fill text.token) := by
  rw [← text.kind_token, atom?]
  generalize (text.token position).kind = kind
  cases kind with
  | keyword keyword => cases keyword <;> rfl
  | _ => rfl

theorem outlined_primary (h : OutlinedNested kinds deeper) :
    Outlined ExprOutline.fill fun _ : Text kinds => primary deeper := by
  refine outlined_bind outlined_next fun position => ?_
  simp only [atom?_token]
  cases atomOutline? (kinds.getD position .eof) position with
  | some expr => exact outlined_bind outlined_skip fun _ => outlined_pure expr
  | none =>
    refine outlined_take? (outlined_fail (by decide)) fun _ => ?_
    refine outlined_bind h.expression fun inner => ?_
    exact outlined_bind (outlined_require _) fun _ => outlined_pure (ExprOutline.grouping inner)

theorem outlined_unary (h : OutlinedNested kinds deeper) :
    Outlined ExprOutline.fill fun _ : Text kinds => unary deeper :=
  outlined_take? (outlined_primary h) fun operator =>
    outlined_bind h.operand fun operand => outlined_pure (ExprOutline.unary operator operand)

/-- The outlines of what a tier builds. -/
def Builds (tier : Tier) (build : Nat → ExprOutline → ExprOutline → ExprOutline) : Prop :=
  ∀ (tokenAt : Nat → Token) (operator : Nat) (left right : ExprOutline),
    tier.build (tokenAt operator) (left.fill tokenAt) (right.fill tokenAt) =
      (build operator left right).fill tokenAt

theorem exists_builds : ∀ tier ∈ tiers, ∃ build, Builds tier build := by
  simp only [tiers, List.forall_mem_cons]
  exact ⟨⟨.logical, fun _ _ _ _ => rfl⟩, ⟨.logical, fun _ _ _ _ => rfl⟩,
    ⟨.binary, fun _ _ _ _ => rfl⟩, ⟨.binary, fun _ _ _ _ => rfl⟩, ⟨.binary, fun _ _ _ _ => rfl⟩,
    ⟨.binary, fun _ _ _ _ => rfl⟩, fun _ h => absurd h List.not_mem_nil⟩

theorem outlined_chain {tier : Tier} {build : Nat → ExprOutline → ExprOutline → ExprOutline}
    (hbuild : Builds tier build) {operand : Parser Expr}
    (h : Outlined ExprOutline.fill fun _ : Text kinds => operand) (number : Nat)
    (rounds : Text kinds → List Token) (hrounds : ∀ text, (rounds text).length = number)
    (left : ExprOutline) :
    Outlined ExprOutline.fill fun text : Text kinds =>
      chain tier operand (rounds text) (left.fill text.token) := by
  induction number generalizing rounds left with
  | zero =>
    simp only [List.length_eq_zero_iff] at hrounds
    simp only [hrounds, chain]
    exact outlined_pure left
  | succ number ih =>
    choose first others hcons using fun text =>
      List.exists_cons_of_length_eq_add_one (hrounds text)
    simp only [hcons, List.length_cons, Nat.add_right_cancel_iff] at hrounds
    simp only [hcons, chain]
    refine outlined_take? (outlined_pure left) fun operator => ?_
    refine outlined_bind h fun right => ?_
    simp only [hbuild _ operator left right]
    exact ih others hrounds (build operator left right)

theorem outlined_tiered {innermost : Parser Expr}
    (h : Outlined ExprOutline.fill fun _ : Text kinds => innermost) {some : List Tier}
    (hsome : ∀ tier ∈ some, ∃ build, Builds tier build) :
    Outlined ExprOutline.fill fun _ : Text kinds => tiered innermost some := by
  induction some with
  | nil => exact h
  | cons tier tighter ih =>
    obtain ⟨⟨build, hbuild⟩, htighter⟩ := List.forall_mem_cons.1 hsome
    refine outlined_bind (ih htighter) fun left => ?_
    exact outlined_inHand fun number rounds hrounds =>
      outlined_chain hbuild (ih htighter) number rounds hrounds left

/-- What stands left of an equals sign is a name, or it is reported. -/
theorem outlined_expression (h : OutlinedNested kinds deeper) :
    Outlined ExprOutline.fill fun _ : Text kinds => expression deeper := by
  refine outlined_bind (outlined_tiered (outlined_unary h) exists_builds) fun target => ?_
  cases target with
  | «variable» name =>
    refine outlined_take? (outlined_pure (ExprOutline.variable name)) fun _ => ?_
    exact outlined_bind h.expression fun value => outlined_pure (ExprOutline.assign name value)
  | _ => exact outlined_report h.expression _

/-! ### Statements -/

theorem outlined_varDeclaration (h : OutlinedNested kinds deeper) :
    Outlined StmtOutline.fill fun _ : Text kinds => varDeclaration deeper := by
  refine outlined_bind (outlined_require _) fun name => ?_
  refine outlined_take? ?_ fun _ => ?_
  · exact outlined_bind (outlined_require _) fun _ => outlined_pure (StmtOutline.var name none)
  · refine outlined_bind (outlined_expression h) fun value => ?_
    exact outlined_bind (outlined_require _) fun _ =>
      outlined_pure (StmtOutline.var name (some value))

theorem outlined_declaration (h : OutlinedNested kinds deeper) :
    Outlined StmtOutline.fill fun _ : Text kinds => declaration deeper :=
  outlined_take? h.statement fun _ => outlined_varDeclaration h

theorem outlined_expressionStatement (h : OutlinedNested kinds deeper) :
    Outlined StmtOutline.fill fun _ : Text kinds => expressionStatement deeper := by
  refine outlined_bind (outlined_expression h) fun expr => ?_
  exact outlined_bind (outlined_require _) fun _ => outlined_pure (StmtOutline.expression expr)

theorem outlined_printStatement (h : OutlinedNested kinds deeper) :
    Outlined StmtOutline.fill fun _ : Text kinds => printStatement deeper := by
  refine outlined_bind (outlined_expression h) fun expr => ?_
  exact outlined_bind (outlined_require _) fun _ => outlined_pure (StmtOutline.print expr)

theorem outlined_ifStatement (h : OutlinedNested kinds deeper) :
    Outlined StmtOutline.fill fun _ : Text kinds => ifStatement deeper := by
  refine outlined_bind (outlined_require _) fun _ => ?_
  refine outlined_bind (outlined_expression h) fun condition => ?_
  refine outlined_bind (outlined_require _) fun _ => ?_
  refine outlined_bind h.statement fun thenBranch => ?_
  refine outlined_take? (outlined_pure (StmtOutline.if condition thenBranch none)) fun _ => ?_
  exact outlined_bind h.statement fun elseBranch =>
    outlined_pure (StmtOutline.if condition thenBranch (some elseBranch))

theorem outlined_whileStatement (h : OutlinedNested kinds deeper) :
    Outlined StmtOutline.fill fun _ : Text kinds => whileStatement deeper := by
  refine outlined_bind (outlined_require _) fun _ => ?_
  refine outlined_bind (outlined_expression h) fun condition => ?_
  refine outlined_bind (outlined_require _) fun _ => ?_
  exact outlined_bind h.statement fun body => outlined_pure (StmtOutline.while condition body)

theorem outlined_startClause (h : OutlinedNested kinds deeper) :
    Outlined (fun tokenAt => Option.map (StmtOutline.fill tokenAt))
      fun _ : Text kinds => startClause deeper := by
  refine outlined_bind outlined_next fun position => ?_
  simp only [Text.kind_token]
  split
  · exact outlined_bind outlined_skip fun _ => outlined_pure none
  · refine outlined_bind outlined_skip fun _ => ?_
    exact outlined_bind (outlined_varDeclaration h) fun start => outlined_pure (some start)
  · exact outlined_bind (outlined_expressionStatement h) fun start => outlined_pure (some start)

theorem outlined_clauseBefore (h : OutlinedNested kinds deeper) (closing : TokenKind) :
    Outlined (fun tokenAt => Option.map (ExprOutline.fill tokenAt))
      fun _ : Text kinds => clauseBefore closing deeper := by
  refine outlined_bind outlined_next fun position => ?_
  simp only [Text.kind_token]
  split
  · exact outlined_pure none
  · exact outlined_bind (outlined_expression h) fun expr => outlined_pure (some expr)

theorem outlined_forStatement (h : OutlinedNested kinds deeper) :
    Outlined StmtOutline.fill fun _ : Text kinds => forStatement deeper := by
  refine outlined_bind (outlined_require _) fun _ => ?_
  refine outlined_bind (outlined_startClause h) fun start => ?_
  refine outlined_bind (outlined_clauseBefore h _) fun condition => ?_
  refine outlined_bind (outlined_require _) fun _ => ?_
  refine outlined_bind (outlined_clauseBefore h _) fun step => ?_
  refine outlined_bind (outlined_require _) fun _ => ?_
  refine outlined_bind h.statement fun body => ?_
  simp only [← fill_forLoop]
  exact outlined_pure (StmtOutline.forLoop start condition step body)

theorem outlined_declarations (h : OutlinedNested kinds deeper) (number : Nat)
    (rounds : Text kinds → List Token) (hrounds : ∀ text, (rounds text).length = number) :
    Outlined fillAll fun text : Text kinds => declarations deeper (rounds text) := by
  induction number generalizing rounds with
  | zero =>
    simp only [List.length_eq_zero_iff] at hrounds
    simp only [hrounds, declarations]
    exact outlined_pure []
  | succ number ih =>
    choose first others hcons using fun text =>
      List.exists_cons_of_length_eq_add_one (hrounds text)
    simp only [hcons, List.length_cons, Nat.add_right_cancel_iff] at hrounds
    simp only [hcons, declarations]
    refine outlined_bind outlined_next fun position => ?_
    simp only [Text.kind_token]
    split
    · exact outlined_pure []
    · refine outlined_bind (outlined_declaration h) fun first => ?_
      exact outlined_bind (ih others hrounds) fun rest => outlined_pure (first :: rest)

theorem outlined_block (h : OutlinedNested kinds deeper) :
    Outlined StmtOutline.fill fun _ : Text kinds => block deeper := by
  refine outlined_inHand fun number rounds hrounds => ?_
  refine outlined_bind (outlined_declarations h number rounds hrounds) fun body => ?_
  exact outlined_bind (outlined_require _) fun _ => outlined_pure (StmtOutline.block body)

theorem outlined_statement (h : OutlinedNested kinds deeper) :
    Outlined StmtOutline.fill fun _ : Text kinds => Grammar.statement deeper := by
  refine outlined_bind outlined_next fun position => ?_
  simp only [Text.kind_token]
  split
  · exact outlined_bind outlined_skip fun _ => outlined_forStatement h
  · exact outlined_bind outlined_skip fun _ => outlined_ifStatement h
  · exact outlined_bind outlined_skip fun _ => outlined_whileStatement h
  · exact outlined_bind outlined_skip fun _ => outlined_printStatement h
  · exact outlined_bind outlined_skip fun _ => outlined_block h
  · exact outlined_expressionStatement h

end

/-- **The parsers of the grammar look at kinds.** -/
theorem outlinedNested (kinds : List TokenKind) (levels : Nat) :
    OutlinedNested kinds (nested levels) := by
  induction levels with
  | zero => exact ⟨outlined_fail (by decide), outlined_fail (by decide), outlined_fail (by decide)⟩
  | succ levels ih => exact ⟨outlined_unary ih, outlined_expression ih, outlined_statement ih⟩

end Lox.Outline
