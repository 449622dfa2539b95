import Lox.Proofs.Diagnosis.Sentences
import Lox.Proofs.Parsing.Reply

/-!
# Exact replies

A reply is exact when the parser took the longest part of its input that can still belong to a
text of its language, and no more.  If it succeeded, what it took is such a text, and the only one
that agrees with the input through the next token.  If it failed, what it took can be completed,
and no text agrees with the input through the token that is blamed.  There is one exception: the
complaint about the nesting may come where the input could go on.

What can follow a text matters: an operator that follows an operand belongs to the phrase, and an
`else` that follows a statement may belong to that.  So texts come with what follows them.  What a
parser accepts is a plain language all the same, since there the parts need not be the longest.

* `Placed`: texts with what follows them, and their composition;
* `Agrees`: to begin with what was taken and the token behind it;
* `Exact`: the property of replies;
* `Exact.mono`, `Exact.cons`, `Exact.bind`, `Exact.finish`, `exact_take?`, `exact_require` and
  `exact_fail`: what the parts have that the whole parser is made of.
-/

namespace Lox.Diagnosis

open Lox.Derivation Lox.Grammar Lox.Parser

variable {α β : Type}

/-- The sequences of one token that is of one of the given kinds. -/
def words (kinds : List TokenKind) : Language Token :=
  fun tokens => ∃ token : OneOf kinds, tokens = [token.val]

/-- Whether a language has a text. -/
def Completes (accepted : Language Token) : Prop := ∃ text, text ∈ accepted

theorem completes_words {kind : TokenKind} {kinds : List TokenKind} :
    Completes (words (kind :: kinds)) :=
  ⟨_, ⟨(someWord kind).val, List.mem_cons_self⟩, rfl⟩

theorem completes_language {category : Category} : Completes (language category) :=
  exists_sentence category

theorem completes_one : Completes 1 := ⟨[], Language.nil_mem_one⟩

theorem Completes.mul {first second : Language Token} (hfirst : Completes first)
    (hsecond : Completes second) : Completes (first * second) := by
  obtain ⟨left, hleft⟩ := hfirst
  obtain ⟨right, hright⟩ := hsecond
  exact ⟨left ++ right, Language.append_mem_mul hleft hright⟩

theorem Completes.add {first second : Language Token} (h : Completes first) :
    Completes (first + second) := by
  obtain ⟨text, htext⟩ := h
  exact ⟨text, .inl htext⟩

/-! ### Texts with what follows them -/

/-- Texts, each together with what follows it. -/
abbrev Placed := List Token → List Token → Prop

namespace Placed

/-- No text at all. -/
def never : Placed := fun _ _ => False

/-- The empty text, whatever follows. -/
def empty : Placed := fun text _ => text = []

/-- One token of one of the given kinds, whatever follows. -/
def word (kinds : List TokenKind) : Placed := fun text _ => text ∈ words kinds

/-- A text followed by another.  The first is followed by the second and by what follows that. -/
def seq (first second : Placed) : Placed := fun text after =>
  ∃ left right, text = left ++ right ∧ first left (right ++ after) ∧ second right after

/-- A text behind a token of one of the given kinds, or else a text without such a token. -/
def optional (kinds : List TokenKind) (without behind : Placed) : Placed := fun text after =>
  (without text after ∧ Stops kinds (text ++ after)) ∨
    ∃ (token : OneOf kinds) (more : List Token), text = token.val :: more ∧ behind more after

theorem word_word {kind : TokenKind} (token : Word kind) (after : List Token) :
    word [kind] [token.val] after :=
  ⟨⟨token.val, by simp [token.property]⟩, rfl⟩

theorem seq_word {kind : TokenKind} {second : Placed} {text after : List Token}
    (token : Word kind) (h : second text after) :
    (word [kind]).seq second (token.val :: text) after :=
  ⟨[token.val], text, rfl, word_word token _, h⟩

theorem optional_word {kind : TokenKind} {without behind : Placed} {text after : List Token}
    (token : Word kind) (h : behind text after) :
    optional [kind] without behind (token.val :: text) after :=
  .inr ⟨⟨token.val, by simp [token.property]⟩, text, rfl, h⟩

end Placed

/-- A text begins with what was taken, and has the same token behind it as the input has. -/
def Agrees (taken rest text : List Token) : Prop :=
  ∃ left, text = taken ++ left ∧ left.head? = rest.head?

theorem Agrees.head?_eq {taken rest text : List Token} (h : Agrees taken rest text) :
    text.head? = (taken ++ rest).head? := by
  obtain ⟨left, rfl, hleft⟩ := h
  rw [List.head?_append, List.head?_append, hleft]

theorem agrees_cons {token : Token} {taken rest text : List Token} :
    Agrees (token :: taken) rest (token :: text) ↔ Agrees taken rest text := by
  simp [Agrees]

/-- What agrees with all that two parsers took agrees with what the first of them took. -/
theorem Agrees.of_append {taken later rest text : List Token}
    (h : Agrees (taken ++ later) rest text) : Agrees taken (later ++ rest) text := by
  obtain ⟨left, rfl, hleft⟩ := h
  refine ⟨later ++ left, List.append_assoc _ _ _, ?_⟩
  rw [List.head?_append, List.head?_append, hleft]

theorem Agrees.append_left {taken later rest text : List Token}
    (h : Agrees (taken ++ later) rest (taken ++ text)) : Agrees later rest text := by
  obtain ⟨left, heq, hleft⟩ := h
  rw [List.append_assoc] at heq
  exact ⟨left, List.append_cancel_left heq, hleft⟩

/-! ### Exact replies -/

/-- A reply takes the longest part of the tokens that can belong to a text, or blames the first
token that does not fit. -/
def Exact (accepted : Language Token) (placed : Placed) (theEnd : Token) (tokens : List Token)
    (reply : Reply α) : Prop :=
  ∃ taken, tokens = taken ++ reply.rest ∧
    (∀ e ∈ reply.reports, e.cause = .invalidAssignmentTarget) ∧
    match reply.result with
    | .ok _ => taken ∈ accepted ∧
      ∀ text after, placed text after → Agrees taken reply.rest (text ++ after) → taken = text
    | .error e => e = .atToken (reply.rest.headD theEnd) e.cause ∧
      e.cause ≠ .invalidAssignmentTarget ∧ (∃ missing, taken ++ missing ∈ accepted) ∧
      ∀ text after, placed text after → Agrees taken reply.rest (text ++ after) →
        e.cause = .tooMuchNesting

variable {accepted accepted₁ accepted₂ : Language Token} {placed placed₁ placed₂ : Placed}
  {theEnd : Token} {tokens rest : List Token}

/-- More may be accepted, and of the texts only those count that begin like the input. -/
theorem Exact.mono {reply : Reply α} (h : Exact accepted₁ placed₁ theEnd tokens reply)
    (haccepted : ∀ text ∈ accepted₁, text ∈ accepted)
    (hplaced : ∀ text after, placed text after → (text ++ after).head? = tokens.head? →
      placed₁ text after) :
    Exact accepted placed theEnd tokens reply := by
  obtain ⟨taken, rfl, hreports, hresult⟩ := h
  refine ⟨taken, rfl, hreports, ?_⟩
  rcases reply with ⟨_ | _, rest, reports⟩
  · obtain ⟨hblamed, hcause, ⟨missing, hmissing⟩, hnone⟩ := hresult
    exact ⟨hblamed, hcause, ⟨missing, haccepted _ hmissing⟩, fun text after htext hagrees =>
      hnone text after (hplaced _ _ htext hagrees.head?_eq) hagrees⟩
  · exact ⟨haccepted _ hresult.1, fun text after htext hagrees =>
      hresult.2 text after (hplaced _ _ htext hagrees.head?_eq) hagrees⟩

/-- A token that every text begins with can be taken first. -/
theorem Exact.cons {reply : Reply α} {token : Token}
    (h : Exact accepted₁ placed₁ theEnd rest reply)
    (haccepted : ∀ text ∈ accepted₁, token :: text ∈ accepted)
    (hplaced : ∀ text after, placed text after → (text ++ after).head? = some token →
      ∃ more, text = token :: more ∧ placed₁ more after) :
    Exact accepted placed theEnd (token :: rest) reply := by
  obtain ⟨taken, rfl, hreports, hresult⟩ := h
  refine ⟨token :: taken, rfl, hreports, ?_⟩
  rcases reply with ⟨_ | _, rest, reports⟩
  · obtain ⟨hblamed, hcause, ⟨missing, hmissing⟩, hnone⟩ := hresult
    refine ⟨hblamed, hcause, ⟨missing, haccepted _ hmissing⟩, fun text after htext hagrees => ?_⟩
    obtain ⟨more, rfl, hmore⟩ := hplaced text after htext hagrees.head?_eq
    exact hnone more after hmore (agrees_cons.1 hagrees)
  · refine ⟨haccepted _ hresult.1, fun text after htext hagrees => ?_⟩
    obtain ⟨more, rfl, hmore⟩ := hplaced text after htext hagrees.head?_eq
    rw [hresult.2 more after hmore (agrees_cons.1 hagrees)]

/-- **Composition.**  If the parts are exact, so is the whole. -/
theorem Exact.bind {p : Parser α} {f : α → Parser β}
    (hfirst : Exact accepted₁ placed₁ theEnd tokens (p theEnd tokens))
    (hsecond : ∀ a taken rest, taken ∈ accepted₁ → tokens = taken ++ rest →
      Exact accepted₂ placed₂ theEnd rest (f a theEnd rest))
    (hcompletes : Completes accepted₂) :
    Exact (accepted₁ * accepted₂) (placed₁.seq placed₂) theEnd tokens
      ((p >>= f) theEnd tokens) := by
  obtain ⟨taken, htokens, hreports, hresult⟩ := hfirst
  show Exact _ _ _ _ (andThen p f theEnd tokens)
  rcases hp : p theEnd tokens with ⟨_ | a, between, reports⟩
  · -- the first part fails, and with it the whole
    simp only [hp, andThen] at htokens hreports hresult ⊢
    obtain ⟨hblamed, hcause, ⟨missing, hmissing⟩, hnone⟩ := hresult
    obtain ⟨later, hlater⟩ := hcompletes
    refine ⟨taken, htokens, hreports, hblamed, hcause, ⟨missing ++ later, ?_⟩, ?_⟩
    · rw [← List.append_assoc]
      exact Language.append_mem_mul hmissing hlater
    · rintro _ after ⟨left, right, rfl, hleft, _⟩ hagrees
      rw [List.append_assoc] at hagrees
      exact hnone left (right ++ after) hleft hagrees
  · simp only [hp] at htokens hreports hresult
    obtain ⟨haccepted, honly⟩ := hresult
    obtain ⟨later, hrest, hmore, hresult⟩ := hsecond a taken between haccepted htokens
    simp only [andThen, hp]
    rcases hf : f a theEnd between with ⟨result, rest, more⟩
    simp only [hf] at hrest hmore hresult
    -- what the first part took is the left part of every text that agrees
    have hsplit {text after : List Token} (htext : placed₁.seq placed₂ text after)
        (hagrees : Agrees (taken ++ later) rest (text ++ after)) :
        ∃ right, text = taken ++ right ∧ placed₂ right after ∧
          Agrees later rest (right ++ after) := by
      obtain ⟨left, right, rfl, hleft, hright⟩ := htext
      rw [List.append_assoc] at hagrees
      have hleft_eq : taken = left :=
        honly left (right ++ after) hleft (hrest ▸ hagrees.of_append)
      rw [hleft_eq] at hagrees ⊢
      exact ⟨right, rfl, hright, hagrees.append_left⟩
    refine ⟨taken ++ later, by rw [htokens, hrest, List.append_assoc], ?_, ?_⟩
    · intro e he
      obtain he | he := List.mem_append.1 he
      · exact hreports e he
      · exact hmore e he
    · cases result with
      | error e =>
        obtain ⟨hblamed, hcause, ⟨missing, hmissing⟩, hnone⟩ := hresult
        refine ⟨hblamed, hcause, ⟨missing, ?_⟩, fun text after htext hagrees => ?_⟩
        · rw [List.append_assoc]
          exact Language.append_mem_mul haccepted hmissing
        · obtain ⟨right, _, hright, hright_agrees⟩ := hsplit htext hagrees
          exact hnone right after hright hright_agrees
      | ok b =>
        refine ⟨Language.append_mem_mul haccepted hresult.1, fun text after htext hagrees => ?_⟩
        obtain ⟨right, rfl, hright, hright_agrees⟩ := hsplit htext hagrees
        rw [hresult.2 right after hright hright_agrees]

/-- A reply that takes nothing and reports nothing but targets. -/
theorem exact_nothing {reply : Reply α} {a : α} (hresult : reply.result = .ok a)
    (hrest : reply.rest = tokens)
    (hreports : ∀ e ∈ reply.reports, e.cause = .invalidAssignmentTarget) :
    Exact 1 Placed.empty theEnd tokens reply := by
  refine ⟨[], by rw [hrest, List.nil_append], hreports, ?_⟩
  rw [hresult]
  exact ⟨Language.nil_mem_one, fun text _ htext _ => Eq.symm htext⟩

theorem exact_pure {a : α} :
    Exact 1 Placed.empty theEnd tokens ((pure a : Parser α) theEnd tokens) :=
  exact_nothing rfl rfl (by simp [pure, succeed])

/-- A parser whose last part takes nothing is as exact as the parts before it. -/
theorem Exact.finish {p : Parser α} {f : α → Parser β}
    (h : Exact accepted placed theEnd tokens (p theEnd tokens))
    (hlast : ∀ a rest, Exact 1 Placed.empty theEnd rest (f a theEnd rest)) :
    Exact accepted placed theEnd tokens ((p >>= f) theEnd tokens) := by
  refine (h.bind (fun a _ rest _ _ => hlast a rest) completes_one).mono ?_ ?_
  · rw [mul_one]
    exact fun _ htext => htext
  · intro text after htext _
    exact ⟨text, [], (List.append_nil _).symm, htext, rfl⟩

/-- What fails is exact if nothing of its language begins like the input, or if it complains about
the nesting. -/
theorem exact_fail {cause : SyntaxError.Cause} (hcompletes : Completes accepted)
    (hcause : cause ≠ .invalidAssignmentTarget)
    (hnone : ∀ text after, placed text after → (text ++ after).head? = tokens.head? →
      cause = .tooMuchNesting) :
    Exact accepted placed theEnd tokens ((fail cause : Parser α) theEnd tokens) := by
  refine ⟨[], rfl, by simp [fail], rfl, hcause, ?_, fun text after htext hagrees => ?_⟩
  · exact hcompletes
  · exact hnone text after htext hagrees.head?_eq

theorem exact_tooMuchNesting (hcompletes : Completes accepted) :
    Exact accepted placed theEnd tokens ((fail .tooMuchNesting : Parser α) theEnd tokens) :=
  exact_fail hcompletes nofun fun _ _ _ _ => rfl

theorem exact_require (expectation : Expectation) :
    Exact (words [expectation.kind]) (Placed.word [expectation.kind]) theEnd tokens
      (require expectation theEnd tokens) := by
  have hhead {text after : List Token} (htext : Placed.word [expectation.kind] text after) :
      ∃ token, text = [token] ∧ token.kind = expectation.kind := by
    obtain ⟨token, rfl⟩ := htext
    exact ⟨_, rfl, List.mem_singleton.1 token.property⟩
  cases tokens with
  | nil =>
    refine exact_fail completes_words nofun fun text after htext hagrees => ?_
    obtain ⟨token, rfl, _⟩ := hhead htext
    cases hagrees
  | cons token rest =>
    by_cases hkind : token.kind = expectation.kind
    · simp only [require, if_pos hkind]
      refine ⟨[token], rfl, by simp, ⟨⟨token, by simp [hkind]⟩, rfl⟩, fun text after htext h => ?_⟩
      obtain ⟨other, rfl, _⟩ := hhead htext
      cases h.head?_eq
      rfl
    · simp only [require, if_neg hkind]
      refine exact_fail completes_words nofun fun text after htext hagrees => ?_
      obtain ⟨other, rfl, hother⟩ := hhead htext
      cases hagrees
      exact absurd hother hkind

/-- What has to stand at the end of a rule. -/
theorem exact_closing (expectation : Expectation) (a : α) :
    Exact (words [expectation.kind]) (Placed.word [expectation.kind]) theEnd tokens
      ((do
        let _ ← require expectation
        return a : Parser α) theEnd tokens) :=
  (exact_require expectation).finish fun _ _ => exact_pure

/-- Whether a token of one of the given kinds stands first decides which part is read. -/
theorem exact_take? {kinds : List TokenKind} {f : Option Token → Parser α}
    (hnone : Exact accepted₁ placed₁ theEnd tokens (f none theEnd tokens))
    (hsome : ∀ token rest, tokens = token :: rest → token.kind ∈ kinds →
      Exact accepted₂ placed₂ theEnd rest (f (some token) theEnd rest)) :
    Exact (accepted₁ + words kinds * accepted₂) (Placed.optional kinds placed₁ placed₂) theEnd
      tokens ((take? kinds >>= f) theEnd tokens) := by
  by_cases hstops : Stops kinds tokens
  · rw [bind_of_done (take?_of_stops hstops)]
    refine hnone.mono (fun text htext => .inl htext) fun text after htext hhead => ?_
    obtain ⟨htext, _⟩ | ⟨token, more, rfl, _⟩ := htext
    · exact htext
    · exact absurd token.property (hstops token.val (by rw [← hhead]; rfl))
  · cases tokens with
    | nil => exact absurd stops_nil hstops
    | cons token rest =>
      have hkind : token.kind ∈ kinds := not_not.1 (mt stops_cons.2 hstops)
      rw [bind_of_done (take?_of_mem hkind)]
      refine (hsome token rest rfl hkind).cons ?_ fun text after htext hhead => ?_
      · intro text htext
        exact .inr (Language.append_mem_mul (a := [token]) ⟨⟨token, hkind⟩, rfl⟩ htext)
      · obtain ⟨_, hstops⟩ | ⟨first, more, rfl, hmore⟩ := htext
        · exact absurd hkind (hstops token (by rw [hhead]; rfl))
        · cases hhead
          exact ⟨more, rfl, hmore⟩

end Lox.Diagnosis
