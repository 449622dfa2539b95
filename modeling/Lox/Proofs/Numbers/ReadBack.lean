import Lox.Proofs.Numbers.Bits
import Lox.Proofs.Numbers.Notation
import Lox.Proofs.Scanning.Separated
import Lox.Proofs.Seam.Joined

/-!
# Numbers are shown as they are written

The text of a finite double is an expression of the language, whose value is the double bit for
bit: a number word, with a minus sign before it if the sign bit is set.  So a program that prints
the text prints the same text again.

* `numberPhrase`: the text of a double as a phrase, a number word with its sign;
* `scans_numberText`: the text is cut into the tokens of this phrase, whatever stands around it;
* `evaluating_numberPhrase`: the value of the phrase is the double;
* `scan_of_scans` and `statementsOf_print`: the tokens and the statements of such sources;
* `number_shown_as_written`: the main result.
-/

namespace Lox

open Lox.Derivation Grammar

/-! ### The text as a phrase -/

/-- The token of a number that is shown without a sign. -/
def numberToken (x : Float) : Token := ⟨.number, (Value.number x).display, some (.number x), 1⟩

/-- The sign before a number. -/
def minusToken : Token := ⟨.symbol .minus, "-", none, 1⟩

/-- A number without a sign as a phrase. -/
def plainPhrase (x : Float) : Phrase .unary :=
  .unsigned (.literal ⟨numberToken x, .tail _ (.tail _ (.tail _ (.head _)))⟩)

/-- The text of a double as a phrase. -/
def numberPhrase (x : Float) : Phrase .unary :=
  if Binary64.codes ≤ x.toBits.toNat then .signed ⟨minusToken, by decide⟩ (plainPhrase x.abs)
  else plainPhrase x

theorem numberText_of_clear {x : Float} (finite : x.isFinite = true)
    (hclear : x.toBits.toNat < Binary64.codes) : numberText x = magnitudeText x.toBits.toNat := by
  have hcode := Binary64.isFinite_iff.1 finite
  rw [Nat.mod_eq_of_lt hclear] at hcode
  simp only [numberText, Nat.mod_eq_of_lt hclear]
  rw [if_neg (Nat.lt_asymm hcode), if_neg (Nat.not_le.2 hclear)]

theorem isFinite_abs {x : Float} (finite : x.isFinite = true) : x.abs.isFinite = true := by
  have hcode := Binary64.isFinite_iff.1 finite
  rw [Binary64.isFinite_iff, Binary64.toBits_abs finite, Nat.mod_mod]
  exact hcode

theorem abs_clear {x : Float} (finite : x.isFinite = true) :
    x.abs.toBits.toNat < Binary64.codes := by
  rw [Binary64.toBits_abs finite]
  exact Nat.mod_lt _ (by decide)

/-- The sign bit is shown as a minus sign. -/
theorem numberText_of_set {x : Float} (finite : x.isFinite = true)
    (hset : Binary64.codes ≤ x.toBits.toNat) : numberText x = '-' :: numberText x.abs := by
  have hcode := Binary64.isFinite_iff.1 finite
  rw [numberText_of_clear (isFinite_abs finite) (abs_clear finite), Binary64.toBits_abs finite]
  simp only [numberText]
  rw [if_neg (Nat.lt_asymm hcode), if_pos hset]

/-- A number without a sign is shown as a number word that has its value. -/
theorem spells_numberText {x : Float} (finite : x.isFinite = true)
    (hclear : x.toBits.toNat < Binary64.codes) :
    Spells .number (numberText x) (some (.number x)) := by
  have hcode := Binary64.isFinite_iff.1 finite
  have hvalue := Binary64.ofBits_abs finite
  rw [Nat.mod_eq_of_lt hclear] at hcode hvalue
  rw [Binary64.abs_of_clear finite hclear] at hvalue
  have hspells := spells_magnitudeText hcode
  rwa [hvalue, ← numberText_of_clear finite hclear] at hspells

/-! ### Cutting -/

theorem scan_of_scans {source : String} {pieces : List Segment} {tokens : List Token}
    {errors : List SyntaxError} (h : Scans [] source.toList pieces tokens errors) :
    scan source = ⟨tokens, errors⟩ := by
  obtain ⟨_, rfl, rfl⟩ := h.found
  rfl

/-- No line ends in a number word. -/
theorem count_of_spells_number {word : List Char} {value : Option Value}
    (h : Spells .number word value) : word.count '\n' = 0 := by
  have hother : ∀ text : List Char, (∀ c ∈ text, c.isDigit = true) → text.count '\n' = 0 :=
    fun text hdigits => List.count_eq_zero.2 fun hmem => absurd (hdigits _ hmem) (by decide)
  cases h with
  | whole _ hdigits => exact hother _ hdigits
  | fraction _ hdigits _ hplaces =>
    rw [List.count_append, List.count_cons_of_ne (by decide), hother _ hdigits, hother _ hplaces]

/-- No line ends in the text of a number. -/
theorem count_numberText {x : Float} (finite : x.isFinite = true) :
    (numberText x).count '\n' = 0 := by
  by_cases hset : Binary64.codes ≤ x.toBits.toNat
  · rw [numberText_of_set finite hset, List.count_cons_of_ne (by decide)]
    exact count_of_spells_number (spells_numberText (isFinite_abs finite) (abs_clear finite))
  · exact count_of_spells_number (spells_numberText finite (Nat.not_le.1 hset))

section

variable {before rest : List Char} {tokens : List Token} {x : Float}

/-- A word on the first line that cannot go on is one token. -/
theorem scans_word {kind : TokenKind} {word : List Char} {value : Option Value}
    (hspells : Spells kind word value) (hends : WordEnds rest word kind)
    (hline : (before ++ word).count '\n' = 0)
    (h : ∃ pieces, Scans (before ++ word) rest pieces tokens []) :
    ∃ pieces, Scans before (word ++ rest) pieces
      (⟨kind, String.ofList word, value, 1⟩ :: tokens) [] := by
  obtain ⟨pieces, h⟩ := h
  have hproper : (Segment.lexeme kind word).Proper := ⟨value, hspells⟩
  have hyields : (Segment.lexeme kind word).Yields (1 + (before ++ word).count '\n')
      [⟨kind, String.ofList word, value, 1⟩] [] := by
    rw [hline]
    exact .lexeme hspells
  exact ⟨_, .step hproper hends hyields h⟩

/-- A number without a sign is one token, unless it goes on behind its text. -/
theorem scans_numberToken (finite : x.isFinite = true) (hclear : x.toBits.toNat < Binary64.codes)
    (hbefore : before.count '\n' = 0) (hrest : ∀ c ∈ rest.head?, c.isDigit = false ∧ c ≠ '.')
    (h : ∃ pieces, Scans (before ++ numberText x) rest pieces tokens []) :
    ∃ pieces, Scans before (numberText x ++ rest) pieces (numberToken x :: tokens) [] := by
  refine scans_word (spells_numberText finite hclear) ?_ ?_ h
  · refine ⟨fun c hc => (hrest c hc).1, fun _ c more hpoint => ?_⟩
    exact absurd rfl (hrest '.' (by rw [hpoint]; rfl)).2
  · rw [List.count_append, hbefore, count_numberText finite]

/-- **The text of a number is cut into the tokens of its phrase.** -/
theorem scans_numberText (finite : x.isFinite = true) (hbefore : before.count '\n' = 0)
    (hrest : ∀ c ∈ rest.head?, c.isDigit = false ∧ c ≠ '.')
    (h : ∃ pieces, Scans (before ++ numberText x) rest pieces tokens []) :
    ∃ pieces,
      Scans before (numberText x ++ rest) pieces ((numberPhrase x).tokens ++ tokens) [] := by
  by_cases hset : Binary64.codes ≤ x.toBits.toNat
  · rw [numberText_of_set finite hset] at h ⊢
    rw [numberPhrase, if_pos hset]
    have hminus : (before ++ ['-']).count '\n' = 0 := by rw [List.count_append, hbefore]; rfl
    refine scans_word (.symbol .minus) trivial hminus ?_
    refine scans_numberToken (isFinite_abs finite) (abs_clear finite) hminus hrest ?_
    rwa [List.append_assoc]
  · rw [numberPhrase, if_neg hset]
    exact scans_numberToken finite (Nat.not_le.1 hset) hbefore hrest h

end

/-! ### Evaluating -/

/-- The value of the phrase is the double. -/
theorem evaluating_numberPhrase {x : Float} (finite : x.isFinite = true) (machine : Machine) :
    evaluating (evaluate (numberPhrase x).expr) machine = some (.ok (.number x), machine) := by
  unfold numberPhrase
  split
  · next hset =>
    have hneg := Binary64.neg_abs finite hset
    show some (Except.ok (Value.number (-x.abs)), machine) = _
    rw [hneg]
  · rfl

/-! ### A program that prints a number -/

/-- The word before the number. -/
def printToken : Token := ⟨.keyword .print, "print", none, 1⟩

/-- The sign behind it. -/
def semicolonToken : Token := ⟨.symbol .semicolon, ";", none, 1⟩

/-- The program that prints the value of an operand. -/
def printBody (operand : Phrase .unary) : Body :=
  .cons (.statement (.print ⟨printToken, rfl⟩ operand.alone ⟨semicolonToken, rfl⟩)) .nil

theorem tokens_printBody (operand : Phrase .unary) (more : List Token) :
    (printBody operand).tokens ++ more =
      printToken :: (operand.tokens ++ semicolonToken :: more) := by
  have hbody : (printBody operand).tokens =
      (printToken :: (operand.tokens ++ [semicolonToken])) ++ [] := rfl
  rw [hbody, List.append_nil, List.cons_append, List.append_assoc, List.singleton_append]

/-- How the program is cut, piece by piece from its end. -/
theorem scans_print {x : Float} (finite : x.isFinite = true) :
    ∃ pieces, Scans [] ("print".toList ++ ([' '] ++ (numberText x ++ ([';'] ++ [])))) pieces
      ((printBody (numberPhrase x)).tokens ++ [.endOf 1]) [] := by
  have hcount : ("print".toList ++ [' '] ++ numberText x ++ [';']).count '\n' = 0 := by
    rw [List.count_append, List.count_append, count_numberText finite]
    rfl
  have hend : ∃ pieces, Scans ("print".toList ++ [' '] ++ numberText x ++ [';']) [] pieces
      [.endOf 1] [] := by
    have hdone := Scans.done ("print".toList ++ [' '] ++ numberText x ++ [';'])
    rw [hcount] at hdone
    exact ⟨_, hdone⟩
  have hsemicolon := scans_word (.symbol .semicolon) trivial hcount hend
  have hnumber : ∃ pieces, Scans ("print".toList ++ [' ']) (numberText x ++ ([';'] ++ [])) pieces
      ((numberPhrase x).tokens ++ [semicolonToken, .endOf 1]) [] := by
    refine scans_numberText finite rfl ?_ hsemicolon
    rintro c ⟨⟩
    decide
  have hblank := Filler.scans (.blank ' ' rfl) hnumber
  have hprint : ∃ pieces, Scans [] (Keyword.print.text ++
      ([' '] ++ (numberText x ++ ([';'] ++ [])))) pieces
        (printToken :: ((numberPhrase x).tokens ++ [semicolonToken, .endOf 1])) [] := by
    refine scans_word (.keyword .print) ?_ rfl hblank
    rintro c ⟨⟩
    decide
  rw [tokens_printBody]
  exact hprint

theorem statementsOf_print {x : Float} (finite : x.isFinite = true) :
    statementsOf ("print " ++ (Value.number x).display ++ ";") =
      .ok [.print (numberPhrase x).expr] := by
  obtain ⟨pieces, hscans⟩ := scans_print finite
  have hsource : ("print " ++ (Value.number x).display ++ ";").toList =
      "print".toList ++ ([' '] ++ (numberText x ++ ([';'] ++ []))) := by
    have htext : (Value.number x).display.toList = numberText x := String.toList_ofList
    rw [String.toList_append, String.toList_append, htext, List.append_assoc]
    rfl
  have hlevels : (printBody (numberPhrase x)).levels ≤ maxNesting := by
    unfold numberPhrase
    split <;> exact Nat.le_of_ble_eq_true rfl
  rw [← hsource] at hscans
  exact statementsOf_of_scan (scan_of_scans hscans) (parse_of_le (beforeEnd_append _ rfl) hlevels)

/-- Printing an expression that has a value and changes nothing. -/
theorem interpret_print {expr : Expr} {value : Value} {machine : Machine}
    (h : evaluating (evaluate expr) machine = some (.ok value, machine)) (rounds : Nat) :
    interpret rounds [.print expr] machine = some ([], (machine.printing value).flushing) := by
  have hexecute : execute rounds (.print expr) machine = some (.ok (), machine.printing value) := by
    rw [execute, bind_apply, h]
    rfl
  rw [interpret, hexecute]
  rfl

/-- **Numbers are shown as they are written.**  The text of a finite double is one number word,
whose value is the double bit for bit, if the sign bit is clear, and if it is set a minus sign and
the number word of the absolute value.  In both cases the program that prints the text prints the
text and changes nothing else. -/
theorem number_shown_as_written (x : Float) (finite : x.isFinite = true) :
    let text := (Value.number x).display
    (x.toBits.toNat < Binary64.codes →
        scan text = ⟨[⟨.number, text, some (.number x), 1⟩, ⟨.eof, "", none, 1⟩], []⟩) ∧
      (Binary64.codes ≤ x.toBits.toNat →
        scan text = ⟨[⟨.symbol .minus, "-", none, 1⟩,
          ⟨.number, (Value.number x.abs).display, some (.number x.abs), 1⟩,
          ⟨.eof, "", none, 1⟩], []⟩) ∧
      ∀ (rounds : Nat) (environment : Environment) (out : Sink),
        run rounds ("print " ++ text ++ ";") ⟨environment, out⟩ =
          some (⟨[], []⟩, ⟨environment, (out.write (text ++ "\n").toUTF8).2.flush.2⟩) := by
  intro text
  have hend : ∃ pieces, Scans ([] ++ numberText x) [] pieces [.endOf 1] [] := by
    have hdone := Scans.done (numberText x)
    rw [count_numberText finite] at hdone
    exact ⟨_, hdone⟩
  obtain ⟨pieces, hscans⟩ := scans_numberText finite rfl (by simp) hend
  have hsource : text.toList = numberText x := String.toList_ofList
  rw [List.append_nil, ← hsource] at hscans
  have hscan : scan text = ⟨(numberPhrase x).tokens ++ [.endOf 1], []⟩ := scan_of_scans hscans
  refine ⟨fun hclear => ?_, fun hset => ?_, fun rounds environment out => ?_⟩
  · rw [hscan, numberPhrase, if_neg (Nat.not_le.2 hclear)]
    rfl
  · rw [hscan, numberPhrase, if_pos hset]
    rfl
  · rw [run_of_ok (statementsOf_print finite), interpret_print (evaluating_numberPhrase finite _)]
    rfl

/-- The double next to -0.3 on its far side, which takes all seventeen digits. -/
theorem number_shown_as_written_nextToThreeTenths :
    let x := Float.ofBits 0xBFD3333333333334
    let text := "-0.30000000000000004"
    x.isFinite = true ∧ (Value.number x).display = text ∧
      run 0 ("print " ++ text ++ ";") ⟨.empty, {}⟩ =
        some (⟨[], []⟩, ⟨.empty, (({} : Sink).write (text ++ "\n").toUTF8).2.flush.2⟩) := by
  have finite : (Float.ofBits 0xBFD3333333333334).isFinite = true := by decide +kernel
  have htext : (Value.number (Float.ofBits 0xBFD3333333333334)).display =
      "-0.30000000000000004" := by decide +kernel
  have hrun := (number_shown_as_written _ finite).2.2 0 .empty {}
  rw [htext] at hrun
  exact ⟨finite, htext, hrun⟩

end Lox
