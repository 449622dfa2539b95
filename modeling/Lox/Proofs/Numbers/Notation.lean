import Lox.Decimal.ReadBack
import Lox.Proofs.Scanning.Words
import Mathlib.Data.List.DropRight

/-!
# Positional notation read back

A decimal is written as digits, perhaps with a point and more digits, and zeros at the end of a
fraction are left out.  So the text is a number word of the language, and what is read from it is
the same fraction in lower terms, to which the same double is nearest.

* `whole` and `fraction`: the digits in front of the point and behind it, which are the text;
* `spells_text`: the text is a number word;
* `ofText_text`: the decimal that is read from it;
* `Binary64.nearest_mul`: fractions that are the same have the same nearest double;
* `nearest_ofText_magnitudeText` and `spells_magnitudeText`: the text of a finite code is read as
  this code.
-/

namespace Lox

-- Powers are those of `Nat` itself, whatever other powers are in sight.
attribute [local instance (high)] instPowNat

namespace Decimal

/-! ### Digits -/

theorem addWhole_eq (digits : Nat) (text : List Char) :
    addWhole digits text = Nat.ofDigitChars 10 text digits := by
  simp only [addWhole, digitValue, Nat.ofDigitChars_eq_foldl, Nat.mul_comm]

theorem addWhole_append (digits : Nat) (text more : List Char) :
    addWhole digits (text ++ more) = addWhole (addWhole digits text) more :=
  List.foldl_append

theorem addWhole_toDigits (n : Nat) : addWhole 0 (Nat.toDigits 10 n) = n := by
  rw [addWhole_eq, Nat.ofDigitChars_toDigits (by decide) (by decide)]

/-- Zeros at the end only move the digits before them. -/
theorem addWhole_zeros (digits count : Nat) :
    addWhole digits (List.replicate count '0') = digits * 10 ^ count := by
  induction count generalizing digits with
  | zero => simp [addWhole]
  | succ count ih =>
    have hzero : digits * 10 + digitValue '0' = digits * 10 := rfl
    rw [List.replicate_succ, addWhole, List.foldl_cons, hzero]
    exact (ih (digits * 10)).trans (by rw [Nat.mul_assoc, Nat.pow_succ'])

theorem digitValue_digitChar {n : Nat} (h : n < 10) : digitValue (Nat.digitChar n) = n := by
  rw [digitValue, Nat.toNat_digitChar_of_lt_ten h]
  exact Nat.add_sub_cancel_left 48 n

theorem addWhole_lastDigits (digits count n : Nat) :
    addWhole digits (lastDigits count n) = digits * 10 ^ count + n % 10 ^ count := by
  induction count generalizing n with
  | zero => simp [addWhole, lastDigits, Nat.mod_one]
  | succ count ih =>
    have hlast : addWhole (digits * 10 ^ count + n / 10 % 10 ^ count) [Nat.digitChar (n % 10)] =
        (digits * 10 ^ count + n / 10 % 10 ^ count) * 10 + n % 10 := by
      have hdigit : n % 10 < 10 := Nat.mod_lt _ (by decide)
      rw [addWhole, List.foldl_cons, List.foldl_nil, digitValue_digitChar hdigit]
    have hmod : n % 10 ^ (count + 1) = n / 10 % 10 ^ count * 10 + n % 10 := by
      rw [Nat.pow_succ', Nat.mod_mul, Nat.mul_comm 10, Nat.add_comm]
    rw [lastDigits, addWhole_append, ih, hlast, hmod, Nat.add_mul, Nat.mul_assoc, ← Nat.pow_succ,
      Nat.add_assoc]

theorem length_lastDigits (count n : Nat) : (lastDigits count n).length = count := by
  induction count generalizing n with
  | zero => rfl
  | succ count ih => rw [lastDigits, List.length_append, ih, List.length_singleton]

theorem isDigit_of_mem_lastDigits {count n : Nat} {c : Char} (h : c ∈ lastDigits count n) :
    c.isDigit = true := by
  induction count generalizing n with
  | zero => cases h
  | succ count ih =>
    rcases List.mem_append.1 h with h | h
    · exact ih h
    · rw [List.mem_singleton.1 h, Nat.isDigit_digitChar]
      exact decide_eq_true (Nat.mod_lt _ (by decide))

/-! ### Texts -/

/-- The digits in front of the point. -/
def whole (d : Decimal) : List Char := Nat.toDigits 10 (d.digits / 10 ^ d.places)

/-- The digits behind the point, without zeros at the end. -/
def fraction (d : Decimal) : List Char :=
  (lastDigits d.places (d.digits % 10 ^ d.places)).rdropWhile (· == '0')

variable (d : Decimal)

theorem text_eq : d.text = if d.fraction = [] then d.whole else d.whole ++ '.' :: d.fraction := by
  have hempty : (((lastDigits d.places (d.digits % 10 ^ d.places)).reverse.dropWhile
      (· == '0')).isEmpty = true) ↔ d.fraction = [] := by
    rw [List.isEmpty_iff, fraction, List.rdropWhile, List.reverse_eq_nil_iff]
  simp only [text, hempty]
  rfl

theorem isDigit_whole : ∀ c ∈ d.whole, c.isDigit = true :=
  fun _ h => Nat.isDigit_of_mem_toDigits (by decide) (by decide) h

theorem whole_ne_nil : d.whole ≠ [] := Nat.toDigits_ne_nil

theorem isDigit_fraction : ∀ c ∈ d.fraction, c.isDigit = true :=
  fun _ h => isDigit_of_mem_lastDigits ((List.rdropWhile_prefix _ _).subset h)

/-- What is left out at the end of the fraction are zeros. -/
theorem exists_zeros :
    ∃ zeros, lastDigits d.places (d.digits % 10 ^ d.places) =
      d.fraction ++ List.replicate zeros '0' := by
  have hzeros : ∀ c ∈ (lastDigits d.places (d.digits % 10 ^ d.places)).rtakeWhile (· == '0'),
      c = '0' := fun c h => by simpa using List.mem_rtakeWhile_imp h
  refine ⟨((lastDigits d.places (d.digits % 10 ^ d.places)).rtakeWhile (· == '0')).length, ?_⟩
  rw [← List.eq_replicate_of_mem hzeros]
  exact List.rdropWhile_append_rtakeWhile.symm

/-- The text of a decimal is a number word of the language. -/
theorem spells_text : Spells .number d.text (some (.number (number d.text))) := by
  rw [text_eq]
  split
  · exact .whole d.whole_ne_nil d.isDigit_whole
  · next hfraction =>
    exact .fraction d.whole_ne_nil d.isDigit_whole hfraction d.isDigit_fraction

/-! ### Reading a text -/

/-- What is read from a text: its digits, as many of them behind the point as there are. -/
theorem ofText_text_eq :
    ofText d.text = ⟨addWhole (addWhole 0 d.whole) d.fraction, d.fraction.length⟩ := by
  have hwhole : ∀ c ∈ d.whole, (c != '.') = true := by
    intro c hc
    have hdigit := d.isDigit_whole c hc
    rw [bne_iff_ne]
    rintro rfl
    cases hdigit
  have hstop : ∀ rest : List Char, ∀ c ∈ ('.' :: rest).head?, (c != '.') = false := by
    rintro rest c ⟨⟩
    rfl
  rw [text_eq]
  split
  · next hfraction =>
    have htaken : (d.whole ++ []).takeWhile (· != '.') = d.whole :=
      takeWhile_of_ends hwhole (by simp)
    have hleft : (d.whole ++ []).dropWhile (· != '.') = [] := dropWhile_of_ends hwhole (by simp)
    rw [List.append_nil] at htaken hleft
    rw [ofText, htaken, hleft, hfraction]
    rfl
  · rw [ofText, takeWhile_of_ends hwhole (hstop _), dropWhile_of_ends hwhole (hstop _)]
    rfl

/-- **Reading a text gives the decimal in lower terms.** -/
theorem ofText_text : ∃ zeros, d.digits = (ofText d.text).digits * 10 ^ zeros ∧
    d.places = (ofText d.text).places + zeros := by
  obtain ⟨zeros, hzeros⟩ := d.exists_zeros
  have hwhole : addWhole 0 d.whole = d.digits / 10 ^ d.places := addWhole_toDigits _
  rw [ofText_text_eq]
  refine ⟨zeros, ?_, ?_⟩
  · calc d.digits
        = addWhole (d.digits / 10 ^ d.places)
            (lastDigits d.places (d.digits % 10 ^ d.places)) := by
          rw [addWhole_lastDigits, Nat.mod_mod, Nat.mul_comm, Nat.div_add_mod]
      _ = addWhole (addWhole 0 d.whole) d.fraction * 10 ^ zeros := by
          rw [hzeros, addWhole_append, addWhole_zeros, hwhole]
  · have hlength := congrArg List.length hzeros
    rwa [length_lastDigits, List.length_append, List.length_replicate] at hlength

end Decimal

/-! ### Fractions that are the same -/

namespace Binary64

theorem divideToEven_mul_right (numerator denominator : Nat) {factor : Nat} (h : 0 < factor) :
    divideToEven (numerator * factor) (denominator * factor) =
      divideToEven numerator denominator := by
  have htwice : 2 * (numerator % denominator * factor) = 2 * (numerator % denominator) * factor :=
    (Nat.mul_assoc _ _ _).symm
  have hequal : (2 * (numerator % denominator) * factor == denominator * factor) =
      (2 * (numerator % denominator) == denominator) := by
    rw [Bool.eq_iff_iff, beq_iff_eq, beq_iff_eq]
    exact Nat.mul_left_inj (Nat.ne_of_gt h)
  simp only [divideToEven, Nat.mul_div_mul_right _ _ h, Nat.mul_mod_mul_right, htwice, hequal,
    Nat.mul_lt_mul_right h]

/-- Fractions that are the same have the same nearest double. -/
theorem nearest_mul (numerator denominator : Nat) {factor : Nat} (h : 0 < factor) :
    nearest (numerator * factor) (denominator * factor) = nearest numerator denominator := by
  have hunits : numerator * factor * 2 ^ unitExponent = numerator * 2 ^ unitExponent * factor :=
    Nat.mul_right_comm _ _ _
  have hstep (step : Nat) : denominator * factor * 2 ^ step = denominator * 2 ^ step * factor :=
    Nat.mul_right_comm _ _ _
  simp only [nearest, hunits, hstep, Nat.mul_div_mul_right _ _ h, divideToEven_mul_right _ _ h]

end Binary64

/-! ### Numbers -/

theorem Decimal.nearest_ofText_text (d : Decimal) : (ofText d.text).nearest = d.nearest := by
  obtain ⟨zeros, hdigits, hplaces⟩ := d.ofText_text
  have hpositive : 0 < 10 ^ zeros := Nat.pow_pos (by decide)
  have hmul := Binary64.nearest_mul (ofText d.text).digits (10 ^ (ofText d.text).places) hpositive
  rw [← Nat.pow_add, ← hdigits, ← hplaces] at hmul
  exact hmul.symm

/-- **The text of a finite code is read as this code.** -/
theorem nearest_ofText_magnitudeText {code : Nat} (h : code < Binary64.infinity) :
    (Decimal.ofText (magnitudeText code)).nearest = code := by
  rw [magnitudeText, if_pos h, Decimal.nearest_ofText_text, Decimal.nearest_shortest h]

/-- The text of a finite code is a number word, and its value is the double with this code. -/
theorem spells_magnitudeText {code : Nat} (h : code < Binary64.infinity) :
    Spells .number (magnitudeText code)
      (some (.number (Float.ofBits (UInt64.ofNat code)))) := by
  have hspells := (Decimal.shortest code).spells_text
  have htext : magnitudeText code = (Decimal.shortest code).text := if_pos h
  rwa [← htext, number, nearest_ofText_magnitudeText h] at hspells

end Lox
