import Lox.Decimal

/-!
# Decimals read back

The decimal that a double is shown as is read as that double.

Main statements:
* `Binary64.nearest_of_exact`: a fraction that is exactly a finite double is read as that double;
* `Decimal.nearest_exactly`: so the exact value of a double reads back;
* `Decimal.nearest_shortest`: the shortest decimal of a double reads back.
-/

namespace Lox

-- Powers are those of `Nat` itself, whatever other powers are in sight.
attribute [local instance (high)] instPowNat

namespace Binary64

/-- A quotient that is exact is not rounded. -/
theorem divideToEven_mul (quotient : Nat) {denominator : Nat} (h : 0 < denominator) :
    divideToEven (quotient * denominator) denominator = quotient := by
  have hz : ¬ denominator = 0 := by omega
  simp [divideToEven, Nat.mul_mod_left, Nat.mul_div_cancel _ h]
  omega

/-- From the first normal double on, a magnitude is a significand and a shift. -/
theorem units_of_fractions_le {code : Nat} (h : fractions ≤ code) :
    units code = (fractions + code % fractions) * 2 ^ (code / fractions - 1) := by
  rw [units, if_neg (by omega)]

/-- A significand has fifty-three bits. -/
theorem log2_significand {significand shift : Nat} (low : fractions ≤ significand)
    (high : significand < 2 * fractions) : (significand * 2 ^ shift).log2 = 52 + shift := by
  have nonzero : significand * 2 ^ shift ≠ 0 :=
    Nat.mul_ne_zero (by simp only [fractions] at low; omega) (Nat.ne_of_gt (Nat.two_pow_pos shift))
  apply (Nat.log2_eq_iff nonzero).2
  constructor
  · rw [Nat.pow_add]; exact Nat.mul_le_mul_right _ low
  · rw [show 52 + shift + 1 = 53 + shift by omega, Nat.pow_add]
    exact Nat.mul_lt_mul_of_pos_right (by simpa [fractions] using high) (Nat.two_pow_pos shift)

/-- A fraction that is exactly a finite double is read as that double. -/
theorem nearest_of_exact {numerator denominator code : Nat} (finite : code < infinity)
    (positive : 0 < denominator)
    (exact : numerator * 2 ^ unitExponent = units code * denominator) :
    nearest numerator denominator = code := by
  unfold nearest
  simp only [exact, Nat.mul_div_cancel _ positive]
  by_cases small : code < fractions
  · have hu : units code = code := by rw [units, if_pos small]
    have hlog : code.log2 + 1 - 53 = 0 := by
      by_cases hz : code = 0
      · subst hz; decide
      · have := (Nat.log2_lt hz).2 (show code < 2 ^ 53 by simp only [fractions] at small; omega)
        omega
    rw [hu, hlog]
    simp only [Nat.pow_zero, Nat.mul_one, divideToEven_mul code positive]
    omega
  · have large : fractions ≤ code := by omega
    have hpos : 0 < fractions := by decide
    have hq : 1 ≤ code / fractions := (Nat.one_le_div_iff hpos).2 large
    have hr : code % fractions < fractions := Nat.mod_lt _ hpos
    rw [units_of_fractions_le large, log2_significand (by omega) (by omega)]
    generalize hs : code / fractions - 1 = shift
    rw [show 52 + shift + 1 - 53 = shift by omega,
      show (fractions + code % fractions) * 2 ^ shift * denominator
        = (fractions + code % fractions) * (denominator * 2 ^ shift) by
          rw [Nat.mul_assoc, Nat.mul_comm (2 ^ shift)],
      divideToEven_mul _ (Nat.mul_pos positive (Nat.two_pow_pos shift))]
    have whole := Nat.div_add_mod code fractions
    have code_eq : shift * fractions + (fractions + code % fractions) = code := by
      have hc : code / fractions = shift + 1 := by omega
      rw [hc, Nat.mul_comm, Nat.succ_mul] at whole
      rw [← Nat.add_assoc]
      exact whole
    rw [code_eq]
    exact Nat.min_eq_left (Nat.le_of_lt finite)
end Binary64

namespace Decimal

/-- The exact value of a finite double reads back as the double. -/
theorem nearest_exactly {code : Nat} (finite : code < Binary64.infinity) :
    (ofGrid (exactly code) 0).nearest = code := by
  have tens (units e : Nat) : units * 5 ^ e * 2 ^ e = units * 10 ^ e := by
    rw [Nat.mul_assoc, ← Nat.mul_pow]
  have positive (e : Nat) : 0 < 10 ^ e := Nat.pow_pos (by decide)
  have grid : ofGrid (exactly code) 0 = ⟨exactly code, Binary64.unitExponent⟩ := by
    simp [ofGrid, Binary64.unitExponent]
  have exact := tens (Binary64.units code) Binary64.unitExponent
  rw [grid]
  unfold Decimal.nearest
  exact Binary64.nearest_of_exact finite (positive _) exact

/-- A decimal that is taken from a grid reads back, for otherwise it is not taken. -/
theorem nearest_onGrid? {code zeros : Nat} {decimal : Decimal}
    (h : onGrid? code zeros = some decimal) : decimal.nearest = code := by
  simp only [onGrid?] at h
  split at h
  · next reads =>
    cases h
    simp only [Bool.and_eq_true, beq_iff_eq] at reads
    exact reads.1
  · split at h
    · next reads =>
      cases h
      exact beq_iff_eq.1 reads
    · cases h

/-- The search only ends at a decimal that reads back. -/
theorem nearest_shortest? {code : Nat} {decimal : Decimal} (h : shortest? code = some decimal) :
    decimal.nearest = code := by
  obtain ⟨count, _, hc⟩ := List.exists_of_findSome?_eq_some h
  exact nearest_onGrid? hc

/-- The shortest decimal of a finite double reads back as the double. -/
theorem nearest_shortest {code : Nat} (finite : code < Binary64.infinity) :
    (shortest code).nearest = code := by
  unfold shortest
  cases h : shortest? code with
  | none => exact nearest_exactly finite
  | some decimal => exact nearest_shortest? h

end Decimal
end Lox
