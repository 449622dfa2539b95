import Lox.Decimal.ReadBack
import Mathlib

/-!
# Doubles and their bits

A double is a sign bit, eleven bits of exponent and fifty-two bits of fraction.  Arithmetic takes
these apart and puts them together again, and for a finite double nothing is lost on the way: the
bits that come back are those that went in, whatever was done to the sign in between.

* `fields`: the bits of a double, put together from its three parts, with their number in
  `toNat_fields`;
* `pack_unpack_fields`: the way there and back, with what is done to the sign in between;
* `toBits_ofBits`: the double with a given finite code has this code;
* `isFinite_iff`, `toBits_abs`: finite doubles and absolute values, told by codes;
* `abs_of_clear` and `neg_abs`: a finite double is its absolute value or the negative of it, as its
  sign bit says.
-/

namespace Lox.Binary64

-- Powers are those of `Nat` itself, whatever other powers are in sight.
attribute [local instance (high)] instPowNat

open Float.Model
open Float.Model.UnpackedFloat (Sign)

/-! ### The three parts -/

/-- The bits of a double, put together from its parts. -/
abbrev fields (sign : Sign) (exponent : BitVec 11) (fraction : BitVec 52) : BitVec 64 :=
  UnpackedFloat.packComponents Format.binary64 sign exponent fraction

theorem toNat_fields (sign : Sign) (exponent : BitVec 11) (fraction : BitVec 52) :
    (fields sign exponent fraction).toNat =
      sign.toBitVec.toNat * codes + (exponent.toNat * fractions + fraction.toNat) := by
  have hfraction := fraction.isLt
  have hexponent := exponent.isLt
  simp only [fields, UnpackedFloat.packComponents, BitVec.toNat_append]
  rw [← Nat.shiftLeft_add_eq_or_of_lt hexponent, ← Nat.shiftLeft_add_eq_or_of_lt hfraction]
  simp only [Nat.shiftLeft_eq, codes, fractions]
  omega

theorem exists_fields (bits : BitVec 64) :
    ∃ sign exponent fraction, bits = fields sign exponent fraction :=
  ⟨_, _, _, (@UnpackedFloat.packComponents_unpackSign_unpackExponent_unpackMantissa
    Format.binary64 bits).symm⟩

/-! ### There and back -/

section

variable {exponent : BitVec 11} {fraction : BitVec 52}

/-- An operation that does nothing but give another sign, done to a finite double between taking it
apart and putting it together again, changes the sign bit only. -/
theorem pack_unpack_fields {operation : UnpackedFloat → UnpackedFloat} {sign changed : Sign}
    (hzero : operation (.zero sign) = .zero changed)
    (hfinite : ∀ significand place positive,
      operation (.finite sign significand place positive) =
        .finite changed significand place positive)
    (h : exponent ≠ -1#11) :
    (operation (UnpackedFloat.unpack Format.binary64 (fields sign exponent fraction))).pack
      Format.binary64 = fields changed exponent fraction := by
  have hchanged : operation (UnpackedFloat.unpack Format.binary64 (fields sign exponent fraction)) =
      UnpackedFloat.unpack Format.binary64 (fields changed exponent fraction) := by
    simp only [UnpackedFloat.unpack, UnpackedFloat.unpackMantissa_packComponents,
      UnpackedFloat.unpackExponent_packComponents, UnpackedFloat.unpackSign_packComponents,
      UnpackedFloat.Sign.ofBitVec_toBitVec, h, if_false]
    split
    · split
      · exact hzero
      · exact hfinite _ _ _
    · exact hfinite _ _ _
  have hnumber : @UnpackedFloat.isNaNBits Format.binary64
      (fields changed exponent fraction) = false := by
    rw [UnpackedFloat.isNaNBits, UnpackedFloat.unpackExponent_packComponents]
    exact decide_eq_false fun hlast => h hlast.1
  rw [hchanged, UnpackedFloat.pack_unpack, hnumber]
  rfl

/-- The last exponent is that of the infinities and of what is no number. -/
theorem isFinite_unpack_fields (sign : Sign) :
    (UnpackedFloat.unpack Format.binary64 (fields sign exponent fraction)).isFinite = true ↔
      exponent ≠ -1#11 := by
  simp only [UnpackedFloat.unpack, UnpackedFloat.unpackMantissa_packComponents,
    UnpackedFloat.unpackExponent_packComponents]
  split
  · next hlast => split <;> exact iff_of_false Bool.false_ne_true (not_not_intro hlast)
  · next hother =>
    split
    · split <;> exact iff_of_true rfl hother
    · exact iff_of_true rfl hother

end

/-! ### Doubles -/

/-- Doubles whose bits have the same number are the same. -/
theorem eq_of_toNat_toBits {x y : Float} (h : x.toBits.toNat = y.toBits.toNat) : x = y :=
  Float.toBits_inj.1 (UInt64.toNat_inj.1 h)

section

variable {x : Float} {sign : Sign} {exponent : BitVec 11} {fraction : BitVec 52}

theorem isFinite_iff_of_fields (h : x.toBits.toBitVec = fields sign exponent fraction) :
    x.isFinite = true ↔ exponent ≠ -1#11 := by
  show (UnpackedFloat.unpack Format.binary64 x.toBits.toBitVec).isFinite = true ↔ _
  rw [h, isFinite_unpack_fields]

theorem toBits_neg_of_fields (h : x.toBits.toBitVec = fields sign exponent fraction)
    (hexponent : exponent ≠ -1#11) :
    (-x).toBits.toBitVec = fields (-sign) exponent fraction := by
  show ((UnpackedFloat.unpack Format.binary64 x.toBits.toBitVec).neg).pack Format.binary64 = _
  rw [h]
  exact pack_unpack_fields rfl (fun _ _ _ => rfl) hexponent

theorem toBits_abs_of_fields (h : x.toBits.toBitVec = fields sign exponent fraction)
    (hexponent : exponent ≠ -1#11) :
    x.abs.toBits.toBitVec = fields .positive exponent fraction := by
  show ((UnpackedFloat.unpack Format.binary64 x.toBits.toBitVec).abs).pack Format.binary64 = _
  rw [h]
  exact pack_unpack_fields rfl (fun _ _ _ => rfl) hexponent

end

/-- The code of a double, its sign bit left out. -/
theorem code_of_fields {bits : BitVec 64} {sign : Sign} {exponent : BitVec 11}
    {fraction : BitVec 52} (h : bits = fields sign exponent fraction) :
    bits.toNat % codes = exponent.toNat * fractions + fraction.toNat := by
  have hfraction := fraction.isLt
  have hexponent := exponent.isLt
  rw [h, toNat_fields]
  simp only [codes, fractions]
  omega

/-- A finite code is one whose exponent is not the last. -/
theorem code_lt_infinity_iff {exponent : BitVec 11} {fraction : BitVec 52} :
    exponent.toNat * fractions + fraction.toNat < infinity ↔ exponent ≠ -1#11 := by
  have hfraction := fraction.isLt
  have hexponent := exponent.isLt
  have hall : (-1#11 : BitVec 11).toNat = 2047 := rfl
  rw [ne_eq, BitVec.toNat_eq, hall]
  simp only [infinity, fractions]
  omega

/-- The double with a given finite code has this code. -/
theorem toBits_ofBits {code : Nat} (h : code < infinity) :
    (Float.ofBits (UInt64.ofNat code)).toBits.toNat = code := by
  have hbound : code < codes := Nat.lt_trans h (by decide)
  have hsmall : (UInt64.ofNat code).toBitVec.toNat = code :=
    Nat.mod_eq_of_lt (Nat.lt_trans hbound (by decide))
  obtain ⟨sign, exponent, fraction, hfields⟩ := exists_fields (UInt64.ofNat code).toBitVec
  have hcode := code_of_fields hfields
  rw [hsmall, Nat.mod_eq_of_lt hbound] at hcode
  have hexponent := code_lt_infinity_iff.1 (hcode ▸ h)
  have hbits : (Float.ofBits (UInt64.ofNat code)).toBits.toBitVec =
      fields sign exponent fraction := by
    show (UnpackedFloat.unpack Format.binary64 (UInt64.ofNat code).toBitVec).pack
      Format.binary64 = _
    rw [hfields]
    exact @pack_unpack_fields exponent fraction id sign sign rfl (fun _ _ _ => rfl) hexponent
  show (Float.ofBits (UInt64.ofNat code)).toBits.toBitVec.toNat = code
  rw [hbits, ← hfields, hsmall]

theorem isFinite_iff {x : Float} : x.isFinite = true ↔ x.toBits.toNat % codes < infinity := by
  obtain ⟨sign, exponent, fraction, h⟩ := exists_fields x.toBits.toBitVec
  show _ ↔ x.toBits.toBitVec.toNat % codes < infinity
  rw [isFinite_iff_of_fields h, code_of_fields h, code_lt_infinity_iff]

theorem toBits_abs {x : Float} (h : x.isFinite = true) :
    x.abs.toBits.toNat = x.toBits.toNat % codes := by
  obtain ⟨sign, exponent, fraction, hx⟩ := exists_fields x.toBits.toBitVec
  have habs := toBits_abs_of_fields hx ((isFinite_iff_of_fields hx).1 h)
  show x.abs.toBits.toBitVec.toNat = x.toBits.toBitVec.toNat % codes
  rw [code_of_fields hx, habs, toNat_fields]
  exact Nat.zero_add _

/-- The absolute value of a finite double is found by its code. -/
theorem ofBits_abs {x : Float} (h : x.isFinite = true) :
    Float.ofBits (UInt64.ofNat (x.toBits.toNat % codes)) = x.abs := by
  apply eq_of_toNat_toBits
  exact (toBits_ofBits (isFinite_iff.1 h)).trans (toBits_abs h).symm

/-- A finite double whose sign bit is clear is its absolute value. -/
theorem abs_of_clear {x : Float} (h : x.isFinite = true) (hclear : x.toBits.toNat < codes) :
    x.abs = x := by
  apply eq_of_toNat_toBits
  exact (toBits_abs h).trans (Nat.mod_eq_of_lt hclear)

/-- A finite double whose sign bit is set is the negative of its absolute value. -/
theorem neg_abs {x : Float} (h : x.isFinite = true) (hset : codes ≤ x.toBits.toNat) :
    -x.abs = x := by
  obtain ⟨sign, exponent, fraction, hx⟩ := exists_fields x.toBits.toBitVec
  have hexponent := (isFinite_iff_of_fields hx).1 h
  have hsign : sign = .negative := by
    cases sign with
    | negative => rfl
    | positive =>
      have hbits : x.toBits.toNat = 0 + (exponent.toNat * fractions + fraction.toNat) :=
        (congrArg BitVec.toNat hx).trans (toNat_fields _ _ _)
      have hcode : exponent.toNat * fractions + fraction.toNat < infinity :=
        code_lt_infinity_iff.2 hexponent
      have hlast : infinity < codes := by decide
      omega
  apply eq_of_toNat_toBits
  apply BitVec.toNat_inj.2
  rw [toBits_neg_of_fields (toBits_abs_of_fields hx hexponent) hexponent, hx, hsign]
  rfl

end Lox.Binary64
