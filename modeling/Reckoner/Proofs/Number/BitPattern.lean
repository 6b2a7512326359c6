import Mathlib
import Reckoner.Number.Binary

/-! # Codes and bit patterns

The double made from a sign and a code has that sign and that code, as long as the code is that of a
number or of the infinity: putting a bit pattern together from its sign, exponent and fraction undoes
taking it apart. Only the patterns that are not numbers are replaced by another one.
-/
namespace Reckoner.Number
set_option autoImplicit false

open Float.Model (Format UnpackedFloat)
open Float.Model.UnpackedFloat

theorem toNat_unpackMantissa (b : BitVec Format.binary64.numBits) :
    (unpackMantissa b).toNat = b.toNat % 2 ^ 52 := by
  simp [unpackMantissa, BitVec.extractLsb, BitVec.extractLsb']

theorem toNat_unpackExponent (b : BitVec Format.binary64.numBits) :
    (unpackExponent b).toNat = b.toNat / 2 ^ 52 % 2 ^ 11 := by
  simp [unpackExponent, BitVec.extractLsb, BitVec.extractLsb', Nat.shiftRight_eq_div_pow]

theorem toNat_unpackSign (b : BitVec Format.binary64.numBits) :
    (unpackSign b).toNat = b.toNat / 2 ^ 63 := by
  have hLt : b.toNat < 2 ^ 64 := b.isLt
  have hBit : (unpackSign b).toNat = b.toNat / 2 ^ 63 % 2 := by
    simp [unpackSign, BitVec.extractLsb, BitVec.extractLsb', Nat.shiftRight_eq_div_pow]
  omega

theorem toNat_sign (v : BitVec 1) : (Sign.ofBitVec v).toBitVec.toNat = v.toNat := by
  have hLt : v.toNat < 2 := v.isLt
  unfold Sign.ofBitVec
  split
  · rename_i hZero
    rw [hZero]
    rfl
  · rename_i hNonzero
    have hNe : v.toNat ≠ 0 := fun hZero => hNonzero (BitVec.eq_of_toNat_eq hZero)
    change 1 = v.toNat
    omega

theorem toNat_packComponents (sign : Sign) (exponent : BitVec 11) (mantissa : BitVec 52) :
    (packComponents .binary64 sign exponent mantissa).toNat =
      sign.toBitVec.toNat * 2 ^ 63 + exponent.toNat * 2 ^ 52 + mantissa.toNat := by
  have hExponent : exponent.toNat < 2 ^ 11 := exponent.isLt
  have hMantissa : mantissa.toNat < 2 ^ 52 := mantissa.isLt
  change (sign.toBitVec ++ exponent ++ mantissa).toNat = _
  rw [BitVec.toNat_append, ← Nat.shiftLeft_add_eq_or_of_lt hMantissa, BitVec.toNat_append,
    ← Nat.shiftLeft_add_eq_or_of_lt hExponent, Nat.shiftLeft_eq, Nat.shiftLeft_eq]
  omega

theorem toNat_packComponents_unpack {b : BitVec Format.binary64.numBits} {exponent : BitVec 11}
    {mantissa : BitVec 52} (hExponent : exponent.toNat = (unpackExponent b).toNat)
    (hMantissa : mantissa.toNat = (unpackMantissa b).toNat) :
    (packComponents .binary64 (.ofBitVec (unpackSign b)) exponent mantissa).toNat = b.toNat := by
  have hLt : b.toNat < 2 ^ 64 := b.isLt
  rw [toNat_packComponents, toNat_sign, hExponent, hMantissa, toNat_unpackSign,
    toNat_unpackExponent, toNat_unpackMantissa]
  omega

/-- A full significand is stored without its leading bit. -/
theorem pack_normal (sign : Sign) (exponent : Nat) {m : Nat} (hPos : 0 < m)
    (hExponent : exponent < 2047) (hLow : 2 ^ 52 ≤ m) (hHigh : m < 2 ^ 53) :
    pack .binary64
        (.finite sign m ((exponent : Int) - (Format.binary64.exponentBias + (52 : Nat))) hPos) =
      packComponents .binary64 sign (BitVec.ofNat 11 exponent) (BitVec.ofNat 52 m) := by
  have hBiased : ((exponent : Int) - (Format.binary64.exponentBias + (52 : Nat)) +
      Format.binary64.exponentBias + (52 : Nat)).toNat = exponent := by omega
  have hLog : m.log2 + 1 = Format.binary64.mantissaBits := by
    rw [(Nat.log2_eq_iff (by omega)).mpr ⟨hLow, hHigh⟩]
    rfl
  simp only [pack, hBiased]
  rw [if_neg (by omega), if_pos hLog]

/-- A shorter significand is stored as it is, under an empty exponent. -/
theorem pack_subnormal (sign : Sign) {m : Nat} (hPos : 0 < m) (hLow : m < 2 ^ 52) :
    pack .binary64 (.finite sign m (-1074) hPos) =
      packComponents .binary64 sign 0#11 (BitVec.ofNat 52 m) := by
  have hLog : m.log2 < 52 := (Nat.log2_lt (by omega)).mpr hLow
  have hShort : ¬m.log2 + 1 = Format.binary64.mantissaBits := by
    have hBits : Format.binary64.mantissaBits = 53 := rfl
    omega
  simp only [pack]
  rw [if_neg (by decide), if_neg hShort]

theorem toNat_pack_unpack {b : BitVec Format.binary64.numBits} (h : b.toNat % signBit ≤ infinity) :
    (pack .binary64 (unpack .binary64 b)).toNat = b.toNat := by
  have hMantissa := toNat_unpackMantissa b
  have hExponent := toNat_unpackExponent b
  have hMantissaLt : (unpackMantissa b).toNat < 2 ^ 52 := (unpackMantissa b).isLt
  have hExponentLt : (unpackExponent b).toNat < 2 ^ 11 := (unpackExponent b).isLt
  simp only [signBit, infinity, storedBits, Nat.shiftLeft_eq] at h
  unfold unpack
  dsimp only
  split
  · rename_i hOnes
    have hFull : (unpackExponent b).toNat = 2047 := by rw [hOnes]; rfl
    split
    · rename_i hZero
      exact toNat_packComponents_unpack (congrArg BitVec.toNat hOnes.symm)
        (congrArg BitVec.toNat hZero.symm)
    · rename_i hNonzero
      have hNe : (unpackMantissa b).toNat ≠ 0 := fun hZero => hNonzero (BitVec.eq_of_toNat_eq hZero)
      omega
  rename_i hOnes
  split
  · rename_i hZero
    split
    · rename_i hEmpty
      exact toNat_packComponents_unpack (congrArg BitVec.toNat hZero.symm)
        (congrArg BitVec.toNat hEmpty.symm)
    · rename_i hNonempty
      rw [hZero]
      exact (congrArg BitVec.toNat (pack_subnormal _ _ hMantissaLt)).trans
        (toNat_packComponents_unpack (congrArg BitVec.toNat hZero.symm) (by simp))
  · rename_i hZero
    have hNe : (unpackExponent b).toNat ≠ 2047 := fun hFull => hOnes (BitVec.eq_of_toNat_eq hFull)
    have hFull : (1#1 ++ unpackMantissa b).toNat = 2 ^ 52 + (unpackMantissa b).toNat := by
      rw [BitVec.toNat_append, ← Nat.shiftLeft_add_eq_or_of_lt hMantissaLt]
      rfl
    rw [pack_normal _ _ _ (by omega) (by omega) (by omega)]
    refine toNat_packComponents_unpack (by simp) ?_
    rw [hFull, BitVec.toNat_ofNat]
    omega

theorem toNat_toBits_ofBits {bits : UInt64} (h : bits.toNat % signBit ≤ infinity) :
    (Float.ofBits bits).toBits.toNat = bits.toNat :=
  toNat_pack_unpack h

theorem toNat_signed {code : Nat} (negative : Bool) (h : code ≤ infinity) :
    (UInt64.ofNat (if negative then signBit + code else code)).toNat =
      (if negative then signBit + code else code) := by
  simp only [infinity, storedBits, signBit, Nat.shiftLeft_eq] at h ⊢
  rw [UInt64.toNat_ofNat_of_lt']
  have hSize : UInt64.size = 18446744073709551616 := rfl
  split <;> omega

theorem toNat_toBits_ofCode {code : Nat} (negative : Bool) (h : code ≤ infinity) :
    (ofCode negative code).toBits.toNat = (if negative then signBit + code else code) := by
  have hBits := toNat_signed negative h
  rw [ofCode, toNat_toBits_ofBits, hBits]
  rw [hBits]
  simp only [infinity, storedBits, signBit, Nat.shiftLeft_eq] at h ⊢
  split <;> omega

theorem codeOf_ofCode {code : Nat} (negative : Bool) (h : code ≤ infinity) :
    codeOf (ofCode negative code) = code := by
  rw [codeOf, toNat_toBits_ofCode negative h]
  simp only [infinity, storedBits, signBit, Nat.shiftLeft_eq] at h ⊢
  split <;> omega

theorem isNegative_ofCode {code : Nat} (negative : Bool) (h : code ≤ infinity) :
    isNegative (ofCode negative code) = negative := by
  rw [isNegative, toNat_toBits_ofCode negative h]
  simp only [infinity, storedBits, signBit, Nat.shiftLeft_eq] at h ⊢
  cases negative with
  | false => simp; omega
  | true => simp

theorem isInf_unpack (b : BitVec Format.binary64.numBits) :
    (unpack .binary64 b).isInf = true ↔ b.toNat % signBit = infinity := by
  have hMantissa := toNat_unpackMantissa b
  have hExponent := toNat_unpackExponent b
  simp only [infinity, storedBits, signBit, Nat.shiftLeft_eq]
  unfold unpack
  dsimp only
  split
  · rename_i hOnes
    have hFull : (unpackExponent b).toNat = 2047 := congrArg BitVec.toNat hOnes
    split
    · rename_i hZero
      have hEmpty : (unpackMantissa b).toNat = 0 := congrArg BitVec.toNat hZero
      simp only [UnpackedFloat.isInf, true_iff]
      omega
    · rename_i hNonzero
      have hNe : (unpackMantissa b).toNat ≠ 0 := fun hZero => hNonzero (BitVec.eq_of_toNat_eq hZero)
      simp only [UnpackedFloat.isInf, Bool.false_eq_true, false_iff]
      omega
  · rename_i hOnes
    have hNe : (unpackExponent b).toNat ≠ 2047 := fun hFull => hOnes (BitVec.eq_of_toNat_eq hFull)
    have hFinite : ¬b.toNat % (1 * 2 ^ 63) = 2047 * 2 ^ 52 := by omega
    simp only [hFinite, iff_false]
    split
    · split <;> simp [UnpackedFloat.isInf]
    · simp [UnpackedFloat.isInf]

theorem isInf_iff (x : Float) : x.isInf = true ↔ codeOf x = infinity :=
  isInf_unpack x.toBits.toBitVec

end Reckoner.Number
