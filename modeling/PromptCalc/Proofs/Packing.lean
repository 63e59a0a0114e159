import PromptCalc.Proofs.Rendering
import Mathlib

/-!
# Packing

The bits of a double are a sign, an exponent and a mantissa, one above the other. A finite double is
unpacked to its sign and its magnitude, and a canonical magnitude below the limit is packed to a
double that has it. So a finite double is known from its sign and its magnitude.
-/
namespace PromptCalc

open Float.Model
open Float.Model.UnpackedFloat (Sign)

def Number.sign (x : Float) : Sign := if isNegative x then .negative else .positive

theorem Number.isFinite_iff {x : Float} :
    x.isFinite = true ↔ x.isNaN = false ∧ x.isInf = false := by
  have hfinite : x.isFinite = x.toModel.unpack.isFinite := rfl
  have hnan : x.isNaN = x.toModel.unpack.isNaN := rfl
  have hinf : x.isInf = x.toModel.unpack.isInf := rfl
  rw [hfinite, hnan, hinf]
  cases x.toModel.unpack <;> simp [UnpackedFloat.isFinite, UnpackedFloat.isNaN, UnpackedFloat.isInf]

namespace Magnitude

/-- The magnitude under a sign, in the form that arithmetic works on. -/
def unpacked (s : Sign) (m : Magnitude) : UnpackedFloat :=
  if h : m.mantissa = 0 then .zero s
  else .finite s m.mantissa m.exponent (Nat.pos_of_ne_zero h)

theorem toNat_append {k n : ℕ} (high : BitVec k) (low : BitVec n) :
    (high ++ low).toNat = high.toNat * 2 ^ n + low.toNat := by
  rw [BitVec.toNat_append, ← Nat.shiftLeft_add_eq_or_of_lt low.isLt, Nat.shiftLeft_eq]

section Fields

variable (b : BitVec 64)

theorem toNat_unpackExponent :
    (@UnpackedFloat.unpackExponent .binary64 b).toNat = b.toNat / 2 ^ 52 % 2 ^ 11 := by
  simp [UnpackedFloat.unpackExponent, Nat.shiftRight_eq_div_pow]

theorem toNat_unpackMantissa :
    (@UnpackedFloat.unpackMantissa .binary64 b).toNat = b.toNat % 2 ^ 52 := by
  simp [UnpackedFloat.unpackMantissa]

theorem toNat_unpackSign :
    (@UnpackedFloat.unpackSign .binary64 b).toNat = b.toNat / 2 ^ 63 := by
  have hlt : b.toNat < 2 ^ 64 := b.isLt
  simp [UnpackedFloat.unpackSign, Nat.shiftRight_eq_div_pow]
  omega

end Fields

/-- The exponent of the largest doubles is below it. -/
def exponentLimit : ℤ := 972

theorem ofBits_eq (bits : ℕ) :
    ofBits bits = if bits / 2 ^ 52 % 2 ^ 11 = 0 then ⟨bits % 2 ^ 52, leastExponent⟩
      else ⟨2 ^ 52 + bits % 2 ^ 52, leastExponent + (bits / 2 ^ 52 % 2 ^ 11 - 1 : ℕ)⟩ := by
  have hunit : Nat.pow 2 fractionBits = 2 ^ 52 := rfl
  have hfield : Nat.pow 2 11 = 2 ^ 11 := rfl
  simp only [ofBits, hunit, hfield]
  cases bits / 2 ^ 52 % 2 ^ 11 <;> simp

theorem ofBitVec_unpackSign (x : Float) :
    Sign.ofBitVec (@UnpackedFloat.unpackSign .binary64 x.toBits.toBitVec) = Number.sign x := by
  have hsign := toNat_unpackSign x.toBits.toBitVec
  have hpower : Nat.pow 2 63 = 2 ^ 63 := rfl
  rw [Number.sign, Number.isNegative, hpower, ← UInt64.toNat_toBitVec, ← hsign]
  rcases BitVec.eq_zero_or_eq_one (@UnpackedFloat.unpackSign .binary64 x.toBits.toBitVec) with
    hbit | hbit <;> rw [hbit] <;> rfl

/-- The exponent of infinite numbers and of NaN has all of its bits set. -/
theorem exponent_ofBits_lt_iff (bits : ℕ) :
    (ofBits bits).exponent < exponentLimit ↔ bits / 2 ^ 52 % 2 ^ 11 ≠ 2047 := by
  rw [ofBits_eq, exponentLimit]
  simp only [leastExponent]
  split <;> dsimp only <;> omega

theorem unpackExponent_eq_ones_iff (b : BitVec 64) :
    @UnpackedFloat.unpackExponent .binary64 b = -1#_ ↔ b.toNat / 2 ^ 52 % 2 ^ 11 = 2047 := by
  rw [← toNat_unpackExponent]
  exact ⟨fun h => by rw [h]; rfl, fun h => BitVec.eq_of_toNat_eq h⟩

theorem unpack_eq {b : BitVec 64} (h : b.toNat / 2 ^ 52 % 2 ^ 11 ≠ 2047) :
    UnpackedFloat.unpack .binary64 b =
      (ofBits b.toNat).unpacked (.ofBitVec (@UnpackedFloat.unpackSign .binary64 b)) := by
  have hexponent := toNat_unpackExponent b
  have hmantissa := toNat_unpackMantissa b
  unfold UnpackedFloat.unpack unpacked
  dsimp only
  rw [if_neg (mt (unpackExponent_eq_ones_iff b).mp h), ofBits_eq]
  -- The leading bit of the mantissa is left out of the bits, unless the exponent there is zero.
  by_cases hfield : @UnpackedFloat.unpackExponent .binary64 b = 0#_
  · have hzero : b.toNat / 2 ^ 52 % 2 ^ 11 = 0 := by rw [← hexponent, hfield]; rfl
    rw [if_pos hfield, if_pos hzero]
    by_cases hfraction : @UnpackedFloat.unpackMantissa .binary64 b = 0#_
    · have hnone : b.toNat % 2 ^ 52 = 0 := by rw [← hmantissa, hfraction]; rfl
      rw [dif_pos hfraction, dif_pos hnone]
    · have hsome : b.toNat % 2 ^ 52 ≠ 0 := by
        rw [← hmantissa]
        exact fun h => hfraction (BitVec.eq_of_toNat_eq h)
      rw [dif_neg hfraction, dif_neg hsome]
      simp only [UnpackedFloat.finite.injEq, true_and]
      refine ⟨hmantissa, ?_⟩
      rw [hexponent, hzero]
      rfl
  · have hnonzero : b.toNat / 2 ^ 52 % 2 ^ 11 ≠ 0 := by
      rw [← hexponent]
      exact fun h => hfield (BitVec.eq_of_toNat_eq h)
    have hsome : 2 ^ 52 + b.toNat % 2 ^ 52 ≠ 0 := by omega
    have hleading : (1#1 ++ @UnpackedFloat.unpackMantissa .binary64 b).toNat =
        2 ^ 52 + b.toNat % 2 ^ 52 := by
      rw [toNat_append, hmantissa]
      rfl
    rw [if_neg hfield, if_neg hnonzero, dif_neg hsome]
    simp only [UnpackedFloat.finite.injEq, true_and]
    refine ⟨hleading, ?_⟩
    rw [hexponent]
    simp only [Format.exponentBias, leastExponent]
    omega

/-- A finite double is unpacked to its sign and its magnitude. -/
theorem unpack_toModel {x : Float} (h : (ofFloat x).exponent < exponentLimit) :
    x.toModel.unpack = (ofFloat x).unpacked (Number.sign x) := by
  rw [← ofBitVec_unpackSign]
  exact unpack_eq ((exponent_ofBits_lt_iff _).mp h)

theorem toNat_packComponents (s : Sign) (exponent : BitVec 11) (mantissa : BitVec 52) :
    (UnpackedFloat.packComponents .binary64 s exponent mantissa).toNat =
      s.toBitVec.toNat * 2 ^ 63 + exponent.toNat * 2 ^ 52 + mantissa.toNat := by
  rw [UnpackedFloat.packComponents, toNat_append, toNat_append]
  ring

variable {m : Magnitude}

def biased (m : Magnitude) : ℕ := if m.mantissa < 2 ^ 52 then 0 else (m.exponent + 1075).toNat

theorem toNat_pack (hm : m.IsCanonical) (h : m.exponent < exponentLimit) (s : Sign) :
    (UnpackedFloat.pack .binary64 (m.unpacked s)).toNat =
      s.toBitVec.toNat * 2 ^ 63 + m.biased * 2 ^ 52 + m.mantissa % 2 ^ 52 := by
  have hunit : Nat.pow 2 fractionBits = 2 ^ 52 := rfl
  obtain ⟨hlt, hleast, hleading⟩ := hm
  rw [hunit] at hlt hleading
  simp only [exponentLimit, leastExponent] at h hleast hleading
  unfold unpacked
  split
  · next hzero =>
    have hbiased : m.biased = 0 := by rw [biased, hzero]; rfl
    rw [UnpackedFloat.pack, UnpackedFloat.packedZero, toNat_packComponents, hzero, hbiased]
    rfl
  · next hzero =>
    have hfits : (m.exponent + Format.binary64.exponentBias + (52 : ℕ)).toNat =
        (m.exponent + 1075).toNat := by
      simp only [Format.exponentBias]
      omega
    rw [UnpackedFloat.pack]
    dsimp only
    rw [hfits, if_neg (by norm_num; omega)]
    by_cases hnormal : m.mantissa < 2 ^ 52
    · have hlog : m.mantissa.log2 < 52 := (Nat.log2_lt hzero).mpr hnormal
      have hbiased : m.biased = 0 := if_pos hnormal
      rw [if_neg (by simp only [Format.mantissaBits]; omega), toNat_packComponents, hbiased]
      simp
    · have hlog : m.mantissa.log2 = 52 :=
        (Nat.log2_eq_iff hzero).mpr ⟨Nat.not_lt.mp hnormal, hlt⟩
      have hbiased : m.biased = (m.exponent + 1075).toNat := if_neg hnormal
      rw [if_pos (by rw [hlog]; rfl), toNat_packComponents, hbiased]
      simp
      omega

def double (s : Sign) (m : Magnitude) : Float := .ofModel (.pack (m.unpacked s))

theorem toNat_toBits_double (hm : m.IsCanonical) (h : m.exponent < exponentLimit) (s : Sign) :
    (m.double s).toBits.toNat =
      s.toBitVec.toNat * 2 ^ 63 + m.biased * 2 ^ 52 + m.mantissa % 2 ^ 52 :=
  toNat_pack hm h s

theorem biased_lt (h : m.exponent < exponentLimit) : m.biased < 2047 := by
  rw [exponentLimit] at h
  unfold biased
  split <;> omega

theorem ofFloat_double (hm : m.IsCanonical) (h : m.exponent < exponentLimit) (s : Sign) :
    ofFloat (m.double s) = m := by
  have hbits := toNat_toBits_double hm h s
  have hsign : s.toBitVec.toNat < 2 := s.toBitVec.isLt
  have hbiased := biased_lt h
  have hfields : (m.double s).toBits.toNat / 2 ^ 52 % 2 ^ 11 = m.biased ∧
      (m.double s).toBits.toNat % 2 ^ 52 = m.mantissa % 2 ^ 52 := by
    omega
  have hunit : Nat.pow 2 fractionBits = 2 ^ 52 := rfl
  obtain ⟨hlt, hleast, hleading⟩ := hm
  rw [hunit] at hlt hleading
  rw [ofFloat, ofBits_eq, hfields.1, hfields.2]
  obtain ⟨mantissa, exponent⟩ := m
  simp only [biased, leastExponent] at *
  split <;> split <;> simp only [mk.injEq] <;> omega

theorem isNegative_double (hm : m.IsCanonical) (h : m.exponent < exponentLimit) (s : Sign) :
    Number.isNegative (m.double s) = (s == .negative) := by
  have hbits := toNat_toBits_double hm h s
  have hbiased := biased_lt h
  have hpower : Nat.pow 2 63 = 2 ^ 63 := rfl
  have hsign : (m.double s).toBits.toNat / 2 ^ 63 = s.toBitVec.toNat := by
    omega
  rw [Number.isNegative, hpower, hsign]
  cases s <;> rfl

theorem exponent_lt_of_isFinite {x : Float} (h : x.isFinite = true) :
    (ofFloat x).exponent < exponentLimit := by
  have hunpacked : (UnpackedFloat.unpack .binary64 x.toBits.toBitVec).isFinite = true := h
  refine (exponent_ofBits_lt_iff _).mpr fun hfield => ?_
  simp only [UnpackedFloat.unpack, (unpackExponent_eq_ones_iff _).mpr hfield, if_true] at hunpacked
  split at hunpacked <;> cases hunpacked

theorem sign_double (hm : m.IsCanonical) (h : m.exponent < exponentLimit) (s : Sign) :
    Number.sign (m.double s) = s := by
  rw [Number.sign, isNegative_double hm h]
  cases s <;> rfl

theorem unpack_double (hm : m.IsCanonical) (h : m.exponent < exponentLimit) (s : Sign) :
    (m.double s).toModel.unpack = m.unpacked s := by
  have hmagnitude := ofFloat_double hm h s
  rw [unpack_toModel (by rwa [hmagnitude]), hmagnitude, sign_double hm h]

/-- A finite number is the double of its sign and its magnitude. -/
theorem double_ofFloat {x : Float} (h : (ofFloat x).exponent < exponentLimit) :
    (ofFloat x).double (Number.sign x) = x := by
  have hm : (ofFloat x).IsCanonical := isCanonical_ofBits _
  refine Number.eq_of_ofFloat_eq ?_ (ofFloat_double hm h _)
  rw [isNegative_double hm h, Number.sign]
  cases Number.isNegative x <;> rfl

end Magnitude

end PromptCalc
