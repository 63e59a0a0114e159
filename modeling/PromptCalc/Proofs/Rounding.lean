import PromptCalc.Proofs.Packing
import Mathlib

/-!
# Rounding to a double

A double is rounded to from a whole number of units of a power of two, and from what is told of the
rest: whether it is none, less than half a unit, just half a unit or more. Shifting such a number to
a wider unit tells what is needed of its rest again. So the double that comes out of the rounding is
the nearest one, with the even mantissa of two equally near, and the number lies in its reading
interval.
-/
namespace PromptCalc

open Float.Model
open Float.Model.UnpackedFloat (ExtendedMantissa Accuracy Sign)

/-- The mantissa is the whole part of the value, the round bit tells whether another half is in it,
and the sticky bit whether anything is left then. -/
structure Represents (em : ExtendedMantissa) (v : ℚ) : Prop where
  le : em.mantissa + em.roundBit.toNat / 2 ≤ v
  lt : v < em.mantissa + em.roundBit.toNat / 2 + 1 / 2
  sticky : em.stickyBit = false ↔ v = em.mantissa + em.roundBit.toNat / 2

/-- The whole number is nearest to the value, and even if another one is as near. -/
structure Nearest (v : ℚ) (n : ℕ) : Prop where
  above : n - 1 / 2 ≤ v
  below : v ≤ n + 1 / 2
  strict : n % 2 = 1 → n - 1 / 2 < v ∧ v < n + 1 / 2

namespace Represents

variable {em : ExtendedMantissa} {v : ℚ}

theorem roundBit_le (em : ExtendedMantissa) : (em.roundBit.toNat : ℚ) ≤ 1 := by
  exact_mod_cast Bool.toNat_le em.roundBit

theorem mantissa_le (h : Represents em v) : em.mantissa ≤ v := by
  have hround : (0 : ℚ) ≤ em.roundBit.toNat := Nat.cast_nonneg _
  linarith [h.le]

theorem lt_succ (h : Represents em v) : v < em.mantissa + 1 := by
  linarith [h.lt, roundBit_le em]

theorem shiftRightOne (h : Represents em v) : Represents em.shiftRightOne (v / 2) := by
  have hbit : (em.mantissa % 2 != 0).toNat = em.mantissa % 2 := by
    rcases Nat.mod_two_eq_zero_or_one em.mantissa with hbit | hbit <;> rw [hbit] <;> rfl
  have hparts : (em.mantissa : ℚ) = 2 * (em.mantissa / 2 : ℕ) + (em.mantissa % 2 : ℕ) := by
    exact_mod_cast (Nat.div_add_mod em.mantissa 2).symm
  have hle := h.mantissa_le
  have hlt := h.lt_succ
  refine ⟨?_, ?_, ?_⟩ <;> simp only [ExtendedMantissa.shiftRightOne, hbit]
  · linarith
  · linarith
  · rw [Bool.or_eq_false_iff, h.sticky]
    constructor
    · rintro ⟨hround, hv⟩
      rw [hround, Bool.toNat_false, Nat.cast_zero] at hv
      linarith
    · intro hv
      have hround : em.roundBit = false := by
        cases hbit : em.roundBit with
        | false => rfl
        | true =>
          have hhalf := h.le
          rw [hbit, Bool.toNat_true, Nat.cast_one] at hhalf
          linarith
      refine ⟨hround, ?_⟩
      rw [hround, Bool.toNat_false, Nat.cast_zero]
      linarith

theorem shiftRight (h : Represents em v) (n : ℕ) : Represents (em >>> n) (v / 2 ^ n) := by
  induction n with
  | zero =>
    rw [pow_zero, div_one]
    exact h
  | succ n ih =>
    have hstep := ih.shiftRightOne
    rw [div_div, ← pow_succ] at hstep
    exact hstep

theorem mantissa_shiftRight (em : ExtendedMantissa) (n : ℕ) :
    (em >>> n).mantissa = em.mantissa / 2 ^ n := by
  induction n with
  | zero => exact (Nat.div_one _).symm
  | succ n ih =>
    have hstep : (em >>> (n + 1)).mantissa = (em >>> n).mantissa / 2 := rfl
    rw [hstep, ih, Nat.div_div_eq_div_mul, ← pow_succ]

theorem roundedMantissa_bounds (em : ExtendedMantissa) :
    em.mantissa ≤ em.roundedMantissa ∧ em.roundedMantissa ≤ em.mantissa + 1 := by
  obtain ⟨mantissa, roundBit, stickyBit⟩ := em
  cases roundBit <;> cases stickyBit <;>
    simp only [ExtendedMantissa.roundedMantissa, ExtendedMantissa.accuracy,
      Accuracy.roundToNearestEven] <;>
    omega

theorem nearest (h : Represents em v) : Nearest v em.roundedMantissa := by
  obtain ⟨hle, hlt, hsticky⟩ := h
  obtain ⟨mantissa, roundBit, stickyBit⟩ := em
  cases roundBit <;> cases stickyBit <;>
    simp only [ExtendedMantissa.roundedMantissa, ExtendedMantissa.accuracy,
      Accuracy.roundToNearestEven, Bool.toNat_true, Bool.toNat_false, Nat.cast_zero, Nat.cast_one,
      true_iff, reduceCtorEq, false_iff] at *
  · exact ⟨by linarith, by linarith, fun _ => ⟨by linarith, by linarith⟩⟩
  · exact ⟨by linarith, by linarith, fun _ => ⟨by linarith, by linarith⟩⟩
  · rcases Nat.mod_two_eq_zero_or_one mantissa with heven | hodd
    · rw [heven, Nat.add_zero]
      exact ⟨by linarith, by linarith, fun hodd => by omega⟩
    · rw [hodd]
      exact ⟨by push_cast; linarith, by push_cast; linarith, fun hodd => by omega⟩
  · have hne : (mantissa : ℚ) + 1 / 2 < v := lt_of_le_of_ne hle (Ne.symm hsticky)
    exact ⟨by push_cast; linarith, by push_cast; linarith,
      fun _ => ⟨by push_cast; linarith, by push_cast; linarith⟩⟩

theorem ofMantissaAndAccuracy_exact (n : ℕ) :
    Represents (.ofMantissaAndAccuracy n .exact) n := by
  refine ⟨?_, ?_, ?_⟩ <;> simp [ExtendedMantissa.ofMantissaAndAccuracy]

/-- A fraction is told by twice its numerator, compared with its denominator. -/
theorem ofMantissaAndAccuracy_fraction (n : ℕ) {numerator denominator : ℕ}
    (h : numerator < denominator) :
    Represents (.ofMantissaAndAccuracy n (UnpackedFloat.accuracyOfFraction numerator denominator))
      (n + numerator / denominator) := by
  have hpos : (0 : ℚ) < denominator := Nat.cast_pos.mpr (Nat.zero_lt_of_lt h)
  have hone : (numerator / denominator : ℚ) < 1 := (div_lt_one hpos).mpr (Nat.cast_lt.mpr h)
  have htwice : (2 * numerator : ℕ) = (numerator / denominator : ℚ) * 2 * denominator := by
    rw [mul_right_comm, div_mul_cancel₀ _ hpos.ne', Nat.cast_mul, Nat.cast_two, mul_comm]
  unfold UnpackedFloat.accuracyOfFraction
  split
  · next hzero =>
    simpa [hzero] using ofMantissaAndAccuracy_exact n
  · next hzero =>
    have hfraction : (0 : ℚ) < numerator / denominator :=
      div_pos (Nat.cast_pos.mpr (Nat.pos_of_ne_zero hzero)) hpos
    generalize (numerator / denominator : ℚ) = fraction at *
    cases hcompare : compare (2 * numerator) denominator with
    | lt =>
      have hhalf : fraction * 2 * denominator < 1 * denominator := by
        rw [← htwice, one_mul]
        exact_mod_cast Nat.compare_eq_lt.mp hcompare
      have hlt := lt_of_mul_lt_mul_right hhalf hpos.le
      exact ⟨by simpa [ExtendedMantissa.ofMantissaAndAccuracy] using hfraction.le,
        by simp [ExtendedMantissa.ofMantissaAndAccuracy]; linarith,
        by simp [ExtendedMantissa.ofMantissaAndAccuracy]; exact hfraction.ne'⟩
    | eq =>
      have hhalf : fraction * 2 * denominator = 1 * denominator := by
        rw [← htwice, one_mul]
        exact_mod_cast Nat.compare_eq_eq.mp hcompare
      have heq : fraction = 1 / 2 := by linarith [mul_right_cancel₀ hpos.ne' hhalf]
      subst heq
      exact ⟨by simp [ExtendedMantissa.ofMantissaAndAccuracy],
        by simp [ExtendedMantissa.ofMantissaAndAccuracy],
        by simp [ExtendedMantissa.ofMantissaAndAccuracy]⟩
    | gt =>
      have hhalf : 1 * denominator < fraction * 2 * denominator := by
        rw [← htwice, one_mul]
        exact_mod_cast Nat.compare_eq_gt.mp hcompare
      have hlt := lt_of_mul_lt_mul_right hhalf hpos.le
      exact ⟨by simp [ExtendedMantissa.ofMantissaAndAccuracy]; linarith,
        by simp [ExtendedMantissa.ofMantissaAndAccuracy]; linarith,
        by simp [ExtendedMantissa.ofMantissaAndAccuracy]; linarith⟩

/-- A quotient with a rest is told by twice the rest, compared with the divisor. -/
theorem ofMantissaAndAccuracy_quotient (numerator : ℕ) {denominator : ℕ} (h : 0 < denominator) :
    Represents (.ofMantissaAndAccuracy (numerator / denominator)
      (UnpackedFloat.accuracyOfFraction (numerator % denominator) denominator))
      (numerator / denominator) := by
  have hpos : (denominator : ℚ) ≠ 0 := Nat.cast_ne_zero.mpr h.ne'
  have hdiv : (numerator : ℚ) =
      denominator * (numerator / denominator : ℕ) + (numerator % denominator : ℕ) := by
    exact_mod_cast (Nat.div_add_mod numerator denominator).symm
  have hparts : (numerator / denominator : ℚ) = (numerator / denominator : ℕ) +
      ((numerator % denominator : ℕ) / denominator : ℚ) := by
    rw [div_eq_iff hpos, add_mul, div_mul_cancel₀ _ hpos, mul_comm]
    exact hdiv
  rw [hparts]
  exact ofMantissaAndAccuracy_fraction _ (Nat.mod_lt _ h)

end Represents

namespace Magnitude

/-- The number lies in the reading interval of the magnitude. -/
structure Reads (m : Magnitude) (x : ℚ) : Prop where
  above : m.mantissa - m.quartersBelow / 4 ≤ x / 2 ^ m.exponent
  below : x / 2 ^ m.exponent ≤ m.mantissa + 1 / 2
  strict : m.mantissa % 2 = 1 → m.mantissa - m.quartersBelow / 4 < x / 2 ^ m.exponent ∧
    x / 2 ^ m.exponent < m.mantissa + 1 / 2

/-- The magnitude of a rounded mantissa. One of 54 bits is a power of two, and is halved. -/
def carried (mantissa : ℕ) (exponent : ℤ) : Magnitude :=
  if mantissa = 2 ^ 53 then ⟨2 ^ 52, exponent + 1⟩ else ⟨mantissa, exponent⟩

theorem targetExponent_eq (mantissa : ℕ) (exponent : ℤ) :
    Format.binary64.targetExponent (totalExponent mantissa exponent) =
      max (mantissa.log2 + exponent - 52) leastExponent := by
  simp only [Format.targetExponent, totalExponent, Format.mantissaBits, Format.minExponent,
    leastExponent]
  omega

theorem quartersBelow_of_mantissa {m : Magnitude} (hm : m.mantissa = 2 ^ 52)
    (h : leastExponent < m.exponent) : m.quartersBelow = 1 :=
  if_pos ⟨hm, h⟩

theorem quartersBelow_cases (m : Magnitude) :
    m.quartersBelow = 2 ∨
      m.quartersBelow = 1 ∧ m.mantissa = 2 ^ 52 ∧ leastExponent < m.exponent := by
  unfold quartersBelow
  split
  · next h => exact .inr ⟨rfl, h⟩
  · exact .inl rfl

/-- A mantissa of 53 bits, or of fewer for the least exponent, that is nearest to a number has this
number in its interval. -/
theorem reads_of_nearest {m : Magnitude} {x : ℚ} (h : Nearest (x / 2 ^ m.exponent) m.mantissa)
    (hleading : m.exponent = leastExponent ∨ ((2 ^ 52 : ℕ) : ℚ) ≤ x / 2 ^ m.exponent) :
    m.Reads x := by
  rcases m.quartersBelow_cases with hquarters | ⟨hquarters, hmantissa, hexponent⟩
  · have hhalf : ((2 : ℕ) / 4 : ℚ) = 1 / 2 := by norm_num
    refine ⟨?_, h.below, fun hodd => ?_⟩ <;> rw [hquarters, hhalf]
    · exact h.above
    · exact h.strict hodd
  · have hle := hleading.resolve_left hexponent.ne'
    refine ⟨?_, h.below, fun hodd => ?_⟩
    · rw [hquarters, hmantissa]
      have hquarter : (0 : ℚ) ≤ (1 : ℕ) / 4 := by positivity
      linarith
    · rw [hmantissa] at hodd
      omega

/-- A power of two that is nearest to a number in half its unit has this number in its interval. -/
theorem reads_of_nearest_double {m : Magnitude} {x : ℚ} (hmantissa : m.mantissa = 2 ^ 52)
    (h : Nearest (x / 2 ^ (m.exponent - 1)) (2 ^ 53)) (hexponent : leastExponent < m.exponent) :
    m.Reads x := by
  have hhalf : x / 2 ^ (m.exponent - 1) = 2 * (x / 2 ^ m.exponent) := by
    rw [zpow_sub_one₀ two_ne_zero]
    field_simp
  obtain ⟨habove, hbelow, -⟩ := h
  rw [hhalf] at habove hbelow
  push_cast at habove hbelow
  refine ⟨?_, ?_, fun hodd => ?_⟩
  · rw [quartersBelow_of_mantissa hmantissa hexponent, hmantissa]
    push_cast
    linarith
  · rw [hmantissa]
    push_cast
    linarith
  · rw [hmantissa] at hodd
    omega

theorem carried_reads {x : ℚ} {r : ℕ} {t : ℤ} (hnearest : Nearest (x / 2 ^ t) r)
    (hle : r ≤ 2 ^ 53) (hleast : leastExponent ≤ t)
    (hleading : t = leastExponent ∨ ((2 ^ 52 : ℕ) : ℚ) ≤ x / 2 ^ t ∧ 2 ^ 52 ≤ r) :
    (carried r t).IsCanonical ∧ (carried r t).Reads x := by
  have hunit : Nat.pow 2 fractionBits = 2 ^ 52 := rfl
  unfold carried
  split
  · next hcarry =>
    have hexponent : leastExponent < t + 1 := Int.lt_add_one_of_le hleast
    refine ⟨⟨?_, hexponent.le, .inr hunit.le⟩, reads_of_nearest_double rfl ?_ hexponent⟩
    · dsimp only
      omega
    · dsimp only
      rw [add_sub_cancel_right, ← hcarry]
      exact hnearest
  · next hcarry =>
    refine ⟨⟨?_, hleast, hleading.imp_right And.right⟩,
      reads_of_nearest hnearest (hleading.imp_right And.left)⟩
    dsimp only
    omega

/-- A rounded mantissa is shifted once more if it has 54 bits. -/
theorem shiftToTargetExponent_eq {r : ℕ} {t : ℤ} (hle : r ≤ 2 ^ 53) (hleast : leastExponent ≤ t) :
    UnpackedFloat.shiftToTargetExponent .binary64 r t .exact =
      (⟨(carried r t).mantissa, false, false⟩, (carried r t).exponent) := by
  unfold UnpackedFloat.shiftToTargetExponent UnpackedFloat.shiftToExponent carried
  dsimp only
  rw [targetExponent_eq]
  split
  · next hcarry =>
    have hlog : r.log2 = 53 := by rw [hcarry, Nat.log2_two_pow]
    have hshift : (max ((r.log2 : ℤ) + t - 52) leastExponent - t).toNat = 1 := by
      omega
    have hhalf : (ExtendedMantissa.ofMantissaAndAccuracy r .exact >>> 1 : ExtendedMantissa) =
        ⟨r / 2, r % 2 != 0, false⟩ := rfl
    rw [hshift, hhalf, hcarry]
    norm_num
  · next hcarry =>
    have hlog : r.log2 ≤ 52 := by
      by_cases hzero : r = 0
      · rw [hzero]
        decide
      · exact Nat.lt_succ_iff.mp ((Nat.log2_lt hzero).mpr (by omega))
    have hshift : (max ((r.log2 : ℤ) + t - 52) leastExponent - t).toNat = 0 := by
      omega
    rw [hshift, Nat.cast_zero, add_zero]
    rfl

/-- Rounding takes the nearest mantissa for the exponent that the leading bit asks for. -/
theorem roundWithAccuracy_eq (s : Sign) {mantissa : ℕ} {exponent t : ℤ} {accuracy : Accuracy}
    (ht : Format.binary64.targetExponent (totalExponent mantissa exponent) = t)
    (hexponent : exponent ≤ t)
    (hle : (ExtendedMantissa.ofMantissaAndAccuracy mantissa accuracy >>>
      (t - exponent).toNat).roundedMantissa ≤ 2 ^ 53) :
    UnpackedFloat.roundWithAccuracy .binary64 s mantissa exponent accuracy =
      (carried (ExtendedMantissa.ofMantissaAndAccuracy mantissa accuracy >>>
        (t - exponent).toNat).roundedMantissa t).unpacked s := by
  have hleast : leastExponent ≤ t := by
    rw [← ht, targetExponent_eq]
    exact le_max_right _ _
  have hshifted : exponent + (t - exponent).toNat = t := by omega
  have hfirst : UnpackedFloat.shiftToTargetExponent .binary64 mantissa exponent accuracy =
      (ExtendedMantissa.ofMantissaAndAccuracy mantissa accuracy >>> (t - exponent).toNat, t) := by
    unfold UnpackedFloat.shiftToTargetExponent UnpackedFloat.shiftToExponent
    dsimp only
    rw [ht, hshifted]
  unfold UnpackedFloat.roundWithAccuracy unpacked
  rw [hfirst]
  dsimp only
  rw [shiftToTargetExponent_eq hle hleast]

theorem mantissa_shifted (mantissa n : ℕ) (accuracy : Accuracy) :
    (ExtendedMantissa.ofMantissaAndAccuracy mantissa accuracy >>> n).mantissa =
      mantissa / 2 ^ n := by
  rw [Represents.mantissa_shiftRight]
  cases accuracy with
  | exact => rfl
  | inexact order => cases order <;> rfl

/-- The double that a number is rounded to has this number in its reading interval. The number must
be given in a unit that is not too wide. -/
theorem exists_reads_roundWithAccuracy (s : Sign) {x : ℚ} {mantissa : ℕ} {exponent : ℤ}
    {accuracy : Accuracy}
    (h : Represents (.ofMantissaAndAccuracy mantissa accuracy) (x / 2 ^ exponent))
    (hexponent : exponent ≤ leastExponent ∨ 2 ^ 52 ≤ mantissa) :
    ∃ m : Magnitude, m.IsCanonical ∧ m.Reads x ∧
      UnpackedFloat.roundWithAccuracy .binary64 s mantissa exponent accuracy = m.unpacked s := by
  obtain ⟨t, htarget⟩ :
      ∃ t, Format.binary64.targetExponent (totalExponent mantissa exponent) = t := ⟨_, rfl⟩
  have ht := htarget
  rw [targetExponent_eq] at ht
  have hlog : exponent ≤ leastExponent ∨ 52 ≤ mantissa.log2 :=
    hexponent.imp_right fun h => (Nat.le_log2 (by omega)).mpr h
  obtain ⟨n, hn⟩ : ∃ n : ℕ, t = exponent + n := ⟨(t - exponent).toNat, by omega⟩
  have hshift : (t - exponent).toNat = n := by omega
  have hrepresents := h.shiftRight n
  rw [div_div, ← zpow_natCast, ← zpow_add₀ two_ne_zero, ← hn] at hrepresents
  have hmantissa := mantissa_shifted mantissa n accuracy
  have hlt : mantissa / 2 ^ n < 2 ^ 53 := by
    rw [Nat.div_lt_iff_lt_mul (Nat.two_pow_pos n), ← pow_add]
    exact Nat.lt_of_lt_of_le Nat.lt_log2_self (Nat.pow_le_pow_right Nat.two_pos (by omega))
  have hleading : t = leastExponent ∨ 2 ^ 52 ≤ mantissa / 2 ^ n := by
    rw [or_iff_not_imp_left]
    intro hleast
    have hzero : mantissa ≠ 0 := by
      rintro rfl
      rw [Nat.log2_zero] at *
      omega
    rw [Nat.le_div_iff_mul_le (Nat.two_pow_pos n), ← pow_add]
    exact Nat.le_trans (Nat.pow_le_pow_right Nat.two_pos (by omega)) (Nat.log2_self_le hzero)
  generalize hem : ExtendedMantissa.ofMantissaAndAccuracy mantissa accuracy >>> n = em at *
  have hbounds := Represents.roundedMantissa_bounds em
  have hround := roundWithAccuracy_eq s htarget (by omega) (by rw [hshift, hem]; omega)
  rw [hshift, hem] at hround
  rw [← hmantissa] at hlt hleading
  have hleading' : t = leastExponent ∨
      ((2 ^ 52 : ℕ) : ℚ) ≤ x / 2 ^ t ∧ 2 ^ 52 ≤ em.roundedMantissa :=
    hleading.imp_right fun h => ⟨(Nat.cast_le.mpr h).trans hrepresents.mantissa_le, by omega⟩
  obtain ⟨hcanonical, hreads⟩ :=
    carried_reads hrepresents.nearest (by omega) (by omega) hleading'
  exact ⟨_, hcanonical, hreads, hround⟩

section Operations

variable {m₁ m₂ : ℕ} (e₁ e₂ : ℤ)

theorem exists_reads_div (s₁ s₂ : Sign) (h₁ : 0 < m₁) (h₂ : 0 < m₂) :
    ∃ m : Magnitude, m.IsCanonical ∧ m.Reads (m₁ * 2 ^ e₁ / (m₂ * 2 ^ e₂)) ∧
      UnpackedFloat.div .binary64 (.finite s₁ m₁ e₁ h₁) (.finite s₂ m₂ e₂ h₂) =
        m.unpacked (s₁ / s₂) := by
  obtain ⟨t, ht⟩ : ∃ t, min (e₁ - e₂)
      (Format.binary64.targetExponent (totalExponent m₁ e₁ - totalExponent m₂ e₂)) = t := ⟨_, rfl⟩
  obtain ⟨n, hn⟩ : ∃ n : ℕ, (e₁ - e₂ - t).toNat = n := ⟨_, rfl⟩
  have hdiv : UnpackedFloat.div .binary64 (.finite s₁ m₁ e₁ h₁) (.finite s₂ m₂ e₂ h₂) =
      UnpackedFloat.roundWithAccuracy .binary64 (s₁ / s₂) (m₁ * 2 ^ n / m₂) t
        (UnpackedFloat.accuracyOfFraction (m₁ * 2 ^ n % m₂) m₂) := by
    unfold UnpackedFloat.div UnpackedFloat.divCore
    dsimp only
    rw [ht, hn, Nat.shiftLeft_eq]
  have ht' : t = min (e₁ - e₂) (max ((m₁.log2 : ℤ) + e₁ - (m₂.log2 + e₂) - 53) leastExponent) := by
    rw [← ht]
    simp only [Format.targetExponent, totalExponent, Format.mantissaBits, Format.minExponent,
      leastExponent]
    omega
  have hvalue : (m₁ * 2 ^ e₁ / (m₂ * 2 ^ e₂) / 2 ^ t : ℚ) = (m₁ * 2 ^ n : ℕ) / (m₂ : ℕ) := by
    have hexponents : (2 : ℚ) ^ e₁ = 2 ^ e₂ * 2 ^ t * 2 ^ n := by
      rw [← zpow_natCast, ← zpow_add₀ two_ne_zero, ← zpow_add₀ two_ne_zero]
      congr 1
      omega
    rw [hexponents]
    push_cast
    field_simp
  rw [hdiv]
  refine exists_reads_roundWithAccuracy _ ?_ ?_
  · rw [hvalue]
    exact Represents.ofMantissaAndAccuracy_quotient _ h₂
  · rw [or_iff_not_imp_left, Nat.le_div_iff_mul_le h₂]
    intro hleast
    have hlog : 53 + m₂.log2 ≤ m₁.log2 + n := by omega
    calc
      2 ^ 52 * m₂ ≤ 2 ^ 52 * 2 ^ (m₂.log2 + 1) := Nat.mul_le_mul_left _ Nat.lt_log2_self.le
      _ = 2 ^ (53 + m₂.log2) := by rw [← pow_add]; congr 1; omega
      _ ≤ 2 ^ (m₁.log2 + n) := Nat.pow_le_pow_right Nat.two_pos hlog
      _ = 2 ^ m₁.log2 * 2 ^ n := pow_add ..
      _ ≤ m₁ * 2 ^ n := Nat.mul_le_mul_right _ (Nat.log2_self_le h₁.ne')

theorem exists_reads_mul (s₁ s₂ : Sign) (h₁ : 0 < m₁) (h₂ : 0 < m₂) (h : 2 ^ 52 ≤ m₁ * m₂) :
    ∃ m : Magnitude, m.IsCanonical ∧ m.Reads (m₁ * 2 ^ e₁ * (m₂ * 2 ^ e₂)) ∧
      UnpackedFloat.mul .binary64 (.finite s₁ m₁ e₁ h₁) (.finite s₂ m₂ e₂ h₂) =
        m.unpacked (s₁ * s₂) := by
  have hvalue : (m₁ * 2 ^ e₁ * (m₂ * 2 ^ e₂) / 2 ^ (e₁ + e₂) : ℚ) = (m₁ * m₂ : ℕ) := by
    rw [zpow_add₀ two_ne_zero]
    push_cast
    field_simp
  refine exists_reads_roundWithAccuracy _ ?_ (.inr h)
  rw [hvalue]
  exact Represents.ofMantissaAndAccuracy_exact _

theorem exists_reads_round (s : Sign) (h : 0 < m₁) :
    ∃ m : Magnitude, m.IsCanonical ∧ m.Reads (m₁ * 2 ^ e₁) ∧
      UnpackedFloat.round .binary64 s m₁ e₁ = m.unpacked s := by
  obtain ⟨t, ht⟩ : ∃ t, Format.binary64.targetExponent (totalExponent m₁ e₁) = t := ⟨_, rfl⟩
  obtain ⟨n, hn⟩ : ∃ n : ℕ, (e₁ - t).toNat = n := ⟨_, rfl⟩
  have hround : UnpackedFloat.round .binary64 s m₁ e₁ =
      UnpackedFloat.roundWithAccuracy .binary64 s (m₁ * 2 ^ n) (e₁ - n) .exact := by
    unfold UnpackedFloat.round UnpackedFloat.decreaseExponent
    dsimp only
    rw [ht, hn, Nat.shiftLeft_eq]
  have hvalue : (m₁ * 2 ^ e₁ / 2 ^ (e₁ - n : ℤ) : ℚ) = (m₁ * 2 ^ n : ℕ) := by
    rw [zpow_sub₀ two_ne_zero, zpow_natCast]
    push_cast
    field_simp
  rw [targetExponent_eq] at ht
  rw [hround]
  refine exists_reads_roundWithAccuracy _ ?_ ?_
  · rw [hvalue]
    exact Represents.ofMantissaAndAccuracy_exact _
  · rw [or_iff_not_imp_left]
    intro hleast
    calc
      2 ^ 52 ≤ 2 ^ (m₁.log2 + n) := Nat.pow_le_pow_right Nat.two_pos (by omega)
      _ = 2 ^ m₁.log2 * 2 ^ n := pow_add ..
      _ ≤ m₁ * 2 ^ n := Nat.mul_le_mul_right _ (Nat.log2_self_le h.ne')

end Operations

end Magnitude

end PromptCalc
