import PromptCalc.Proofs.Rounding
import Mathlib

/-!
# Reading back

A decimal is read as the double in whose reading interval it lies. A coefficient of 53 bits with few
places is divided by a power of ten that is itself a double, and any other decimal is rounded from a
quotient of whole numbers. No decimal lies in the intervals of two magnitudes, and the shortest one
of a magnitude lies in its own. So it is read back as the double that it is written for.
-/
namespace PromptCalc

open Float.Model
open Float.Model.UnpackedFloat (Sign)

def Decimal.value (d : Decimal) : ℚ := d.coefficient / 10 ^ d.places

namespace Magnitude

variable {m : Magnitude} {d : Decimal}

/-- Quarters of the unit and the decimal, over a common denominator. -/
theorem exists_scale (m : Magnitude) (d : Decimal) :
    ∃ scale : ℚ, 0 < scale ∧
      (d.coefficient * m.readingInterval.denominator : ℕ) = d.value / 2 ^ m.exponent * scale ∧
      ∀ quarters : ℕ, (quarters * (⟨1, m.exponent - 2⟩ : Magnitude).numerator *
        Nat.pow 10 d.places : ℕ) = (quarters / 4 : ℚ) * scale := by
  obtain ⟨unit, hunit⟩ : ∃ n : ℕ, (⟨1, m.exponent - 2⟩ : Magnitude).numerator = n := ⟨_, rfl⟩
  have hpos : (0 : ℚ) < unit := by
    rw [← hunit]
    exact_mod_cast Nat.mul_pos Nat.one_pos (Nat.two_pow_pos _)
  have hfour : (unit * 4 : ℚ) = 2 ^ m.exponent * m.readingInterval.denominator := by
    have hexponents : ((m.exponent - 2).toNat + 2 : ℤ) =
        m.exponent + (-(m.exponent - 2)).toNat := by
      omega
    have hpowers := congrArg (fun e : ℤ => (2 : ℚ) ^ e) hexponents
    simp only [zpow_add₀ (two_ne_zero' ℚ), zpow_natCast] at hpowers
    rw [← hunit]
    simp only [numerator, readingInterval, denominator, Nat.pow_eq, Nat.one_mul]
    push_cast
    rw [← hpowers]
    norm_num
  refine ⟨4 * unit * 10 ^ d.places, by positivity, ?_, fun quarters => ?_⟩
  · rw [Decimal.value]
    push_cast
    field_simp
    linear_combination (-d.coefficient : ℚ) * hfour
  · rw [hunit, Nat.pow_eq]
    push_cast
    ring

theorem Reads.contains (h : m.Reads d.value) : m.readingInterval.contains d = true := by
  obtain ⟨scale, hpos, hpoint, hquarters⟩ := exists_scale m d
  have hlow : m.readingInterval.low * Nat.pow 10 d.places =
      (4 * m.mantissa - m.quartersBelow) * (⟨1, m.exponent - 2⟩ : Magnitude).numerator *
        Nat.pow 10 d.places := rfl
  have hhigh : m.readingInterval.high * Nat.pow 10 d.places =
      (4 * m.mantissa + 2) * (⟨1, m.exponent - 2⟩ : Magnitude).numerator *
        Nat.pow 10 d.places := rfl
  have hbelow := m.quartersBelow_le
  have hdown (hmantissa : m.mantissa ≠ 0) : ((4 * m.mantissa - m.quartersBelow : ℕ) / 4 : ℚ) =
      m.mantissa - m.quartersBelow / 4 := by
    rw [Nat.cast_sub (by omega)]
    push_cast
    ring
  have hup : ((4 * m.mantissa + 2 : ℕ) / 4 : ℚ) = m.mantissa + 1 / 2 := by
    push_cast
    ring
  unfold ReadingInterval.contains
  dsimp only
  rw [hlow, hhigh]
  split
  · rw [Bool.and_eq_true, decide_eq_true_eq, decide_eq_true_eq]
    constructor
    · by_cases hmantissa : m.mantissa = 0
      · rw [hmantissa]
        simp
      · rw [← @Nat.cast_le ℚ, hpoint, hquarters, hdown hmantissa]
        exact mul_le_mul_of_nonneg_right h.above hpos.le
    · rw [← @Nat.cast_le ℚ, hpoint, hquarters, hup]
      exact mul_le_mul_of_nonneg_right h.below hpos.le
  -- The ends belong to the interval of an even mantissa only.
  · next hopen =>
    have hodd : m.mantissa % 2 = 1 := by
      simpa [readingInterval] using hopen
    obtain ⟨habove, hbelow⟩ := h.strict hodd
    rw [Bool.and_eq_true, decide_eq_true_eq, decide_eq_true_eq]
    constructor
    · rw [← @Nat.cast_lt ℚ, hpoint, hquarters, hdown (by omega)]
      exact mul_lt_mul_of_pos_right habove hpos
    · rw [← @Nat.cast_lt ℚ, hpoint, hquarters, hup]
      exact mul_lt_mul_of_pos_right hbelow hpos

theorem Reads.unique {n : Magnitude} (hm : m.IsCanonical) (hn : n.IsCanonical)
    (h : m.Reads d.value) (h' : n.Reads d.value) : m = n :=
  eq_of_contains hm hn h.contains h'.contains

theorem reads_self (hm : m.IsCanonical) : m.Reads (m.mantissa * 2 ^ m.exponent) := by
  have hpower : (2 : ℚ) ^ m.exponent ≠ 0 := zpow_ne_zero _ two_ne_zero
  refine reads_of_nearest ?_ ?_ <;> rw [mul_div_cancel_right₀ _ hpower]
  · exact ⟨by linarith, by linarith, fun _ => ⟨by linarith, by linarith⟩⟩
  · exact hm.leading.imp_right Nat.cast_le.mpr

def zero : Magnitude := ⟨0, leastExponent⟩

theorem isCanonical_zero : zero.IsCanonical := ⟨by decide, Int.le_refl _, .inl rfl⟩

theorem IsCanonical.eq_zero (hm : m.IsCanonical) (h : m.mantissa = 0) : m = zero := by
  have hunit : 0 < Nat.pow 2 fractionBits := by decide
  have hexponent : m.exponent = leastExponent := hm.leading.resolve_right (by omega)
  obtain ⟨mantissa, exponent⟩ := m
  rw [zero, mk.injEq]
  exact ⟨h, hexponent⟩

theorem contains_shortest_of_isCanonical (hm : m.IsCanonical) :
    m.readingInterval.contains m.shortest = true := by
  by_cases hmantissa : m.mantissa = 0
  · rw [hm.eq_zero hmantissa]
    decide +kernel
  · exact contains_shortest hmantissa

theorem reads_zero {x : ℚ} (hnonneg : 0 ≤ x) (h : x ≤ 2 ^ (-1075 : ℤ)) : zero.Reads x := by
  have hunit : (2 : ℚ) ^ (-1075 : ℤ) = 1 / 2 * 2 ^ zero.exponent := by
    have hsucc : zero.exponent = -1075 + 1 := rfl
    rw [hsucc, zpow_add_one₀ two_ne_zero]
    ring
  have hpos : (0 : ℚ) < 2 ^ zero.exponent := zpow_pos two_pos _
  refine ⟨?_, ?_, fun hodd => absurd hodd (by decide)⟩
  · have hquarters : (0 : ℚ) ≤ zero.quartersBelow / 4 := by positivity
    have hvalue : 0 ≤ x / 2 ^ zero.exponent := by positivity
    have hmantissa : ((zero.mantissa : ℕ) : ℚ) = 0 := rfl
    linarith
  · rw [div_le_iff₀ hpos]
    have hmantissa : ((zero.mantissa : ℕ) : ℚ) = 0 := rfl
    rw [hmantissa, zero_add, ← hunit]
    exact h

end Magnitude

namespace Decimal

variable (d : Decimal)

theorem value_nonneg : 0 ≤ d.value := by
  unfold value
  positivity

theorem value_le_of_places (h : d.coefficient.log2 + 1076 ≤ d.places) :
    d.value ≤ 2 ^ (-1075 : ℤ) := by
  have hlog : (d.coefficient : ℚ) ≤ 2 ^ (d.coefficient.log2 + 1) := by
    exact_mod_cast Nat.lt_log2_self.le
  have hten : (2 : ℚ) ^ d.places ≤ 10 ^ d.places := by gcongr; norm_num
  calc
    d.value ≤ 2 ^ (d.coefficient.log2 + 1) / 2 ^ d.places := by
      unfold value
      gcongr
    _ = 2 ^ ((d.coefficient.log2 + 1 : ℕ) - (d.places : ℤ)) := by
      rw [zpow_sub₀ two_ne_zero, zpow_natCast, zpow_natCast]
    _ ≤ 2 ^ (-1075 : ℤ) := by
      refine zpow_le_zpow_right₀ one_le_two ?_
      omega

/-- As a quotient of whole numbers, a decimal is rounded to a double in whose interval it lies. -/
theorem exists_reads_ofScientific :
    ∃ m : Magnitude, m.IsCanonical ∧ m.Reads d.value ∧
      UnpackedFloat.ofScientific .binary64 d.coefficient (Int.negOfNat d.places) =
        m.unpacked .positive := by
  have hexponent : Int.negOfNat d.places = -(d.places : ℤ) := Int.negOfNat_eq
  rw [hexponent]
  unfold UnpackedFloat.ofScientific
  split
  · next hzero =>
    refine ⟨_, Magnitude.isCanonical_zero, Magnitude.reads_zero d.value_nonneg ?_, rfl⟩
    rw [value, hzero, Nat.cast_zero, zero_div]
    positivity
  · next hzero =>
    have hlimit : (2 : ℤ) ^ Format.binary64.exponentBits = 2048 := rfl
    have hpos : 0 < d.coefficient := Nat.pos_of_ne_zero hzero
    rw [hlimit, if_neg (by omega)]
    split
    -- With so many places the number is at most half the least double, and no quotient is taken.
    · refine ⟨_, Magnitude.isCanonical_zero, Magnitude.reads_zero d.value_nonneg ?_, rfl⟩
      exact d.value_le_of_places (by omega)
    · split
      · have hplaces : d.places = 0 := by omega
        have hshift : d.coefficient <<< Format.binary64.mantissaBits = d.coefficient * 2 ^ 53 :=
          Nat.shiftLeft_eq ..
        have hten : 10 ^ (-(d.places : ℤ)).toNat = 1 := by rw [hplaces]; rfl
        have hfull : 2 ^ 52 ≤ d.coefficient <<< Format.binary64.mantissaBits *
            10 ^ (-(d.places : ℤ)).toNat := by
          rw [hshift, hten]
          omega
        obtain ⟨m, hm, hreads, hmul⟩ := Magnitude.exists_reads_mul
          (-(Format.binary64.mantissaBits : ℤ)) 0 .positive .positive
          (Nat.pos_of_ne_zero (by rw [hshift]; omega)) (Nat.pow_pos (by decide)) hfull
        refine ⟨m, hm, ?_, hmul⟩
        have hvalue : d.value = (d.coefficient <<< Format.binary64.mantissaBits : ℕ) *
            2 ^ (-(Format.binary64.mantissaBits : ℤ)) *
            ((10 ^ (-(d.places : ℤ)).toNat : ℕ) * 2 ^ (0 : ℤ)) := by
          have hbits : (Format.binary64.mantissaBits : ℤ) = 53 := rfl
          have hcancel : (2 ^ 53 : ℚ) * 2 ^ (-53 : ℤ) = 1 := by norm_num
          rw [hshift, hten, value, hplaces, hbits, Nat.cast_mul, Nat.cast_pow, Nat.cast_two,
            mul_assoc (d.coefficient : ℚ), hcancel]
          norm_num
        rwa [hvalue]
      · have hten : 0 < 10 ^ (- -(d.places : ℤ)).toNat := Nat.pow_pos (by decide)
        obtain ⟨m, hm, hreads, hdiv⟩ := Magnitude.exists_reads_div 0 0 .positive .positive hpos hten
        refine ⟨m, hm, ?_, hdiv⟩
        have hvalue : d.value = d.coefficient * 2 ^ (0 : ℤ) /
            ((10 ^ (- -(d.places : ℤ)).toNat : ℕ) * 2 ^ (0 : ℤ)) := by
          rw [neg_neg, Int.toNat_natCast, value]
          simp
        rwa [hvalue]

end Decimal

section Exact

/-- The number is the double of a magnitude that is worth it exactly. -/
def IsExactly (x : Float) (v : ℚ) : Prop :=
  ∃ m : Magnitude, m.mantissa * (2 : ℚ) ^ m.exponent = v ∧ x.toModel.unpack = m.unpacked .positive

theorem Magnitude.mantissa_mul (m : Magnitude) :
    m.mantissa * (2 : ℚ) ^ m.exponent = m.numerator / m.denominator := by
  have hexponent : (2 : ℚ) ^ m.exponent = 2 ^ m.exponent.toNat / 2 ^ (-m.exponent).toNat := by
    rw [← zpow_natCast, ← zpow_natCast, ← zpow_sub₀ two_ne_zero]
    congr 1
    omega
  rw [hexponent, numerator, denominator, Nat.pow_eq, Nat.pow_eq]
  push_cast
  ring

theorem isExactly_of_ofFloat {x : Float} {n : ℕ}
    (h : (Magnitude.ofFloat x).exponent < Magnitude.exponentLimit)
    (hsign : Number.isNegative x = false)
    (hvalue : (Magnitude.ofFloat x).numerator = n * (Magnitude.ofFloat x).denominator) :
    IsExactly x n := by
  have hdenominator : (0 : ℚ) < (Magnitude.ofFloat x).denominator :=
    Nat.cast_pos.mpr (Nat.two_pow_pos _)
  refine ⟨Magnitude.ofFloat x, ?_, ?_⟩
  · rw [Magnitude.mantissa_mul, hvalue, Nat.cast_mul, mul_div_cancel_right₀ _ hdenominator.ne']
  · rw [Magnitude.unpack_toModel h, Number.sign, hsign]
    rfl

theorem isExactly_power (e : Fin 23) :
    IsExactly Float.exactlyRepresentablePowersOfTen[e] (10 ^ (e : ℕ) : ℕ) := by
  have hpower : ∀ e : Fin 23,
      (Magnitude.ofFloat Float.exactlyRepresentablePowersOfTen[e]).exponent <
        Magnitude.exponentLimit ∧
      Number.isNegative Float.exactlyRepresentablePowersOfTen[e] = false ∧
      (Magnitude.ofFloat Float.exactlyRepresentablePowersOfTen[e]).numerator =
        10 ^ (e : ℕ) *
          (Magnitude.ofFloat Float.exactlyRepresentablePowersOfTen[e]).denominator := by
    decide +kernel
  obtain ⟨hfinite, hsign, hvalue⟩ := hpower e
  exact isExactly_of_ofFloat hfinite hsign hvalue

theorem exists_reads_toFloat {n : ℕ} (h : n < 2 ^ 53) :
    ∃ m : Magnitude, m.IsCanonical ∧ m.Reads n ∧
      n.toUInt64.toFloat = m.double .positive := by
  have hn : n.toUInt64.toNat = n := by
    rw [UInt64.toNat_ofNat']
    omega
  have hfloat : n.toUInt64.toFloat =
      .ofModel (.pack (UnpackedFloat.normalize .binary64 n 0 .positive)) := by
    conv_rhs => rw [← hn]
    rfl
  by_cases hzero : n = 0
  · refine ⟨Magnitude.zero, Magnitude.isCanonical_zero, Magnitude.reads_zero (by positivity) ?_, ?_⟩
    · rw [hzero, Nat.cast_zero]
      positivity
    · rw [hzero]
      rfl
  · have hpos : 0 < n := Nat.pos_of_ne_zero hzero
    obtain ⟨m, hm, hreads, hround⟩ := Magnitude.exists_reads_round 0 .positive hpos
    rw [zpow_zero, mul_one] at hreads
    refine ⟨m, hm, hreads, ?_⟩
    have hcompare : compare (n : ℤ) 0 = .gt := Int.compare_eq_gt.mpr (by omega)
    rw [hfloat, UnpackedFloat.normalize, hcompare]
    dsimp only
    rw [Int.toNat_natCast, hround]
    rfl

theorem exists_exact {n : ℕ} (h : n < 2 ^ 53) :
    ∃ m : Magnitude, m.IsCanonical ∧ m.exponent < Magnitude.exponentLimit ∧
      m.mantissa * (2 : ℚ) ^ m.exponent = n := by
  by_cases hzero : n = 0
  · refine ⟨Magnitude.zero, Magnitude.isCanonical_zero, by decide, ?_⟩
    rw [hzero, Nat.cast_zero]
    exact zero_mul _
  · have hlog : n.log2 < 53 := (Nat.log2_lt hzero).mpr h
    have hunit : Nat.pow 2 Magnitude.fractionBits = 2 ^ 52 := rfl
    have hlow : 2 ^ 52 ≤ n * 2 ^ (52 - n.log2) := by
      calc
        2 ^ 52 = 2 ^ n.log2 * 2 ^ (52 - n.log2) := by rw [← pow_add]; congr 1; omega
        _ ≤ n * 2 ^ (52 - n.log2) := Nat.mul_le_mul_right _ (Nat.log2_self_le hzero)
    have hhigh : n * 2 ^ (52 - n.log2) < 2 ^ 53 := by
      calc
        n * 2 ^ (52 - n.log2) < 2 ^ (n.log2 + 1) * 2 ^ (52 - n.log2) :=
          Nat.mul_lt_mul_of_pos_right Nat.lt_log2_self (Nat.two_pow_pos _)
        _ = 2 ^ 53 := by rw [← pow_add]; congr 1; omega
    refine ⟨⟨n * 2 ^ (52 - n.log2), n.log2 - 52⟩, ⟨?_, ?_, .inr ?_⟩, ?_, ?_⟩ <;> dsimp only
    · rw [hunit]
      omega
    · rw [Magnitude.leastExponent]
      omega
    · rw [hunit]
      exact hlow
    · rw [Magnitude.exponentLimit]
      omega
    · have hexponent : (n.log2 - 52 : ℤ) = -(52 - n.log2 : ℕ) := by omega
      rw [hexponent, zpow_neg, zpow_natCast, Nat.cast_mul, Nat.cast_pow, Nat.cast_two,
        mul_inv_cancel_right₀ (pow_ne_zero _ two_ne_zero)]

theorem isExactly_toFloat {n : ℕ} (h : n < 2 ^ 53) : IsExactly n.toUInt64.toFloat n := by
  obtain ⟨m, hm, hreads, hfloat⟩ := exists_reads_toFloat h
  obtain ⟨exact, hexact, hlimit, hvalue⟩ := exists_exact h
  have hself := Magnitude.reads_self hexact
  have hdecimal : (⟨n, 0⟩ : Decimal).value = n := by
    rw [Decimal.value, pow_zero, div_one]
  rw [hvalue] at hself
  rw [← hdecimal] at hreads hself
  obtain rfl := hreads.unique hm hexact hself
  exact ⟨m, hvalue, by rw [hfloat, Magnitude.unpack_double hm hlimit]⟩

/-- The quotient of two doubles is the double that the exact quotient is rounded to. -/
theorem exists_reads_quotient {x y : Float} {v w : ℚ} (hx : IsExactly x v) (hy : IsExactly y w)
    (hw : w ≠ 0) :
    ∃ m : Magnitude, m.IsCanonical ∧ m.Reads (v / w) ∧ x / y = m.double .positive := by
  obtain ⟨m₁, rfl, hx⟩ := hx
  obtain ⟨m₂, rfl, hy⟩ := hy
  have hdiv : x / y = .ofModel (.pack (UnpackedFloat.div .binary64 (m₁.unpacked .positive)
      (m₂.unpacked .positive))) := by
    rw [← hx, ← hy]
    rfl
  have hpos₂ : 0 < m₂.mantissa := by
    refine Nat.pos_of_ne_zero fun hzero => hw ?_
    rw [hzero, Nat.cast_zero, zero_mul]
  have hfinite : m₂.unpacked .positive = .finite .positive m₂.mantissa m₂.exponent hpos₂ :=
    dif_neg hpos₂.ne'
  rw [hdiv, hfinite]
  by_cases hzero : m₁.mantissa = 0
  · refine ⟨Magnitude.zero, Magnitude.isCanonical_zero, ?_, ?_⟩
    · rw [hzero, Nat.cast_zero, zero_mul, zero_div]
      exact Magnitude.reads_zero le_rfl (by positivity)
    · rw [Magnitude.unpacked, dif_pos hzero]
      rfl
  · have hpos₁ : 0 < m₁.mantissa := Nat.pos_of_ne_zero hzero
    have hfinite : m₁.unpacked .positive = .finite .positive m₁.mantissa m₁.exponent hpos₁ :=
      dif_neg hzero
    obtain ⟨m, hm, hreads, hdiv⟩ :=
      Magnitude.exists_reads_div m₁.exponent m₂.exponent .positive .positive hpos₁ hpos₂
    refine ⟨m, hm, hreads, ?_⟩
    rw [hfinite, hdiv]
    rfl

end Exact

/-- A decimal is read as the double in whose interval it lies. -/
theorem Decimal.exists_reads_toFloat (d : Decimal) :
    ∃ m : Magnitude, m.IsCanonical ∧ m.Reads d.value ∧ d.toFloat = m.double .positive := by
  unfold toFloat Float.ofScientific
  split
  · next hfast =>
    have hpower := isExactly_power ⟨d.places, by omega⟩
    have hquotient := exists_reads_quotient (isExactly_toFloat hfast.1) hpower (by positivity)
    rw [Nat.cast_pow] at hquotient
    exact hquotient
  · obtain ⟨m, hm, hreads, hscientific⟩ := d.exists_reads_ofScientific
    exact ⟨m, hm, hreads, congrArg (fun u => Float.ofModel (.pack u)) hscientific⟩

theorem Magnitude.toFloat_shortest {m : Magnitude} (hm : m.IsCanonical) :
    m.shortest.toFloat = m.double .positive := by
  obtain ⟨n, hn, hreads, hfloat⟩ := m.shortest.exists_reads_toFloat
  rw [hfloat, eq_of_contains hn hm hreads.contains (contains_shortest_of_isCanonical hm)]

theorem Number.read?_sizeChars {x : Float} (h : x.isInf = false) :
    read? (String.ofList (sizeChars x)) = some ((Magnitude.ofFloat x).double .positive) := by
  have hm : (Magnitude.ofFloat x).IsCanonical := Magnitude.isCanonical_ofBits _
  have hsize : sizeChars x = (Magnitude.ofFloat x).shortest.chars := if_neg (by rw [h]; decide)
  rw [hsize, read?, String.toList_ofList, Decimal.ofNumeral?_chars, Option.map_some,
    Magnitude.toFloat_shortest hm]

end PromptCalc
