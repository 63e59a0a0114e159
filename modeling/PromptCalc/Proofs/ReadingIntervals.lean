import PromptCalc.Number

/-!
# Reading intervals

The intervals of numbers that are read back as one double or another do not meet: where two of them
share an end, it belongs to one double at most. The shortest decimal of a double lies in its
interval, so that a double is known from its shortest decimal.
-/
namespace PromptCalc

namespace ReadingInterval

variable {i : ReadingInterval} {d : Decimal}

theorem bounds_of_contains (h : i.contains d = true) :
    i.low * Nat.pow 10 d.places ≤ d.coefficient * i.denominator ∧
      d.coefficient * i.denominator ≤ i.high * Nat.pow 10 d.places := by
  unfold contains at h
  dsimp only at h
  split at h <;> simp only [Bool.and_eq_true, decide_eq_true_eq] at h <;> omega

theorem strict_of_contains (h : i.contains d = true) (hopen : i.closed = false) :
    i.low * Nat.pow 10 d.places < d.coefficient * i.denominator ∧
      d.coefficient * i.denominator < i.high * Nat.pow 10 d.places := by
  simpa [contains, hopen] using h

theorem contains_of_lt (hlow : i.low * Nat.pow 10 d.places < d.coefficient * i.denominator)
    (hhigh : d.coefficient * i.denominator < i.high * Nat.pow 10 d.places) :
    i.contains d = true := by
  unfold contains
  dsimp only
  split <;> simp only [Bool.and_eq_true, decide_eq_true_eq] <;> omega

theorem contains_of_onGrid? {p : Int} (h : i.onGrid? p = some d) : i.contains d = true := by
  unfold onGrid? at h
  dsimp only at h
  split at h
  · next hbelow habove =>
    split at h <;> obtain rfl := Option.some.inj h <;> assumption
  · next hbelow _ =>
    obtain rfl := Option.some.inj h
    exact hbelow
  · next habove =>
    obtain rfl := Option.some.inj h
    exact habove
  · cases h

end ReadingInterval

namespace Magnitude

/-- The magnitude has the mantissa and the exponent of a double: 53 bits at most, and all of them
unless the exponent is the least one. -/
structure IsCanonical (m : Magnitude) : Prop where
  mantissa_lt : m.mantissa < 2 * Nat.pow 2 fractionBits
  exponent_le : leastExponent ≤ m.exponent
  leading : m.exponent = leastExponent ∨ Nat.pow 2 fractionBits ≤ m.mantissa

theorem isCanonical_ofBits (bits : Nat) : (ofBits bits).IsCanonical := by
  have hlt : bits % Nat.pow 2 fractionBits < Nat.pow 2 fractionBits := Nat.mod_lt _ (by decide)
  unfold ofBits
  dsimp only
  split
  · exact ⟨by dsimp only; omega, Int.le_refl _, .inl rfl⟩
  · refine ⟨?_, ?_, .inr ?_⟩ <;> dsimp only <;> omega

/-- How many quarters of the least unit make a quarter of the power of two. Intervals are measured
in them. -/
def quarters (exponent : Int) : Nat := Nat.pow 2 (exponent - leastExponent).toNat

/-- How many quarters the interval reaches below the magnitude. -/
def quartersBelow (m : Magnitude) : Nat :=
  if m.mantissa = Nat.pow 2 fractionBits ∧ leastExponent < m.exponent then 1 else 2

def lowEnd (m : Magnitude) : Nat := (4 * m.mantissa - m.quartersBelow) * quarters m.exponent

def highEnd (m : Magnitude) : Nat := (4 * m.mantissa + 2) * quarters m.exponent

/-- The order of canonical magnitudes, by exponent and then by mantissa. -/
def Precedes (m n : Magnitude) : Prop :=
  m.exponent < n.exponent ∨ m.exponent = n.exponent ∧ m.mantissa < n.mantissa

variable {m n : Magnitude} {d : Decimal}

theorem quartersBelow_le (m : Magnitude) : m.quartersBelow ≤ 2 := by
  unfold quartersBelow
  split <;> decide

theorem quarters_pos (exponent : Int) : 0 < quarters exponent := Nat.two_pow_pos _

theorem quarter_mul_denominator (h : leastExponent ≤ m.exponent) :
    (⟨1, m.exponent - 2⟩ : Magnitude).numerator * quarters 2 =
      quarters m.exponent * m.readingInterval.denominator := by
  have hleast : leastExponent = -1074 := rfl
  have hexponents : (m.exponent - 2).toNat + (2 - leastExponent).toNat =
      (m.exponent - leastExponent).toNat + (-(m.exponent - 2)).toNat := by
    omega
  simp only [numerator, readingInterval, denominator, quarters, Nat.one_mul, Nat.pow_eq]
  rw [← Nat.pow_add, ← Nat.pow_add, hexponents]

theorem low_mul (h : leastExponent ≤ m.exponent) :
    m.readingInterval.low * quarters 2 = m.lowEnd * m.readingInterval.denominator := by
  rw [lowEnd, Nat.mul_assoc, ← quarter_mul_denominator h, ← Nat.mul_assoc]
  rfl

theorem high_mul (h : leastExponent ≤ m.exponent) :
    m.readingInterval.high * quarters 2 = m.highEnd * m.readingInterval.denominator := by
  rw [highEnd, Nat.mul_assoc, ← quarter_mul_denominator h, ← Nat.mul_assoc]
  rfl

theorem denominator_pos (m : Magnitude) : 0 < m.readingInterval.denominator := Nat.two_pow_pos _

theorem rescale_le_iff {a b c s t den : Nat} (hden : 0 < den) (hs : 0 < s)
    (ha : a * s = b * den) :
    (a * t ≤ c * den ↔ b * t ≤ c * s) ∧ (c * den ≤ a * t ↔ c * s ≤ b * t) := by
  have hend : a * t * s = b * t * den := by
    rw [Nat.mul_right_comm, ha, Nat.mul_right_comm]
  have hpoint : c * den * s = c * s * den := Nat.mul_right_comm ..
  constructor
  · rw [← Nat.mul_le_mul_right_iff hs, hend, hpoint, Nat.mul_le_mul_right_iff hden]
  · rw [← Nat.mul_le_mul_right_iff hs, hend, hpoint, Nat.mul_le_mul_right_iff hden]

/-- A decimal in the interval is between its ends, and it is neither of them if the mantissa is
odd. -/
theorem bounds_of_contains (hm : m.IsCanonical) (h : m.readingInterval.contains d = true) :
    (m.lowEnd * Nat.pow 10 d.places ≤ d.coefficient * quarters 2 ∧
      d.coefficient * quarters 2 ≤ m.highEnd * Nat.pow 10 d.places) ∧
    (m.mantissa % 2 = 1 → m.lowEnd * Nat.pow 10 d.places < d.coefficient * quarters 2 ∧
      d.coefficient * quarters 2 < m.highEnd * Nat.pow 10 d.places) := by
  have hlow := @rescale_le_iff _ _ d.coefficient _ (Nat.pow 10 d.places) _ m.denominator_pos
    (quarters_pos 2) (low_mul hm.exponent_le)
  have hhigh := @rescale_le_iff _ _ d.coefficient _ (Nat.pow 10 d.places) _ m.denominator_pos
    (quarters_pos 2) (high_mul hm.exponent_le)
  have hbounds := ReadingInterval.bounds_of_contains h
  refine ⟨⟨hlow.1.mp hbounds.1, hhigh.2.mp hbounds.2⟩, fun hodd => ?_⟩
  have hopen : m.readingInterval.closed = false := by simp [readingInterval, hodd]
  have hstrict := ReadingInterval.strict_of_contains h hopen
  exact ⟨Nat.lt_of_not_le fun hle => Nat.not_lt.mpr (hlow.2.mpr hle) hstrict.1,
    Nat.lt_of_not_le fun hle => Nat.not_lt.mpr (hhigh.1.mpr hle) hstrict.2⟩

/-- The interval of a smaller magnitude ends before that of a larger one begins, or where it begins
if one of the mantissas is odd. -/
theorem highEnd_le_lowEnd (hm : m.IsCanonical) (hn : n.IsCanonical) (h : m.Precedes n) :
    m.highEnd ≤ n.lowEnd ∧
      (m.highEnd = n.lowEnd → m.mantissa % 2 = 1 ∨ n.mantissa % 2 = 1) := by
  have hlt := hm.mantissa_lt
  have hleast := hm.exponent_le
  have hpos := quarters_pos m.exponent
  have hbelow := n.quartersBelow_le
  rcases h with h | ⟨hexponent, h⟩
  · -- The larger magnitude has a leading one, and its quarters are twice as wide or wider.
    have hleading : Nat.pow 2 fractionBits ≤ n.mantissa := by
      have hcases := hn.leading
      omega
    have hquarters : 4 * m.mantissa + 2 ≤ (4 * n.mantissa - n.quartersBelow) * 2 ∧
        (4 * m.mantissa + 2 = (4 * n.mantissa - n.quartersBelow) * 2 → m.mantissa % 2 = 1) := by
      have hunit : Nat.pow 2 fractionBits = 2 ^ 52 := rfl
      unfold quartersBelow
      split <;> omega
    have hquarter : quarters m.exponent * 2 ≤ quarters n.exponent := by
      have hsucc : (m.exponent - leastExponent).toNat + 1 ≤ (n.exponent - leastExponent).toNat := by
        omega
      exact Nat.pow_le_pow_right Nat.two_pos hsucc
    have hle : (4 * n.mantissa - n.quartersBelow) * 2 * quarters m.exponent ≤ n.lowEnd := by
      rw [lowEnd, Nat.mul_assoc, Nat.mul_comm 2]
      exact Nat.mul_le_mul_left _ hquarter
    refine ⟨Nat.le_trans (Nat.mul_le_mul_right _ hquarters.1) hle, fun heq =>
      .inl (hquarters.2 ?_)⟩
    refine Nat.le_antisymm hquarters.1 (Nat.le_of_mul_le_mul_right ?_ hpos)
    rw [← highEnd, heq]
    exact hle
  · have hlow : n.lowEnd = (4 * n.mantissa - n.quartersBelow) * quarters m.exponent := by
      rw [lowEnd, hexponent]
    rw [hlow]
    refine ⟨Nat.mul_le_mul_right _ (by omega), fun heq => ?_⟩
    have hends := Nat.eq_of_mul_eq_mul_right hpos heq
    omega

theorem precedes_of_ne (h : m ≠ n) : m.Precedes n ∨ n.Precedes m := by
  obtain ⟨a, e⟩ := m
  obtain ⟨b, f⟩ := n
  rw [ne_eq, mk.injEq] at h
  unfold Precedes
  dsimp only
  omega

/-- A decimal in two intervals would be the end that they share, and one of them is open. -/
theorem Precedes.not_contains (h : m.Precedes n) (hm : m.IsCanonical) (hn : n.IsCanonical)
    (hcontains : m.readingInterval.contains d = true) :
    ¬ n.readingInterval.contains d = true := by
  intro hcontains'
  obtain ⟨hends, hodd⟩ := highEnd_le_lowEnd hm hn h
  obtain ⟨⟨-, hhigh⟩, hopen⟩ := bounds_of_contains hm hcontains
  obtain ⟨⟨hlow, -⟩, hopen'⟩ := bounds_of_contains hn hcontains'
  have hten : 0 < Nat.pow 10 d.places := Nat.pow_pos (by decide)
  have hshared : m.highEnd = n.lowEnd :=
    Nat.le_antisymm hends (Nat.le_of_mul_le_mul_right (Nat.le_trans hlow hhigh) hten)
  rw [hshared] at hhigh
  rcases hodd hshared with hodd | hodd
  · have hstrict := (hopen hodd).2
    rw [hshared] at hstrict
    omega
  · have hstrict := (hopen' hodd).1
    omega

theorem eq_of_contains (hm : m.IsCanonical) (hn : n.IsCanonical)
    (h : m.readingInterval.contains d = true) (h' : n.readingInterval.contains d = true) :
    m = n := by
  by_cases heq : m = n
  · exact heq
  · rcases precedes_of_ne heq with hprecedes | hprecedes
    · exact absurd h' (hprecedes.not_contains hm hn h)
    · exact absurd h (hprecedes.not_contains hn hm h')

def exact (m : Magnitude) : Decimal :=
  ⟨m.numerator * Nat.pow 5 (-m.exponent).toNat, (-m.exponent).toNat⟩

theorem quarters_exact (m : Magnitude) :
    4 * m.mantissa * (⟨1, m.exponent - 2⟩ : Magnitude).numerator * Nat.pow 10 m.exact.places =
      m.exact.coefficient * m.readingInterval.denominator := by
  have hexponents : 2 + (m.exponent - 2).toNat + (-m.exponent).toNat =
      m.exponent.toNat + (-(m.exponent - 2)).toNat := by
    omega
  have hpowers : 2 ^ 2 * 2 ^ (m.exponent - 2).toNat * 2 ^ (-m.exponent).toNat =
      2 ^ m.exponent.toNat * 2 ^ (-(m.exponent - 2)).toNat := by
    rw [← Nat.pow_add, ← Nat.pow_add, ← Nat.pow_add, hexponents]
  have hten : 10 ^ (-m.exponent).toNat = 2 ^ (-m.exponent).toNat * 5 ^ (-m.exponent).toNat :=
    Nat.mul_pow 2 5 _
  simp only [exact, numerator, readingInterval, denominator, Nat.pow_eq, Nat.one_mul, hten]
  calc
    4 * m.mantissa * 2 ^ (m.exponent - 2).toNat *
        (2 ^ (-m.exponent).toNat * 5 ^ (-m.exponent).toNat) =
      m.mantissa * (2 ^ 2 * 2 ^ (m.exponent - 2).toNat * 2 ^ (-m.exponent).toNat) *
        5 ^ (-m.exponent).toNat := by
      have hfour : 2 ^ 2 = 4 := rfl
      rw [hfour]
      ac_rfl
    _ = m.mantissa * 2 ^ m.exponent.toNat * 5 ^ (-m.exponent).toNat *
        2 ^ (-(m.exponent - 2)).toNat := by
      rw [hpowers]
      ac_rfl

theorem contains_exact (h : m.mantissa ≠ 0) : m.readingInterval.contains m.exact = true := by
  have hbelow : 0 < m.quartersBelow := by
    unfold quartersBelow
    split <;> decide
  have hquarter : 0 < (⟨1, m.exponent - 2⟩ : Magnitude).numerator :=
    Nat.mul_pos Nat.one_pos (Nat.pow_pos Nat.two_pos)
  have hten : 0 < Nat.pow 10 m.exact.places := Nat.pow_pos (by decide)
  refine ReadingInterval.contains_of_lt ?_ ?_ <;> rw [← quarters_exact]
  · have hlow : 4 * m.mantissa - m.quartersBelow < 4 * m.mantissa := by omega
    exact Nat.mul_lt_mul_of_pos_right (Nat.mul_lt_mul_of_pos_right hlow hquarter) hten
  · have hhigh : 4 * m.mantissa < 4 * m.mantissa + 2 := by omega
    exact Nat.mul_lt_mul_of_pos_right (Nat.mul_lt_mul_of_pos_right hhigh hquarter) hten

theorem contains_shortest (h : m.mantissa ≠ 0) : m.readingInterval.contains m.shortest = true := by
  unfold shortest
  rw [if_neg h]
  dsimp only
  generalize hfound : List.findSome? _ _ = found
  cases found with
  | some d =>
    obtain ⟨k, -, hk⟩ := List.exists_of_findSome?_eq_some hfound
    exact ReadingInterval.contains_of_onGrid? hk
  | none => exact contains_exact h

theorem shortest_zero (h : m.mantissa = 0) : m.shortest = ⟨0, 0⟩ := if_pos h

theorem shortest_ne_zero (hm : m.IsCanonical) (h : m.mantissa ≠ 0) : m.shortest ≠ ⟨0, 0⟩ := by
  intro hzero
  have hcontains := contains_shortest h
  rw [hzero] at hcontains
  have hlow := (bounds_of_contains hm hcontains).1.1
  have hpos : 0 < m.lowEnd := by
    have hbelow := m.quartersBelow_le
    exact Nat.mul_pos (by omega) (quarters_pos m.exponent)
  simp only [Nat.zero_mul, Nat.pow_eq, Nat.pow_zero, Nat.mul_one] at hlow
  omega

/-- A magnitude is known from its shortest decimal. -/
theorem eq_of_shortest_eq (hm : m.IsCanonical) (hn : n.IsCanonical)
    (h : m.shortest = n.shortest) : m = n := by
  by_cases hzero : m.mantissa = 0
  · have hzero' : n.mantissa = 0 := by
      by_cases hzero' : n.mantissa = 0
      · exact hzero'
      · exact absurd (h ▸ shortest_zero hzero) (shortest_ne_zero hn hzero')
    obtain ⟨a, e⟩ := m
    obtain ⟨b, f⟩ := n
    have hleast := hm.leading
    have hleast' := hn.leading
    have hunit : 0 < Nat.pow 2 fractionBits := by decide
    dsimp only at hzero hzero' hleast hleast'
    rw [mk.injEq]
    omega
  · have hcontains := contains_shortest hzero
    by_cases hzero' : n.mantissa = 0
    · exact absurd (h.trans (shortest_zero hzero')) (shortest_ne_zero hm hzero)
    · rw [h] at hcontains
      exact eq_of_contains hm hn hcontains (contains_shortest hzero')

end Magnitude

end PromptCalc
