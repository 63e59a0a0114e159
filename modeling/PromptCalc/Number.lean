/-!
# Numbers

How the numbers of the calculator are written and read. A number is written in full, with as many
digits as tell it from every other number, or rounded to a fixed number of places, up to a limit.
Neither form uses an exponent: a decimal is positional at any size. The sign of zero is written,
that of a NaN is not.
-/
namespace PromptCalc

/-! ## Decimals -/

/-- The number `coefficient / 10 ^ places`. -/
structure Decimal where
  coefficient : Nat
  places : Nat
  deriving DecidableEq, Repr

namespace Decimal

/-- The digits of a number, with zeros before them up to the given width. -/
def padded (width n : Nat) : List Char := List.leftpad width '0' (Nat.toDigits 10 n)

def chars (d : Decimal) : List Char :=
  match d.places with
  | 0 => Nat.toDigits 10 d.coefficient
  | places + 1 =>
    let unit := Nat.pow 10 (places + 1)
    Nat.toDigits 10 (d.coefficient / unit) ++ '.' :: padded (places + 1) (d.coefficient % unit)

def text (d : Decimal) : String := String.ofList d.chars

def isDigits (cs : List Char) : Bool := cs ≠ [] && cs.all Char.isDigit

/-- Reads digits, or digits, a dot and digits. -/
def ofNumeral? (cs : List Char) : Option Decimal :=
  let whole := cs.takeWhile Char.isDigit
  match whole, cs.dropWhile Char.isDigit with
  | [], _ => none
  | whole, [] => some ⟨Nat.ofDigitChars 10 whole 0, 0⟩
  | whole, '.' :: part =>
    if isDigits part then some ⟨Nat.ofDigitChars 10 (whole ++ part) 0, part.length⟩ else none
  | _, _ :: _ => none

/-- The double nearest to a decimal, of two equally near the one with the even mantissa. -/
def toFloat (d : Decimal) : Float := Float.ofScientific d.coefficient true d.places

theorem isDigits_toDigits (n : Nat) : isDigits (Nat.toDigits 10 n) = true := by
  simp only [isDigits, Bool.and_eq_true, decide_eq_true_eq, List.all_eq_true]
  exact ⟨Nat.toDigits_ne_nil, fun c hc => Nat.isDigit_of_mem_toDigits (by decide) (by decide) hc⟩

theorem isDigits_padded (width n : Nat) : isDigits (padded width n) = true := by
  have h := isDigits_toDigits n
  simp only [isDigits, Bool.and_eq_true, decide_eq_true_eq, List.all_eq_true] at h ⊢
  refine ⟨by simp [padded, List.leftpad, h.1], fun c hc => ?_⟩
  rcases List.mem_append.mp hc with hzero | hdigit
  · rw [List.eq_of_mem_replicate hzero]
    rfl
  · exact h.2 c hdigit

theorem length_padded {width n : Nat} (hn : n < Nat.pow 10 width) (hw : 0 < width) :
    (padded width n).length = width := by
  have h := (Nat.length_toDigits_le_iff (b := 10) (by decide) hw).mpr hn
  rw [padded, List.length_leftpad]
  omega

theorem ofDigitChars_replicate_zero (k : Nat) :
    Nat.ofDigitChars 10 (List.replicate k '0') 0 = 0 := by
  induction k with
  | zero => rfl
  | succ k ih => rw [List.replicate_succ, Nat.ofDigitChars_cons]; exact ih

theorem ofDigitChars_padded (width n : Nat) : Nat.ofDigitChars 10 (padded width n) 0 = n := by
  rw [padded, List.leftpad, Nat.ofDigitChars_append, ofDigitChars_replicate_zero]
  exact Nat.ofDigitChars_toDigits (by decide) (by decide)

theorem takeWhile_digits_append {a b : List Char} (ha : isDigits a = true)
    (hb : ∀ c ∈ b.head?, c.isDigit = false) :
    (a ++ b).takeWhile Char.isDigit = a ∧ (a ++ b).dropWhile Char.isDigit = b := by
  simp only [isDigits, Bool.and_eq_true, List.all_eq_true] at ha
  rw [List.takeWhile_append_of_pos ha.2, List.dropWhile_append_of_pos ha.2]
  cases b with
  | nil => simp
  | cons c cs => simp [hb c (by simp)]

theorem ofNumeral?_digits {cs : List Char} (h : isDigits cs = true) :
    ofNumeral? cs = some ⟨Nat.ofDigitChars 10 cs 0, 0⟩ := by
  have hcut := takeWhile_digits_append (b := []) h (by simp)
  rw [List.append_nil] at hcut
  cases cs with
  | nil => simp [isDigits] at h
  | cons c cs => simp only [ofNumeral?, hcut.1, hcut.2]

theorem ofNumeral?_point {whole part : List Char} (hw : isDigits whole = true)
    (hp : isDigits part = true) :
    ofNumeral? (whole ++ '.' :: part) =
      some ⟨Nat.ofDigitChars 10 (whole ++ part) 0, part.length⟩ := by
  have hcut := takeWhile_digits_append (b := '.' :: part) hw (by simp)
  cases whole with
  | nil => simp [isDigits] at hw
  | cons c cs => simp only [ofNumeral?, hcut.1, hcut.2, hp, if_true]

/-- What is written for a decimal reads back as that decimal, places included. -/
theorem ofNumeral?_chars (d : Decimal) : ofNumeral? d.chars = some d := by
  obtain ⟨n, _ | k⟩ := d
  · rw [chars, ofNumeral?_digits (isDigits_toDigits n),
      Nat.ofDigitChars_toDigits (by decide) (by decide)]
  · have hlt : n % Nat.pow 10 (k + 1) < Nat.pow 10 (k + 1) :=
      Nat.mod_lt _ (Nat.pow_pos (by decide))
    have hlen := length_padded hlt (Nat.succ_pos k)
    rw [chars, ofNumeral?_point (isDigits_toDigits _) (isDigits_padded _ _), hlen,
      Nat.ofDigitChars_append, Nat.ofDigitChars_toDigits (by decide) (by decide),
      Nat.ofDigitChars_eq_ofDigitChars_zero, hlen, ofDigitChars_padded]
    exact congrArg (fun m => some (Decimal.mk m (k + 1))) (Nat.div_add_mod n (Nat.pow 10 (k + 1)))

end Decimal

/-! ## Magnitudes

The absolute value of a finite double is a whole number of units of a power of two. It is taken
from the bits of the double: below the sign, eleven bits of exponent and 52 bits of fraction. -/

/-- The number `mantissa * 2 ^ exponent`. -/
structure Magnitude where
  mantissa : Nat
  exponent : Int
  deriving DecidableEq, Repr

namespace Magnitude

def fractionBits : Nat := 52

/-- The exponent of the smallest doubles, which have no leading one. -/
def leastExponent : Int := -1074

/-- The magnitude of the finite double with the given bits. -/
def ofBits (bits : Nat) : Magnitude :=
  let unit := Nat.pow 2 fractionBits
  match bits / unit % Nat.pow 2 11 with
  | 0 => ⟨bits % unit, leastExponent⟩
  | biased + 1 => ⟨unit + bits % unit, leastExponent + biased⟩

def ofFloat (x : Float) : Magnitude := ofBits x.toBits.toNat

/-- A magnitude as a fraction: numerator and denominator. -/
def numerator (m : Magnitude) : Nat := m.mantissa * Nat.pow 2 m.exponent.toNat

def denominator (m : Magnitude) : Nat := Nat.pow 2 (-m.exponent).toNat

/-- A power of two that is above the magnitude, as an exponent. -/
def bound (m : Magnitude) : Int := m.mantissa.log2 + 1 + m.exponent

end Magnitude

/-! ## Shortest decimals

The decimal written for a double is the shortest of those that are read back as that double, and
of the shortest ones the nearest to it. The decimals of `n` units of `10 ^ p` form a grid, and the
coarsest grid with a point in the interval of reading back gives the answer. On each grid only the
two neighbours of the double have to be tried. -/

/-- The numbers that are read back as one double, from `low` to `high` over a common denominator.
The ends belong to the double if and only if the interval is closed. -/
structure ReadingInterval where
  low : Nat
  value : Nat
  high : Nat
  denominator : Nat
  closed : Bool
  deriving DecidableEq, Repr

namespace Magnitude

/-- The interval reaches half way to the neighbouring doubles. Below a power of two the next double
is at half the distance. An end is read as the double whose mantissa is even. -/
def readingInterval (m : Magnitude) : ReadingInterval :=
  let quarter : Magnitude := ⟨1, m.exponent - 2⟩
  let halfBelow := if m.mantissa = Nat.pow 2 fractionBits ∧ leastExponent < m.exponent then 1 else 2
  { low := (4 * m.mantissa - halfBelow) * quarter.numerator
    value := 4 * m.mantissa * quarter.numerator
    high := (4 * m.mantissa + 2) * quarter.numerator
    denominator := quarter.denominator
    closed := m.mantissa % 2 == 0 }

end Magnitude

namespace Decimal

/-- The decimal `n * 10 ^ p`. -/
def ofGrid (p : Int) (n : Nat) : Decimal := ⟨n * Nat.pow 10 p.toNat, (-p).toNat⟩

end Decimal

namespace ReadingInterval

def contains (i : ReadingInterval) (d : Decimal) : Bool :=
  let point := d.coefficient * i.denominator
  let low := i.low * Nat.pow 10 d.places
  let high := i.high * Nat.pow 10 d.places
  if i.closed then low ≤ point && point ≤ high else low < point && point < high

/-- The neighbour in the interval on the grid of `10 ^ p`. Of two the nearer is taken, and the
upper one if both are equally near. -/
def onGrid? (i : ReadingInterval) (p : Int) : Option Decimal :=
  let unit := i.denominator * Nat.pow 10 p.toNat
  let value := i.value * Nat.pow 10 (-p).toNat
  let below := Decimal.ofGrid p (value / unit)
  let above := Decimal.ofGrid p (value / unit + 1)
  match i.contains below, i.contains above with
  | true, true => some (if 2 * (value % unit) < unit then below else above)
  | true, false => some below
  | false, true => some above
  | false, false => none

end ReadingInterval

namespace Magnitude

/-- A power of ten that is above the reading interval, as an exponent: `2 ^ 3` is below `10`, and
`2 ^ 10` is above `10 ^ 3`. -/
def coarsest (m : Magnitude) : Int := m.bound.toNat / 3 + 1 - 3 * ((-m.bound).toNat / 10)

/-- A power of ten on whose grid the magnitude itself lies, as an exponent. -/
def finest (m : Magnitude) : Int := min 0 m.exponent

/-- The shortest decimal that is read back as the double of this magnitude. -/
def shortest (m : Magnitude) : Decimal :=
  if m.mantissa = 0 then ⟨0, 0⟩
  else
    let interval := m.readingInterval
    let grids := (m.coarsest - m.finest).toNat + 1
    let found := (List.range grids).findSome? fun (k : Nat) => interval.onGrid? (m.coarsest - k)
    found.getD ⟨m.numerator * Nat.pow 5 (-m.exponent).toNat, (-m.exponent).toNat⟩

end Magnitude

/-! ## Rounded decimals

The rounding is exact: it is that of the binary value itself, and only a value half way between two
decimals goes to the even one of them. -/

/-- The whole number nearest to a fraction, of two equally near the even one. -/
def nearestWhole (numerator denominator : Nat) : Nat :=
  let whole := numerator / denominator
  let twice := 2 * (numerator % denominator)
  if twice < denominator then whole
  else if denominator < twice then whole + 1
  else whole + whole % 2

/-- The magnitude in whole units of the last of the given places. -/
def Magnitude.rounded (m : Magnitude) (places : Nat) : Decimal :=
  ⟨nearestWhole (m.numerator * Nat.pow 10 places) m.denominator, places⟩

/-- The text of the rounded magnitude. A magnitude has an exact decimal, so that all places after
the last one of that are zeros. -/
def Magnitude.roundedText (m : Magnitude) (places : Nat) : String :=
  let exact := max 1 (-m.exponent).toNat
  (m.rounded (min places exact)).text ++ String.ofList (List.replicate (places - exact) '0')

/-! ## Texts -/

namespace Number

def isNegative (x : Float) : Bool := x.toBits.toNat / Nat.pow 2 63 == 1

/-- The text of a number whose magnitude, if it is finite, is written by `digits`. -/
def written (digits : Magnitude → String) (x : Float) : String :=
  if x.isNaN then "NaN"
  else
    let size := if x.isInf then "inf" else digits (.ofFloat x)
    if isNegative x then "-" ++ size else size

def text (x : Float) : String := written (·.shortest.text) x

def maxPlaces : Nat := 65535

/-- The number rounded to the given places. Too many places are refused for every number, also for
those that are written without any. -/
def rounded? (places : Nat) (x : Float) : Option String :=
  if places ≤ maxPlaces then some (written (·.roundedText places) x) else none

def read? (numeral : String) : Option Float :=
  (Decimal.ofNumeral? numeral.toList).map Decimal.toFloat

end Number

end PromptCalc
