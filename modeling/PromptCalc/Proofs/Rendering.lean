import PromptCalc.Expr
import PromptCalc.Proofs.Lexing
import PromptCalc.Proofs.ReadingIntervals
import Mathlib

/-!
# Texts of numbers and trees

A number is known from its text: it is `NaN`, or an optional minus sign and then `inf` or a
numeral. The sign and the digits give the bits of the number back. So a tree is known from its text
but for the tokens of its nodes.
-/
namespace PromptCalc

/-- The numeral is made of digits, or of digits, a dot and digits. -/
inductive IsNumeral : List Char → Prop where
  | whole {cs : List Char} : Decimal.isDigits cs = true → IsNumeral cs
  | fraction {whole part : List Char} : Decimal.isDigits whole = true →
      Decimal.isDigits part = true → IsNumeral (whole ++ '.' :: part)

namespace IsNumeral

variable {cs : List Char}

theorem exists_cons_of_isDigits {ds : List Char} (h : Decimal.isDigits ds = true) :
    ∃ c tail, ds = c :: tail ∧ c.isDigit = true ∧ ∀ d ∈ tail, d.isDigit = true := by
  simp only [Decimal.isDigits, Bool.and_eq_true, decide_eq_true_eq, List.all_eq_true] at h
  obtain ⟨hne, hall⟩ := h
  obtain ⟨c, tail, rfl⟩ := List.exists_cons_of_ne_nil hne
  obtain ⟨hc, htail⟩ := List.forall_mem_cons.mp hall
  exact ⟨c, tail, rfl, hc, htail⟩

theorem exists_cons (h : IsNumeral cs) :
    ∃ c tail, cs = c :: tail ∧ c.isDigit = true ∧ ∀ d ∈ tail, isNumeric d = true := by
  have hnumeric {d : Char} (hd : d.isDigit = true) : isNumeric d = true := by simp [isNumeric, hd]
  cases h with
  | whole hdigits =>
    obtain ⟨c, tail, rfl, hc, htail⟩ := exists_cons_of_isDigits hdigits
    exact ⟨c, tail, rfl, hc, fun d hd => hnumeric (htail d hd)⟩
  | @fraction whole part hwhole hpart =>
    obtain ⟨c, tail, rfl, hc, htail⟩ := exists_cons_of_isDigits hwhole
    refine ⟨c, tail ++ '.' :: part, rfl, hc, ?_⟩
    simp only [Decimal.isDigits, Bool.and_eq_true, List.all_eq_true] at hpart
    refine List.forall_mem_append.mpr ⟨fun d hd => hnumeric (htail d hd), ?_⟩
    exact List.forall_mem_cons.mpr ⟨rfl, fun d hd => hnumeric (hpart.2 d hd)⟩

end IsNumeral

theorem Decimal.isNumeral_chars (d : Decimal) : IsNumeral d.chars := by
  unfold chars
  split
  · exact .whole (isDigits_toDigits _)
  · exact .fraction (isDigits_toDigits _) (isDigits_padded _ _)

namespace Magnitude

theorem mod_eq_of_ofBits_eq {a b : Nat} (h : ofBits a = ofBits b) : a % 2 ^ 63 = b % 2 ^ 63 := by
  have hunit : Nat.pow 2 fractionBits = 2 ^ 52 := rfl
  have hfield : Nat.pow 2 11 = 2 ^ 11 := rfl
  have ha := Nat.mod_lt a (Nat.two_pow_pos 52)
  have hb := Nat.mod_lt b (Nat.two_pow_pos 52)
  have hfields : a % 2 ^ 52 = b % 2 ^ 52 ∧ a / 2 ^ 52 % 2 ^ 11 = b / 2 ^ 52 % 2 ^ 11 := by
    simp only [ofBits, hunit, hfield] at h
    split at h <;> split at h <;> simp only [mk.injEq] at h <;> omega
  omega

/-- Of an infinite number the exponent has all bits set, and the fraction none. -/
theorem fields_of_isInf {x : Float} (h : x.isInf = true) :
    x.toBits.toNat / 2 ^ 52 % 2 ^ 11 = 2047 ∧ x.toBits.toNat % 2 ^ 52 = 0 := by
  open Float.Model in
  have hunpacked : x.toModel.unpack.isInf = true := h
  simp only [unpack, UnpackedFloat.unpack] at hunpacked
  split at hunpacked
  · next hexponent =>
    split at hunpacked
    · next hmantissa =>
      have hfield := congrArg BitVec.toNat hexponent
      have hfraction := congrArg BitVec.toNat hmantissa
      simp only [UnpackedFloat.unpackExponent, UnpackedFloat.unpackMantissa] at hfield hfraction
      rw [Float.toBits]
      exact ⟨by simpa [Nat.shiftRight_eq_div_pow] using hfield, by simpa using hfraction⟩
    · cases hunpacked
  · split at hunpacked
    · split at hunpacked <;> cases hunpacked
    · cases hunpacked

theorem ofFloat_of_isInf {x : Float} (h : x.isInf = true) : ofFloat x = ⟨2 ^ 52, 972⟩ := by
  have hunit : Nat.pow 2 fractionBits = 2 ^ 52 := rfl
  have hfield : Nat.pow 2 11 = 2 ^ 11 := rfl
  simp only [ofFloat, ofBits, hunit, hfield, fields_of_isInf h]
  rfl

end Magnitude

theorem Decimal.eq_of_chars_eq {d d' : Decimal} (h : d.chars = d'.chars) : d = d' := by
  have hread := ofNumeral?_chars d
  rw [h, ofNumeral?_chars] at hread
  exact (Option.some.inj hread).symm

theorem Decimal.isNumeric_of_mem_text (d : Decimal) {c : Char} (h : c ∈ d.text.toList) :
    isNumeric c = true := by
  obtain ⟨first, cs, hchars, hfirst, hcs⟩ := d.isNumeral_chars.exists_cons
  rw [text, String.toList_ofList, hchars] at h
  rcases List.mem_cons.mp h with rfl | h
  · simp [isNumeric, hfirst]
  · exact hcs c h

namespace Number

theorem eq_of_ofFloat_eq {x y : Float} (hsign : isNegative x = isNegative y)
    (h : Magnitude.ofFloat x = Magnitude.ofFloat y) : x = y := by
  have hmod := Magnitude.mod_eq_of_ofBits_eq h
  have hx := x.toBits.toNat_lt
  have hy := y.toBits.toNat_lt
  have hbits : x.toBits.toNat = y.toBits.toNat := by
    have hpower : Nat.pow 2 63 = 2 ^ 63 := rfl
    simp only [isNegative, hpower] at hsign
    rw [Bool.eq_iff_iff, beq_iff_eq, beq_iff_eq] at hsign
    omega
  exact Float.toBits_inj.mp (UInt64.toNat_inj.mp hbits)

def sizeChars (x : Float) : List Char :=
  if x.isInf then ['i', 'n', 'f'] else (Magnitude.ofFloat x).shortest.chars

theorem toList_text_of_isNaN {x : Float} (h : x.isNaN = true) :
    (text x).toList = ['N', 'a', 'N'] := by
  rw [text, written, if_pos h]
  rfl

theorem toList_text {x : Float} (h : x.isNaN = false) :
    (text x).toList = if isNegative x then '-' :: sizeChars x else sizeChars x := by
  have hsize : (if x.isInf then "inf" else (Magnitude.ofFloat x).shortest.text).toList =
      sizeChars x := by
    unfold sizeChars
    split
    · rfl
    · exact String.toList_ofList
  rw [text, written, if_neg (by rw [h]; decide)]
  dsimp only
  split
  · rw [String.toList_append, hsize]
    rfl
  · exact hsize

theorem text_eq {x : Float} (h : x.isNaN = false) :
    text x = String.ofList (if isNegative x then '-' :: sizeChars x else sizeChars x) := by
  rw [← toList_text h, String.ofList_toList]

theorem sizeChars_cases (x : Float) :
    (x.isInf = true ∧ sizeChars x = ['i', 'n', 'f']) ∨
      (x.isInf = false ∧ sizeChars x = (Magnitude.ofFloat x).shortest.chars ∧
        IsNumeral (sizeChars x)) := by
  unfold sizeChars
  cases x.isInf with
  | true => exact .inl ⟨rfl, rfl⟩
  | false => exact .inr ⟨rfl, rfl, Decimal.isNumeral_chars _⟩

theorem isNumeral_sizeChars {x : Float} (h : x.isInf = false) : IsNumeral (sizeChars x) := by
  rcases sizeChars_cases x with ⟨hinf, -⟩ | ⟨-, -, hnumeral⟩
  · cases h.symm.trans hinf
  · exact hnumeral

theorem exists_sizeChars (x : Float) :
    ∃ c cs, sizeChars x = c :: cs ∧ (c = 'i' ∨ c.isDigit = true) ∧
      ∀ d ∈ sizeChars x, d ∈ ['i', 'n', 'f'] ∨ isNumeric d = true := by
  rcases sizeChars_cases x with ⟨-, hsize⟩ | ⟨-, -, hnumeral⟩
  · rw [hsize]
    exact ⟨'i', ['n', 'f'], rfl, .inl rfl, fun d hd => .inl hd⟩
  · obtain ⟨c, cs, hsize, hc, hcs⟩ := hnumeral.exists_cons
    rw [hsize]
    refine ⟨c, cs, rfl, .inr hc, List.forall_mem_cons.mpr ⟨.inr ?_, fun d hd => .inr (hcs d hd)⟩⟩
    simp [isNumeric, hc]

theorem eq_of_sizeChars_eq {x y : Float} (hsign : isNegative x = isNegative y)
    (h : sizeChars x = sizeChars y) : x = y := by
  have hnotInf {z : Float} (hnumeral : IsNumeral (sizeChars z)) :
      sizeChars z ≠ ['i', 'n', 'f'] := by
    intro hinf
    obtain ⟨c, cs, hsize, hc, -⟩ := hnumeral.exists_cons
    obtain ⟨rfl, -⟩ := List.cons.inj (hinf.symm.trans hsize)
    exact absurd hc (by decide)
  refine eq_of_ofFloat_eq hsign ?_
  rcases sizeChars_cases x with ⟨hx, hsize⟩ | ⟨hx, hsize, hnumeral⟩ <;>
    rcases sizeChars_cases y with ⟨hy, hsize'⟩ | ⟨hy, hsize', hnumeral'⟩
  · rw [Magnitude.ofFloat_of_isInf hx, Magnitude.ofFloat_of_isInf hy]
  · exact absurd (h ▸ hsize) (hnotInf hnumeral')
  · exact absurd (h.trans hsize') (hnotInf hnumeral)
  · rw [hsize, hsize'] at h
    exact Magnitude.eq_of_shortest_eq (Magnitude.isCanonical_ofBits _)
      (Magnitude.isCanonical_ofBits _) (Decimal.eq_of_chars_eq h)

def cutSign : List Char → Bool × List Char
  | '-' :: cs => (true, cs)
  | cs => (false, cs)

theorem cutSign_text {x : Float} (h : x.isNaN = false) :
    cutSign (text x).toList = (isNegative x, sizeChars x) := by
  rw [toList_text h]
  split
  · next hsign => rw [cutSign, hsign]
  · next hsign =>
    obtain ⟨c, cs, hsize, hc, -⟩ := exists_sizeChars x
    have hminus : c ≠ '-' := by
      rintro rfl
      rcases hc with hc | hc <;> exact absurd hc (by decide)
    rw [hsize, Bool.not_eq_true _ |>.mp hsign]
    unfold cutSign
    split
    · next heq => exact absurd (List.cons.inj heq).1 hminus
    · rfl

theorem toList_text_ne {x : Float} (h : x.isNaN = false) : (text x).toList ≠ ['N', 'a', 'N'] := by
  intro htext
  have hcut := cutSign_text h
  rw [htext] at hcut
  obtain ⟨c, cs, hsize, hc, -⟩ := exists_sizeChars x
  obtain ⟨-, hchars⟩ := Prod.mk.inj hcut
  obtain ⟨rfl, -⟩ := List.cons.inj (hchars.trans hsize)
  rcases hc with hc | hc <;> exact absurd hc (by decide)

theorem text_injective : Function.Injective text := by
  intro x y h
  have hchars : (text x).toList = (text y).toList := by rw [h]
  cases hx : x.isNaN with
  | true =>
    rw [toList_text_of_isNaN hx] at hchars
    cases hy : y.isNaN with
    | true =>
      rw [Float.isNaN_eq_decide_eq_nan, decide_eq_true_eq] at hx hy
      rw [hx, hy]
    | false => exact absurd hchars.symm (toList_text_ne hy)
  | false =>
    cases hy : y.isNaN with
    | true =>
      rw [toList_text_of_isNaN hy] at hchars
      exact absurd hchars (toList_text_ne hx)
    | false =>
      have hcut := congrArg cutSign hchars
      rw [cutSign_text hx, cutSign_text hy, Prod.mk.injEq] at hcut
      exact eq_of_sizeChars_eq hcut.1 hcut.2

theorem mem_written {digits : Magnitude → String}
    (hdigits : ∀ m, ∀ c ∈ (digits m).toList, isNumeric c = true) {x : Float} {c : Char}
    (h : c ∈ (written digits x).toList) :
    c ∈ ['-', 'N', 'a', 'i', 'n', 'f'] ∨ isNumeric c = true := by
  have hnan : "NaN".toList ⊆ ['-', 'N', 'a', 'i', 'n', 'f'] := by simp
  have hinf : "inf".toList ⊆ ['-', 'N', 'a', 'i', 'n', 'f'] := by simp
  have hminus : "-".toList ⊆ ['-', 'N', 'a', 'i', 'n', 'f'] := by simp
  unfold written at h
  split at h
  · exact .inl (hnan h)
  · have hsize (h : c ∈ (if x.isInf then "inf" else digits (.ofFloat x)).toList) :
        c ∈ ['-', 'N', 'a', 'i', 'n', 'f'] ∨ isNumeric c = true := by
      split at h
      · exact .inl (hinf h)
      · exact .inr (hdigits _ c h)
    dsimp only at h
    split at h
    · rw [String.toList_append, List.mem_append] at h
      rcases h with h | h
      · exact .inl (hminus h)
      · exact hsize h
    · exact hsize h

theorem mem_text {x : Float} {c : Char} (h : c ∈ (text x).toList) :
    c ∈ ['-', 'N', 'a', 'i', 'n', 'f'] ∨ isNumeric c = true :=
  mem_written (fun m _ => m.shortest.isNumeric_of_mem_text) h

/-- The character parts the text of a number from what stands around it in the text of a tree. -/
def isDelimiter (c : Char) : Bool := c == ' ' || c == '(' || c == ')'

theorem isDelimiter_of_mem_text {x : Float} {c : Char} (h : c ∈ (text x).toList) :
    isDelimiter c = false := by
  rw [← Bool.not_eq_true]
  intro hdelimiter
  simp only [isDelimiter, Bool.or_eq_true, beq_iff_eq] at hdelimiter
  have hmem := mem_text h
  rcases hdelimiter with (rfl | rfl) | rfl <;> exact absurd hmem (by decide)

end Number

namespace Expr

def bare : Expr → Expr
  | value x _ => value x none
  | unary op operand _ => unary op operand.bare none
  | binary op left right _ => binary op left.bare right.bare none

theorem height_bare (e : Expr) : e.bare.height = e.height := by
  induction e with
  | value => rfl
  | unary op operand token ih => simp [bare, height, ih]
  | binary op left right token ihl ihr => simp [bare, height, ihl, ihr]

/-- The characters do not go on with the text before them: they are none, or start with a blank or a
closing bracket. -/
def Delimited (rest : List Char) : Prop := ∀ c ∈ rest.head?, c = ' ' ∨ c = ')'

variable {e f : Expr} {rest rest' : List Char}

theorem delimited_nil : Delimited [] := by simp [Delimited]

theorem delimited_blank (rest : List Char) : Delimited (' ' :: rest) := by simp [Delimited]

theorem delimited_bracket (rest : List Char) : Delimited (')' :: rest) := by simp [Delimited]

theorem text_unary (op : Operator) (operand : Expr) (token : Option Token) (rest : List Char) :
    (unary op operand token).text.toList ++ rest =
      '(' :: op.symbol :: ' ' :: (operand.text.toList ++ ')' :: rest) := by
  simp [text, Char.toString]

theorem text_binary (op : Operator) (left right : Expr) (token : Option Token) (rest : List Char) :
    (binary op left right token).text.toList ++ rest =
      '(' :: op.symbol :: ' ' ::
        (left.text.toList ++ ' ' :: (right.text.toList ++ ')' :: rest)) := by
  simp [text, Char.toString]

theorem text_bare (e : Expr) : e.bare.text = e.text := by
  induction e with
  | value => rfl
  | unary op operand token ih => simp only [bare, text, ih]
  | binary op left right token ihl ihr => simp only [bare, text, ihl, ihr]

theorem takeWhile_number (x : Float) (hrest : Delimited rest) :
    ((Number.text x).toList ++ rest).takeWhile (!Number.isDelimiter ·) = (Number.text x).toList ∧
      ((Number.text x).toList ++ rest).dropWhile (!Number.isDelimiter ·) = rest := by
  refine Lexeme.takeWhile_append_of_head ?_ ?_
  · intro c hc
    rw [Number.isDelimiter_of_mem_text hc]
    rfl
  · intro c hc
    rcases hrest c hc with rfl | rfl <;> rfl

theorem number_cancel {x y : Float} (hrest : Delimited rest) (hrest' : Delimited rest')
    (h : (Number.text x).toList ++ rest = (Number.text y).toList ++ rest') :
    x = y ∧ rest = rest' := by
  obtain ⟨hx, hxrest⟩ := takeWhile_number x hrest
  obtain ⟨hy, hyrest⟩ := takeWhile_number y hrest'
  rw [h] at hx hxrest
  exact ⟨Number.text_injective (String.toList_injective (hx.symm.trans hy)),
    hxrest.symm.trans hyrest⟩

theorem number_ne_bracket (x : Float) (tail : List Char) (hrest : Delimited rest) :
    (Number.text x).toList ++ rest ≠ '(' :: tail := by
  intro h
  obtain ⟨htake, hdrop⟩ := takeWhile_number x hrest
  rw [h] at hdrop
  have hhead : rest = '(' :: tail := hdrop.symm
  rw [hhead] at hrest
  rcases hrest '(' rfl with hc | hc <;> exact absurd hc (by decide)

/-- Two trees whose texts begin some characters are the same, and so is what follows them. -/
theorem text_cancel (hrest : Delimited rest) (hrest' : Delimited rest')
    (h : e.text.toList ++ rest = f.text.toList ++ rest') : e.bare = f.bare ∧ rest = rest' := by
  induction e generalizing f rest rest' with
  | value x token =>
    cases f with
    | value y token' =>
      obtain ⟨rfl, rfl⟩ := number_cancel hrest hrest' h
      exact ⟨rfl, rfl⟩
    | unary => exact absurd (h.trans (text_unary ..)) (number_ne_bracket x _ hrest)
    | binary => exact absurd (h.trans (text_binary ..)) (number_ne_bracket x _ hrest)
  | unary op operand token ih =>
    cases f with
    | value y token' => exact absurd (h.symm.trans (text_unary ..)) (number_ne_bracket y _ hrest')
    | unary op' operand' token' =>
      rw [text_unary, text_unary] at h
      simp only [List.cons.injEq, true_and] at h
      obtain ⟨hsymbol, htail⟩ := h
      obtain ⟨hoperand, hend⟩ := ih (delimited_bracket _) (delimited_bracket _) htail
      rw [bare, bare, hoperand, Operator.symbol_injective hsymbol]
      exact ⟨rfl, (List.cons.inj hend).2⟩
    | binary op' left right token' =>
      rw [text_unary, text_binary] at h
      simp only [List.cons.injEq, true_and] at h
      obtain ⟨-, hend⟩ := ih (delimited_bracket _) (delimited_blank _) h.2
      exact absurd (List.cons.inj hend).1 (by decide)
  | binary op left right token ihl ihr =>
    cases f with
    | value y token' => exact absurd (h.symm.trans (text_binary ..)) (number_ne_bracket y _ hrest')
    | unary op' operand token' =>
      rw [text_binary, text_unary] at h
      simp only [List.cons.injEq, true_and] at h
      obtain ⟨-, hend⟩ := ihl (delimited_blank _) (delimited_bracket _) h.2
      exact absurd (List.cons.inj hend).1 (by decide)
    | binary op' left' right' token' =>
      rw [text_binary, text_binary] at h
      simp only [List.cons.injEq, true_and] at h
      obtain ⟨hsymbol, htail⟩ := h
      obtain ⟨hleft, hmid⟩ := ihl (delimited_blank _) (delimited_blank _) htail
      obtain ⟨hright, hend⟩ :=
        ihr (delimited_bracket _) (delimited_bracket _) (List.cons.inj hmid).2
      rw [bare, bare, hleft, hright, Operator.symbol_injective hsymbol]
      exact ⟨rfl, (List.cons.inj hend).2⟩

/-- Two trees have the same text exactly if they have the same shape, the same operators and the
same numbers. NaN is one number, and zero with a minus sign is another number than zero without. -/
theorem text_eq_iff (e f : Expr) : e.text = f.text ↔ e.bare = f.bare := by
  constructor
  · intro h
    have hchars : e.text.toList ++ [] = f.text.toList ++ [] := by rw [h]
    exact (text_cancel delimited_nil delimited_nil hchars).1
  · intro h
    rw [← text_bare e, ← text_bare f, h]

end Expr

end PromptCalc
