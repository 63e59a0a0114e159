import PromptCalc.Proofs.LastAnswer
import PromptCalc.Proofs.ReadingBack
import PromptCalc.Proofs.RoundTrip
import Mathlib

/-!
# Typing an answer back

A finite number is written as a numeral, after a minus sign or without one. The numeral is read back
as the number without its sign, and the minus sign takes that from zero. So the number in full is an
equation with this number as its answer. Only of negative zero the sign is lost.
-/
namespace PromptCalc

open Equation
open Float.Model
open Float.Model.UnpackedFloat (Sign)

namespace Magnitude

variable {m : Magnitude}

theorem double_zero : zero.double .positive = 0 := by decide +kernel

theorem double_negative_zero : zero.double .negative = -0 := by decide +kernel

/-- To take a number from zero is to change its sign. -/
theorem zero_sub_double (hm : m.IsCanonical) (h : m.exponent < exponentLimit)
    (hmantissa : m.mantissa ≠ 0) : 0 - m.double .positive = m.double .negative := by
  have hsub : zero.double .positive - m.double .positive =
      .ofModel (.pack (UnpackedFloat.sub .binary64 (zero.double .positive).toModel.unpack
        (m.double .positive).toModel.unpack)) := rfl
  have hunpacked (s : Sign) : m.unpacked s = .finite s m.mantissa m.exponent _ :=
    dif_neg hmantissa
  rw [← double_zero, hsub, unpack_double isCanonical_zero (by decide), unpack_double hm h, double,
    hunpacked, hunpacked]
  rfl

end Magnitude

theorem Spelled.append {ls rs : List String} {as bs : List Char} (h : Spelled ls as)
    (h' : Spelled rs bs) : Spelled (ls ++ rs) (as ++ bs) := by
  induction h with
  | nil => exact h'
  | blank hblank _ ih => exact .blank hblank ih
  | literal _ ih =>
    rw [List.append_assoc]
    exact .literal ih

theorem Spelled.prompt {ls : List String} {equation : String} (h : Spelled ls equation.toList) :
    Spelled (envelope ls) (prompt equation).toList := by
  have hquote : Spelled ["'"] ['\''] := .literal .nil
  have hchars : (PromptCalc.prompt equation).toList =
      "calc".toList ++ ' ' :: ("'".toList ++ (equation.toList ++ ['\''])) := by
    simp [PromptCalc.prompt]
  rw [hchars]
  exact .literal (.blank rfl (.literal (h.append hquote)))

namespace Session

variable {text : String} {closing : Token}

theorem evaluate_derivation (s : Session) {c : Category} {d : Derivation c} {x : Float}
    (h : Encloses text d.tokens closing) (hlevels : d.levels ≤ maxDepth)
    (hheight : (d.tree s.answer).BinaryWithin maxHeight)
    (hvalue : (d.tree s.answer).value? = some x) :
    (s.evaluate text).1 = .ok x ∧ (s.evaluate text).2.answer = x := by
  obtain ⟨sum, hsum⟩ := d.exists_recast (Category.widens_sum c)
  have hadmitted : Admitted (settingOf s.answer closing) 0 sum := by
    refine ⟨?_, ?_⟩
    · rw [hsum.levels]
      omega
    · have hanswer : (settingOf s.answer closing).answer = s.answer := rfl
      rwa [hanswer, hsum.tree]
  rw [← hsum.tokens] at h
  rw [← hsum.tree] at hvalue
  exact evaluate_of_parse_ok ((parse_derivation h).1 hadmitted) hvalue

/-- A numeral alone is answered with its number, and behind a minus sign with that taken from
zero. -/
theorem evaluate_numeral (s : Session) {cs : List Char} {y : Float} (hcs : IsNumeral cs)
    (hread : Number.read? (String.ofList cs) = some y) :
    ((s.evaluate (prompt (String.ofList cs))).1 = .ok y ∧
      (s.evaluate (prompt (String.ofList cs))).2.answer = y) ∧
    ((s.evaluate (prompt (String.ofList ('-' :: cs)))).1 = .ok (0 - y) ∧
      (s.evaluate (prompt (String.ofList ('-' :: cs)))).2.answer = 0 - y) := by
  obtain ⟨hliteral, hnumber⟩ := hcs.isLiteral
  have hunquoted : (wordOf (String.ofList cs)).1 ≠ .quote := by
    rcases hnumber with h | h <;> rw [h] <;> exact nofun
  have hseparable : Separable [String.ofList cs] := .singleton hliteral hunquoted
  have hnumeral {t : Token} (ht : t.word = wordOf (String.ofList cs)) :
      ∃ d : Derivation .atom, d.tokens = [t] ∧ d.levels = 1 ∧
        ∀ ans, d.tree ans = .value y (some t) := by
    have hkind : t.kind = (wordOf (String.ofList cs)).1 := congrArg Prod.fst ht
    have hword : t.literal = String.ofList cs := (congrArg Prod.snd ht).trans (snd_wordOf _)
    exact ⟨.number t y (hkind ▸ hnumber) (hword ▸ hread), rfl, rfl, fun _ => rfl⟩
  constructor
  · have hspelled : Spelled [String.ofList cs] (String.ofList cs).toList := by
      simpa using @Spelled.literal (String.ofList cs) _ _ .nil
    obtain ⟨inner, closing, hencloses, hinner⟩ := hspelled.prompt.exists_encloses hseparable
    obtain ⟨t, _, rfl, ht, hrest⟩ := List.map_eq_cons_iff.mp hinner
    obtain rfl := List.map_eq_nil_iff.mp hrest
    obtain ⟨d, hd, hlevels, htree⟩ := hnumeral ht
    refine s.evaluate_derivation (hd ▸ hencloses) ?_ ?_ ?_
    · rw [hlevels]
      decide
    · rw [htree]
      trivial
    · rw [htree]
      rfl
  · have hspelled : Spelled ["-", String.ofList cs] (String.ofList ('-' :: cs)).toList := by
      simpa using @Spelled.literal "-" _ _ (@Spelled.literal (String.ofList cs) _ _ .nil)
    have hsigned : Separable ["-", String.ofList cs] := Separable.nil.operator .minus hseparable
    obtain ⟨inner, closing, hencloses, hinner⟩ := hspelled.prompt.exists_encloses hsigned
    obtain ⟨u, _, rfl, hu, hrest⟩ := List.map_eq_cons_iff.mp hinner
    obtain ⟨t, _, rfl, ht, hrest⟩ := List.map_eq_cons_iff.mp hrest
    obtain rfl := List.map_eq_nil_iff.mp hrest
    have hminus : u.kind = .operator .minus := congrArg Prod.fst (hu.trans (wordOf_operator .minus))
    obtain ⟨d, hd, hlevels, htree⟩ := hnumeral ht
    obtain ⟨e, he⟩ := Derivation.exists_recast (Category.atom.widens_sign trivial) d
    have htokens : (Derivation.sign .minus u hminus rfl e).tokens = [u, t] := by
      simp only [Derivation.tokens, he.tokens, hd]
    refine s.evaluate_derivation (htokens ▸ hencloses) ?_ ?_ ?_
    · simp only [Derivation.levels, he.levels, hlevels]
      decide
    · simp only [Derivation.tree, he.tree, htree]
      trivial
    · simp only [Derivation.tree, he.tree, htree]
      rfl

/-- A finite number other than negative zero is answered with itself, if its text in full is typed
as an equation. -/
theorem evaluate_text (s : Session) {x : Float} (hfinite : x.isFinite = true) (hzero : x ≠ -0) :
    (s.evaluate (prompt (Number.text x))).1 = .ok x ∧
      (s.evaluate (prompt (Number.text x))).2.answer = x := by
  obtain ⟨hnan, hinf⟩ := Number.isFinite_iff.mp hfinite
  have hnumeral := Number.isNumeral_sizeChars hinf
  cases hsign : Number.isNegative x with
  | false =>
    have hplain : Number.IsPlain x := ⟨hnan, hinf, hsign⟩
    have hread := hplain.read?_text
    rw [hplain.text_eq] at hread ⊢
    exact (s.evaluate_numeral hnumeral hread).1
  | true =>
    have hm : (Magnitude.ofFloat x).IsCanonical := Magnitude.isCanonical_ofBits _
    have hlimit := Magnitude.exponent_lt_of_isFinite hfinite
    have hnegative : Number.sign x = .negative := by rw [Number.sign, hsign]; rfl
    have hx := Magnitude.double_ofFloat hlimit
    rw [hnegative] at hx
    have hmantissa : (Magnitude.ofFloat x).mantissa ≠ 0 := by
      intro hmantissa
      refine hzero ?_
      rw [← hx, hm.eq_zero hmantissa, Magnitude.double_negative_zero]
    have hminus := (s.evaluate_numeral hnumeral (Number.read?_sizeChars hinf)).2
    rw [Magnitude.zero_sub_double hm hlimit hmantissa, hx] at hminus
    rw [Number.text_eq hnan, if_pos hsign]
    exact hminus

theorem evaluate_text_of_fraction :
    (new.evaluate (prompt (Number.text (-0.1)))).1 = .ok (-0.1) ∧
      (new.evaluate (prompt (Number.text (-0.1)))).2.answer = -0.1 :=
  new.evaluate_text (by decide +kernel) (by decide +kernel)

example : (new.evaluate (prompt (Number.text (-0)))).1 = .ok 0 := by decide +kernel

end Session

end PromptCalc
