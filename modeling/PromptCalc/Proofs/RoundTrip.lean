import PromptCalc.Proofs.Parsing
import PromptCalc.Proofs.ReadingBack
import PromptCalc.Proofs.Spelling

/-!
# Writing and reading back

A tree of finite numbers without a minus sign is written so that it is read back, if every operator
stands with its operands in a bracket. At most two levels are taken by each level of the tree, so
that a tree of height 50 does not go too deep.
-/
namespace PromptCalc

namespace IsNumeral

variable {cs : List Char}

theorem isNumber_ofNumeral (h : IsNumeral cs) : (TokenKind.ofNumeral cs).IsNumber := by
  cases h with
  | @whole cs hdigits =>
    have hdrop : (cs ++ []).dropWhile Char.isDigit = [] :=
      (Decimal.takeWhile_digits_append hdigits (by simp)).2
    rw [List.append_nil] at hdrop
    exact .inl (by rw [TokenKind.ofNumeral, hdrop])
  | @fraction whole part hwhole hpart =>
    have hdrop : (whole ++ '.' :: part).dropWhile Char.isDigit = '.' :: part :=
      (Decimal.takeWhile_digits_append hwhole (by simp)).2
    rw [TokenKind.ofNumeral, hdrop]
    exact .inr (if_pos (by simpa [Decimal.isDigits] using hpart))

theorem isLiteral (h : IsNumeral cs) :
    IsLiteral (String.ofList cs) ∧ (wordOf (String.ofList cs)).1.IsNumber := by
  have hnumber := h.isNumber_ofNumeral
  obtain ⟨c, tail, rfl, hc, htail⟩ := h.exists_cons
  have hblank : isBlank c = false := by
    rw [← Bool.not_eq_true]
    intro hblank
    have hnumeric := (plain_of_isBlank hblank).1
    simp [isNumeric, hc] at hnumeric
  have hcut : Lexeme.cut c tail = ⟨TokenKind.ofNumeral (c :: tail), c :: tail, []⟩ := by
    rw [Lexeme.cut_of_isDigit hc, Lexeme.run, List.takeWhile_eq_self_iff.mpr htail,
      List.dropWhile_eq_nil_iff.mpr htail]
  refine ⟨⟨c, tail, String.toList_ofList, hblank, by rw [hcut]⟩, ?_⟩
  simpa only [wordOf, String.toList_ofList, hcut] using hnumber

end IsNumeral

def Number.IsPlain (x : Float) : Prop :=
  x.isNaN = false ∧ x.isInf = false ∧ isNegative x = false

namespace Number.IsPlain

variable {x : Float}

theorem text_eq (h : IsPlain x) : text x = String.ofList (sizeChars x) := by
  rw [Number.text_eq h.1, h.2.2, if_neg Bool.false_ne_true]

/-- A number with no minus sign is read back as it is written. -/
theorem read?_text (h : IsPlain x) : read? (text x) = some x := by
  have hlimit := Magnitude.exponent_lt_of_isFinite (isFinite_iff.mpr ⟨h.1, h.2.1⟩)
  have hpositive : sign x = .positive := by
    rw [sign, h.2.2]
    rfl
  rw [h.text_eq, read?_sizeChars h.2.1, ← hpositive, Magnitude.double_ofFloat hlimit]

end Number.IsPlain

namespace Expr

/-- The numbers of the tree are finite and have no minus sign, and its unary operators are signs. -/
def IsPlain : Expr → Prop
  | value x _ => Number.IsPlain x
  | unary op operand _ => (op = .plus ∨ op = .minus) ∧ operand.IsPlain
  | binary _ left right _ => left.IsPlain ∧ right.IsPlain

/-- The literals of the tree, where numbers stand alone, and every operator stands in a bracket of
any shape before its operand or between its operands. -/
inductive Bracketed : Expr → List String → Prop where
  | value {x : Float} {token : Option Token} : Bracketed (.value x token) [Number.text x]
  | unary {op : Operator} {operand : Expr} {token : Option Token} {ls : List String}
      (shape : Bracket) : Bracketed operand ls →
      Bracketed (.unary op operand token) (shape.around (op.symbol.toString :: ls))
  | binary {op : Operator} {left right : Expr} {token : Option Token} {ls rs : List String}
      (shape : Bracket) : Bracketed left ls → Bracketed right rs →
      Bracketed (.binary op left right token) (shape.around (ls ++ op.symbol.toString :: rs))

variable {e : Expr} {ls : List String}

theorem Bracketed.separable (h : e.Bracketed ls) (hplain : e.IsPlain) : Separable ls := by
  induction h with
  | value =>
    obtain ⟨hliteral, hnumber⟩ := (Number.isNumeral_sizeChars hplain.2.1).isLiteral
    rw [Number.IsPlain.text_eq hplain]
    refine .singleton hliteral ?_
    rcases hnumber with h | h <;> rw [h] <;> exact nofun
  | @unary op _ _ _ shape _ ih =>
    exact (Separable.nil.operator op (ih hplain.2)).around shape
  | @binary op _ _ _ _ _ shape _ _ ihl ihr =>
    exact ((ihl hplain.1).operator op (ihr hplain.2)).around shape

theorem Bracketed.exists_derivation (h : e.Bracketed ls) (hplain : e.IsPlain) {ts : List Token}
    (hts : ts.map Token.word = ls.map wordOf) :
    ∃ d : Derivation .atom, d.tokens = ts ∧ d.levels + 1 ≤ 2 * e.height ∧
      ∀ ans, (d.tree ans).bare = e.bare := by
  have hoperator {u : Token} {op : Operator} (hu : u.word = wordOf op.symbol.toString) :
      u.kind = .operator op :=
    congrArg Prod.fst (hu.trans (wordOf_operator op))
  induction h generalizing ts with
  | @value x token =>
    obtain ⟨u, _, rfl, hu, hus⟩ := List.map_eq_cons_iff.mp hts
    obtain rfl := List.map_eq_nil_iff.mp hus
    have hnumber : u.kind.IsNumber := by
      have hkind : u.kind = (wordOf (Number.text x)).1 := congrArg Prod.fst hu
      rw [hkind, Number.IsPlain.text_eq hplain]
      exact (Number.isNumeral_sizeChars hplain.2.1).isLiteral.2
    have hread : Number.read? u.literal = some x := by
      have hliteral : u.literal = Number.text x := (congrArg Prod.snd hu).trans (snd_wordOf _)
      rw [hliteral]
      exact Number.IsPlain.read?_text hplain
    exact ⟨.number u x hnumber hread, rfl, by simp [Derivation.levels, height], fun _ => rfl⟩
  | @unary op operand token ls shape _ ih =>
    obtain ⟨inner, hinner, haround⟩ := Derivation.exists_around hts
    obtain ⟨u, us, rfl, hu, hus⟩ := List.map_eq_cons_iff.mp hinner
    obtain ⟨d, rfl, hlevels, htree⟩ := ih hplain.2 hus
    obtain ⟨d', hd'⟩ := Derivation.exists_recast (Category.atom.widens_sign trivial) d
    have hsign : op.signPower?.isSome := by rcases hplain.1 with rfl | rfl <;> rfl
    obtain ⟨b, hb, hbracket, hsame⟩ :=
      haround (.sign op u (hoperator hu) hsign d') (congrArg (u :: ·) hd'.tokens)
    refine ⟨b, hb, ?_, fun ans => ?_⟩
    · simp only [hbracket, Derivation.levels, hd'.levels, height]
      omega
    · simp only [hsame, Derivation.tree, hd'.tree, bare, htree]
  | @binary op left right token ls rs shape _ _ ihl ihr =>
    obtain ⟨inner, hinner, haround⟩ := Derivation.exists_around hts
    rw [List.map_append, List.map_cons] at hinner
    obtain ⟨front, _, rfl, hfront, hinner⟩ := List.map_eq_append_iff.mp hinner
    obtain ⟨u, back, rfl, hu, hback⟩ := List.map_eq_cons_iff.mp hinner
    obtain ⟨d, rfl, hdl, hdt⟩ := ihl hplain.1 hfront
    obtain ⟨f, rfl, hfl, hft⟩ := ihr hplain.2 hback
    obtain ⟨l, c, r, hl, hr, joins, -⟩ :=
      Category.exists_joins (r := .atom) (Category.leftPower_lt_atom_stop op) (Nat.zero_le _)
        trivial
    obtain ⟨d', hd'⟩ := d.exists_recast hl
    obtain ⟨f', hf'⟩ := f.exists_recast hr
    obtain ⟨b, hb, hbracket, hsame⟩ := haround (.join op u (hoperator hu) joins d' f')
      (by simp only [Derivation.tokens, hd'.tokens, hf'.tokens])
    refine ⟨b, hb, ?_, fun ans => ?_⟩
    · simp only [hbracket, Derivation.levels, hd'.levels, hf'.levels, height]
      omega
    · simp only [hsame, Derivation.tree, hd'.tree, hf'.tree, bare, hdt, hft]

end Expr

namespace Session

open Equation

/-- A tree of height 50 at most, written in full brackets with any blanks around its literals, is
read back as the same tree. -/
theorem parse_bracketed (s : Session) {e : Expr} {ls : List String} {text : String}
    (hplain : e.IsPlain) (hheight : e.height ≤ 50)
    (hls : e.Bracketed ls) (htext : Spelled (envelope ls) text.toList) :
    ∃ tree, (s.parse text).1 = .ok tree ∧ tree.bare = e.bare := by
  obtain ⟨inner, closing, hencloses, hinner⟩ := htext.exists_encloses (hls.separable hplain)
  obtain ⟨d, rfl, hlevels, htree⟩ := hls.exists_derivation hplain hinner
  obtain ⟨sum, hsum⟩ := d.exists_recast (Category.widens_sum .atom)
  rw [← hsum.tokens] at hencloses
  have hbare : (sum.tree s.answer).bare = e.bare := by rw [hsum.tree, htree]
  have hadmitted : Admitted (settingOf s.answer closing) 0 sum := by
    have hsame : (sum.tree s.answer).height = e.height := by
      rw [← Expr.height_bare, hbare, Expr.height_bare]
    have hmaxDepth : maxDepth = 100 := rfl
    have hmaxHeight : maxHeight = 1000 := rfl
    refine ⟨?_, Expr.binaryWithin_of_height_le (hsame.trans_le ?_)⟩
    · rw [hsum.levels]
      omega
    · omega
  exact ⟨_, (parse_derivation hencloses).1 hadmitted, hbare⟩

/-- A sum with a sign, a fraction and zero, and brackets of all shapes. -/
theorem parse_bracketed_sum :
    ∃ tree, (new.parse "calc'{ [-0.5] + (12^0)}'").1 = .ok tree ∧
      tree.bare = .binary .plus (.unary .minus (.value 0.5 none) none)
        (.binary .power (.value 12 none) (.value 0 none) none) none := by
  have hhalf : Number.text 0.5 = "0.5" := by decide +kernel
  have htwelve : Number.text 12 = "12" := by decide +kernel
  have hzero : Number.text 0 = "0" := by decide +kernel
  have hls : Expr.Bracketed (.binary .plus (.unary .minus (.value 0.5 none) none)
      (.binary .power (.value 12 none) (.value 0 none) none) none)
      (Bracket.curly.around (Bracket.square.around ["-", "0.5"] ++
        "+" :: Bracket.round.around ["12", "^", "0"])) := by
    rw [← hhalf, ← htwelve, ← hzero]
    exact .binary .curly (.unary .square .value) (.binary .round .value .value)
  have hplain : Number.IsPlain 0.5 ∧ Number.IsPlain 12 ∧ Number.IsPlain 0 := by
    unfold Number.IsPlain
    decide +kernel
  refine parse_bracketed new ?_ (by decide) hls ?_
  · exact ⟨⟨.inr rfl, hplain.1⟩, hplain.2⟩
  · exact .literal (.literal (.literal (.blank rfl (.literal (.literal (.literal (.literal
      (.blank rfl (.literal (.blank rfl (.literal (.literal (.literal (.literal (.literal
        (.literal (.literal .nil)))))))))))))))))

end Session

end PromptCalc
