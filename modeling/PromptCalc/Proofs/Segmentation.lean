import PromptCalc.Proofs.Lossless
import PromptCalc.Proofs.Spelling
import Mathlib

/-!
# Segmentation

What a token is, said of the characters it is made of and of those that follow it. Numerals and
words are as long as they can be, and their kinds are told from all of their characters. A text is
cut into tokens and blanks in one way only, and that is the way it is lexed.
-/
namespace PromptCalc

def IsFraction (cs : List Char) : Prop :=
  ∃ whole part : List Char, Decimal.isDigits whole = true ∧ Decimal.isDigits part = true ∧
    cs = whole ++ '.' :: part

structure TokenKind.IsOfNumeral (kind : TokenKind) (cs : List Char) : Prop where
  int : kind = .int ↔ '.' ∉ cs
  float : kind = .float ↔ IsFraction cs
  unknown : kind ≠ .int → kind ≠ .float → kind = .unknown

structure TokenKind.IsOfWord (kind : TokenKind) (cs : List Char) : Prop where
  command : kind = .command ↔ cs = ['c', 'a', 'l', 'c']
  answer : kind = .answer ↔ cs = ['a', 'n', 's']
  unknown : kind ≠ .command → kind ≠ .answer → kind = .unknown

/-- Before the rest, the characters are one token of the kind. -/
inductive Munched : TokenKind → List Char → List Char → Prop where
  | symbol {kind : TokenKind} {c : Char} {rest : List Char} : kind.symbol? = some c →
      Munched kind [c] rest
  | numeral {kind : TokenKind} {c : Char} {cs rest : List Char} : c.isDigit = true →
      (∀ d ∈ cs, isNumeric d = true) → (∀ d ∈ rest.head?, isNumeric d = false) →
      kind.IsOfNumeral (c :: cs) → Munched kind (c :: cs) rest
  | word {kind : TokenKind} {c : Char} {cs rest : List Char} : isLetter c = true →
      (∀ d ∈ cs, isLetter d = true) → (∀ d ∈ rest.head?, isLetter d = false) →
      kind.IsOfWord (c :: cs) → Munched kind (c :: cs) rest
  | other {c : Char} {rest : List Char} : isBlank c = false →
      (∀ kind : TokenKind, kind.symbol? ≠ some c) → c.isDigit = false → isLetter c = false →
      Munched .unknown [c] rest

/-- From the offset on, the characters are cut into the tokens, with nothing but blanks before,
between and behind them. -/
inductive Segmented : Nat → List Char → List Token → Prop where
  | nil {offset : Nat} : Segmented offset [] []
  | blank {offset : Nat} {c : Char} {cs : List Char} {ts : List Token} : isBlank c = true →
      Segmented (offset + 1) cs ts → Segmented offset (c :: cs) ts
  | token {offset : Nat} {t : Token} {rest : List Char} {ts : List Token} :
      Munched t.kind t.literal.toList rest → t.span = ⟨offset, byteSize t.literal.toList⟩ →
      Segmented t.span.stop rest ts → Segmented offset (t.literal.toList ++ rest) (t :: ts)

/-- A numeral or a word with the one character goes on with the other. -/
def Continues (c d : Char) : Prop :=
  isLetter c = true ∧ isLetter d = true ∨ c.isDigit = true ∧ isNumeric d = true

/-- The token stands in the text where its span says and is as long as it can be on either side. -/
def Token.IsMaximalIn (t : Token) (cs : List Char) : Prop :=
  ∃ front rest : List Char, cs = front ++ (t.literal.toList ++ rest) ∧
    t.span = ⟨byteSize front, byteSize t.literal.toList⟩ ∧
    Munched t.kind t.literal.toList rest ∧
    ∀ c ∈ front.getLast?, ∀ d ∈ t.literal.toList.head?, ¬ Continues c d

section Characters

variable {c d : Char}

theorem isNumeric_of_isDigit (h : c.isDigit = true) : isNumeric c = true := by
  simp [isNumeric, h]

theorem isDigit_of_isNumeric (h : isNumeric c = true) (hdot : c ≠ '.') : c.isDigit = true := by
  simpa [isNumeric, hdot] using h

theorem isDigit_eq_false (h : isNumeric c = false) : c.isDigit = false :=
  (Bool.or_eq_false_iff.mp h).1

theorem isLetter_of_isNumeric (h : isNumeric c = true) : isLetter c = false := by
  by_cases hdot : c = '.'
  · rw [hdot]
    rfl
  · have hdigit := isDigit_of_isNumeric h hdot
    have hunderscore : c ≠ '_' := by
      rintro rfl
      exact absurd hdigit (by decide)
    simp only [Char.isDigit, Bool.and_eq_true, decide_eq_true_eq] at hdigit
    simp only [isLetter, Char.isAlpha, Char.isUpper, Char.isLower, beq_false_of_ne hunderscore]
    grind

theorem isBlank_of_isNumeric (h : isNumeric c = true) : isBlank c = false := by
  rw [← Bool.not_eq_true]
  intro hblank
  rw [(plain_of_isBlank hblank).1] at h
  cases h

theorem isBlank_of_isLetter (h : isLetter c = true) : isBlank c = false := by
  rw [← Bool.not_eq_true]
  intro hblank
  rw [(plain_of_isBlank hblank).2] at h
  cases h

theorem not_continues_of_plain (hdigit : c.isDigit = false) (hletter : isLetter c = false) :
    ¬ Continues c d := by
  simp [Continues, hdigit, hletter]

end Characters

namespace TokenKind

variable {kind kind' : TokenKind} {c : Char} {cs : List Char}

theorem IsOfNumeral.unique (h : kind.IsOfNumeral cs) (h' : kind'.IsOfNumeral cs) :
    kind = kind' := by
  by_cases hint : '.' ∉ cs
  · rw [h.int.mpr hint, h'.int.mpr hint]
  · by_cases hfloat : IsFraction cs
    · rw [h.float.mpr hfloat, h'.float.mpr hfloat]
    · rw [h.unknown (mt h.int.mp hint) (mt h.float.mp hfloat),
        h'.unknown (mt h'.int.mp hint) (mt h'.float.mp hfloat)]

theorem IsOfWord.unique (h : kind.IsOfWord cs) (h' : kind'.IsOfWord cs) : kind = kind' := by
  by_cases hcommand : cs = ['c', 'a', 'l', 'c']
  · rw [h.command.mpr hcommand, h'.command.mpr hcommand]
  · by_cases hanswer : cs = ['a', 'n', 's']
    · rw [h.answer.mpr hanswer, h'.answer.mpr hanswer]
    · rw [h.unknown (mt h.command.mp hcommand) (mt h.answer.mp hanswer),
        h'.unknown (mt h'.command.mp hcommand) (mt h'.answer.mp hanswer)]

theorem dot_notMem_of_dropWhile (h : cs.dropWhile Char.isDigit = []) : '.' ∉ cs := by
  intro hdot
  exact absurd (List.dropWhile_eq_nil_iff.mp h '.' hdot) (by decide)

theorem dropWhile_of_isFraction (h : IsFraction cs) :
    ∃ part, cs.dropWhile Char.isDigit = '.' :: part ∧ Decimal.isDigits part = true := by
  obtain ⟨whole, part, hwhole, hpart, rfl⟩ := h
  exact ⟨part, (Decimal.takeWhile_digits_append hwhole (by simp)).2, hpart⟩

theorem dropWhile_of_isNumeric (h : ∀ c ∈ cs, isNumeric c = true) :
    cs.dropWhile Char.isDigit = [] ∨ ∃ part, cs.dropWhile Char.isDigit = '.' :: part := by
  have hcut := List.takeWhile_append_dropWhile (p := Char.isDigit) (l := cs)
  have hhead := List.head?_dropWhile_not Char.isDigit cs
  cases hdrop : cs.dropWhile Char.isDigit with
  | nil => exact .inl rfl
  | cons d part =>
    have hmem : d ∈ cs := by
      rw [← hcut, hdrop]
      simp
    have hdigit : d.isDigit = false := by
      rw [hdrop] at hhead
      simpa using hhead
    have hdot : d = '.' := by simpa [isNumeric, hdigit] using h d hmem
    exact .inr ⟨part, by rw [hdot]⟩

theorem ofNumeral_of_dropWhile {part : List Char} (h : cs.dropWhile Char.isDigit = '.' :: part) :
    ofNumeral cs = if part ≠ [] ∧ part.all Char.isDigit then float else unknown := by
  unfold ofNumeral
  rw [h]
  rfl

theorem isOfNumeral_ofNumeral (hc : c.isDigit = true) (hcs : ∀ d ∈ cs, isNumeric d = true) :
    (ofNumeral (c :: cs)).IsOfNumeral (c :: cs) := by
  have hnumeric : ∀ d ∈ c :: cs, isNumeric d = true :=
    List.forall_mem_cons.mpr ⟨isNumeric_of_isDigit hc, hcs⟩
  have hcut := List.takeWhile_append_dropWhile (p := Char.isDigit) (l := c :: cs)
  rcases dropWhile_of_isNumeric hnumeric with hdrop | ⟨ds, hdrop⟩
  · rw [ofNumeral, hdrop]
    refine ⟨iff_of_true rfl (dot_notMem_of_dropWhile hdrop),
      iff_of_false (by decide) fun h => ?_, fun h => absurd rfl h⟩
    obtain ⟨part, hpart, -⟩ := dropWhile_of_isFraction h
    cases hdrop.symm.trans hpart
  · have hdot : '.' ∈ c :: cs := by
      rw [← hcut, hdrop]
      simp
    rw [ofNumeral_of_dropWhile hdrop]
    split
    · next hds =>
      refine ⟨iff_of_false (by decide) (not_not_intro hdot), iff_of_true rfl ?_,
        fun _ h => absurd rfl h⟩
      refine ⟨_, ds, ?_, by simpa [Decimal.isDigits] using hds, by rw [← hdrop, hcut]⟩
      simp [Decimal.isDigits, hc]
    · next hds =>
      refine ⟨iff_of_false (by decide) (not_not_intro hdot),
        iff_of_false (by decide) fun h => hds ?_, fun _ _ => rfl⟩
      obtain ⟨part, hpart, hdigits⟩ := dropWhile_of_isFraction h
      obtain ⟨-, rfl⟩ := List.cons.inj (hdrop.symm.trans hpart)
      simpa [Decimal.isDigits] using hdigits

theorem isOfWord_ofWord (cs : List Char) : (ofWord cs).IsOfWord cs := by
  unfold ofWord
  split
  · next h => exact ⟨iff_of_true rfl h, iff_of_false nofun (by rw [h]; decide), nofun⟩
  · next hcommand =>
    split
    · next h => exact ⟨iff_of_false nofun hcommand, iff_of_true rfl h, nofun⟩
    · next hanswer =>
      exact ⟨iff_of_false nofun hcommand, iff_of_false nofun hanswer, fun _ _ => rfl⟩

end TokenKind

theorem Lexeme.cut_of_isLetter {c : Char} (h : isLetter c = true) (cs : List Char) :
    cut c cs = run TokenKind.ofWord isLetter c cs := by
  have hsymbol : TokenKind.ofSymbol? c = none := by
    cases hfound : TokenKind.ofSymbol? c with
    | none => rfl
    | some kind =>
      have hplain := TokenKind.plain_of_symbol? (TokenKind.ofSymbol?_eq_some_iff.mp hfound)
      rw [hplain.2.2] at h
      cases h
  have hdigit : c.isDigit = false := by
    rw [← Bool.not_eq_true]
    intro hdigit
    rw [isLetter_of_isNumeric (isNumeric_of_isDigit hdigit)] at h
    cases h
  simp [cut, hsymbol, hdigit, h]

namespace Munched

variable {kind : TokenKind} {c d : Char} {chars cs rest : List Char}

theorem ne_nil (h : Munched kind chars rest) : chars ≠ [] := by
  cases h <;> simp

theorem isBlank_head (h : Munched kind (c :: cs) rest) : isBlank c = false := by
  cases h with
  | symbol hsymbol => exact (TokenKind.plain_of_symbol? hsymbol).1
  | numeral hc => exact isBlank_of_isNumeric (isNumeric_of_isDigit hc)
  | word hc => exact isBlank_of_isLetter hc
  | other hblank => exact hblank

theorem cut_eq (h : Munched kind (c :: cs) rest) :
    Lexeme.cut c (cs ++ rest) = ⟨kind, c :: cs, rest⟩ := by
  cases h with
  | symbol hsymbol =>
    have hof := TokenKind.ofSymbol?_eq_some_iff.mpr hsymbol
    simp [Lexeme.cut, hof]
  | numeral hc hcs hrest hkind =>
    obtain ⟨htake, hdrop⟩ := Lexeme.takeWhile_append_of_head hcs hrest
    rw [Lexeme.cut_of_isDigit hc, Lexeme.run, htake, hdrop,
      (TokenKind.isOfNumeral_ofNumeral hc hcs).unique hkind]
  | word hc hcs hrest hkind =>
    obtain ⟨htake, hdrop⟩ := Lexeme.takeWhile_append_of_head hcs hrest
    rw [Lexeme.cut_of_isLetter hc, Lexeme.run, htake, hdrop,
      (TokenKind.isOfWord_ofWord _).unique hkind]
  | other hblank hsymbol hdigit hletter =>
    have hof : TokenKind.ofSymbol? c = none := by
      rw [Option.eq_none_iff_forall_ne_some]
      exact fun kind hkind => hsymbol kind (TokenKind.ofSymbol?_eq_some_iff.mp hkind)
    simp [Lexeme.cut, hof, hdigit, hletter]

theorem of_cut (hblank : isBlank c = false) (cs : List Char) :
    Munched (Lexeme.cut c cs).kind (Lexeme.cut c cs).chars (Lexeme.cut c cs).rest := by
  have hhead (test : Char → Bool) : ∀ d ∈ (cs.dropWhile test).head?, test d = false := by
    intro d hd
    have hnot := List.head?_dropWhile_not test cs
    rw [Option.mem_def.mp hd] at hnot
    simpa using hnot
  have hall (test : Char → Bool) : ∀ d ∈ cs.takeWhile test, test d = true :=
    List.all_eq_true.mp List.all_takeWhile
  unfold Lexeme.cut
  split
  · next kind hsymbol => exact .symbol (TokenKind.ofSymbol?_eq_some_iff.mp hsymbol)
  · next hsymbol =>
    split
    · next hdigit =>
      exact .numeral hdigit (hall _) (hhead _) (TokenKind.isOfNumeral_ofNumeral hdigit (hall _))
    · next hdigit =>
      split
      · next hletter => exact .word hletter (hall _) (hhead _) (TokenKind.isOfWord_ofWord _)
      · next hletter =>
        refine .other hblank (fun kind hkind => ?_) (by simpa using hdigit) (by simpa using hletter)
        rw [TokenKind.ofSymbol?_eq_some_iff.mpr hkind] at hsymbol
        cases hsymbol

theorem not_continues (h : Munched kind chars rest) :
    ∀ c ∈ chars, ∀ d ∈ rest.head?, ¬ Continues c d := by
  intro c hc d hd
  cases h with
  | symbol hsymbol =>
    obtain rfl := List.mem_singleton.mp hc
    obtain ⟨-, hnumeric, hletter⟩ := TokenKind.plain_of_symbol? hsymbol
    exact not_continues_of_plain (isDigit_eq_false hnumeric) hletter
  | @numeral _ b cs _ hb hcs hrest =>
    have hnumeric : ∀ c ∈ b :: cs, isNumeric c = true :=
      List.forall_mem_cons.mpr ⟨isNumeric_of_isDigit hb, hcs⟩
    simp [Continues, isLetter_of_isNumeric (hnumeric c hc), hrest d hd]
  | @word _ b cs _ hb hcs hrest =>
    have hletter : ∀ c ∈ b :: cs, isLetter c = true := List.forall_mem_cons.mpr ⟨hb, hcs⟩
    have hdigit : c.isDigit = false := by
      rw [← Bool.not_eq_true]
      intro hdigit
      have hplain := isLetter_of_isNumeric (isNumeric_of_isDigit hdigit)
      rw [hletter c hc] at hplain
      cases hplain
    simp [Continues, hrest d hd, hdigit]
  | other _ _ hdigit hletter =>
    obtain rfl := List.mem_singleton.mp hc
    exact not_continues_of_plain hdigit hletter

end Munched

theorem segmented_scan (offset : Nat) (cs : List Char) :
    Segmented offset cs (Token.scan offset cs) := by
  induction cs using Token.scan_induction generalizing offset with
  | nil => exact Token.scan_nil offset ▸ .nil
  | blank c cs hc ih => exact Token.scan_blank hc ▸ .blank hc (ih (offset + 1))
  | token c cs hc ih =>
    have hmunched : Munched (Lexeme.cut c cs).kind
        ((Lexeme.cut c cs).token offset).literal.toList (Lexeme.cut c cs).rest := by
      simpa [Lexeme.token] using Munched.of_cut hc cs
    have hspan : ((Lexeme.cut c cs).token offset).span =
        ⟨offset, byteSize ((Lexeme.cut c cs).token offset).literal.toList⟩ := by
      simp [Lexeme.token]
    have hcut := Segmented.token hmunched hspan (ih _)
    rw [Token.scan_cons hc]
    simpa [Lexeme.token, Span.stop, Lexeme.cut_lossless] using hcut

namespace Segmented

variable {offset : Nat} {cs : List Char} {ts : List Token}

/-- There is no other way to cut the characters into tokens and blanks. -/
theorem eq_scan (h : Segmented offset cs ts) : ts = Token.scan offset cs := by
  induction h with
  | nil => exact (Token.scan_nil _).symm
  | blank hc _ ih => rw [Token.scan_blank hc, ih]
  | @token offset t rest ts hmunched hspan _ ih =>
    obtain ⟨kind, literal, span⟩ := t
    dsimp only at hmunched hspan ih ⊢
    cases hchars : literal.toList with
    | nil => exact absurd hchars hmunched.ne_nil
    | cons c tail =>
      rw [hchars] at hmunched hspan
      have hliteral : literal = String.ofList (c :: tail) := by rw [← hchars, String.ofList_toList]
      rw [List.cons_append, Token.scan_cons hmunched.isBlank_head, hmunched.cut_eq, ih, hliteral,
        hspan]
      rfl

/-- Behind characters that do not go on into the text, every token is as long as it can be. -/
theorem isMaximalIn (h : Segmented offset cs ts) {front : List Char}
    (hoffset : byteSize front = offset)
    (hfront : ∀ c ∈ front.getLast?, ∀ d ∈ cs.head?, ¬ Continues c d) :
    ∀ t ∈ ts, t.IsMaximalIn (front ++ cs) := by
  induction h generalizing front with
  | nil => nofun
  | @blank offset c cs ts hc _ ih =>
    have hbehind : byteSize (front ++ [c]) = offset + 1 := by
      simp [hoffset, utf8Size_of_isBlank hc]
    have hgap : ∀ b ∈ (front ++ [c]).getLast?, ∀ d ∈ cs.head?, ¬ Continues b d := by
      obtain ⟨hnumeric, hletter⟩ := plain_of_isBlank hc
      simpa using fun d _ => not_continues_of_plain (isDigit_eq_false hnumeric) hletter
    simpa using ih hbehind hgap
  | @token offset t rest ts hmunched hspan _ ih =>
    have hbehind : byteSize (front ++ t.literal.toList) = t.span.stop := by
      rw [byteSize_append, hoffset, hspan]
      rfl
    have hgap : ∀ c ∈ (front ++ t.literal.toList).getLast?, ∀ d ∈ rest.head?,
        ¬ Continues c d := by
      rw [List.getLast?_append_of_ne_nil _ hmunched.ne_nil]
      exact fun c hc => hmunched.not_continues c (List.mem_of_getLast? hc)
    refine List.forall_mem_cons.mpr ⟨?_, by simpa using ih hbehind hgap⟩
    refine ⟨front, rest, rfl, hoffset ▸ hspan, hmunched, fun c hc d hd => hfront c hc d ?_⟩
    exact List.head?_append_of_ne_nil _ hmunched.ne_nil ▸ hd

end Segmented

theorem segmented_tokenize (text : String) : Segmented 0 text.toList (tokenize text) :=
  tokenize_eq_scan text ▸ segmented_scan 0 text.toList

theorem Token.isMaximalIn_of_mem {text : String} {t : Token} (h : t ∈ tokenize text) :
    t.IsMaximalIn text.toList := by
  have hfront : ∀ c ∈ ([] : List Char).getLast?, ∀ d ∈ text.toList.head?, ¬ Continues c d := by
    simp
  exact (segmented_tokenize text).isMaximalIn rfl hfront t h

end PromptCalc
