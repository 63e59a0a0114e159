import PromptCalc.Lexer
import PromptCalc.Number

/-!
# Lexing piece by piece

The tokens of a text are those of its beginning followed by those of the rest, if the rest starts
with a character that continues no numeral and no word. Every token stands for a lexeme, and every
numeral among them is a number.
-/
namespace PromptCalc

/-- No numeral and no word goes on into the characters. -/
def Boundary (cs : List Char) : Prop :=
  ∀ c ∈ cs.head?, isNumeric c = false ∧ isLetter c = false

theorem Boundary.nil : Boundary [] := by simp [Boundary]

theorem Boundary.cons {c : Char} {cs : List Char} (hnumeric : isNumeric c = false)
    (hletter : isLetter c = false) : Boundary (c :: cs) := by
  intro d hd
  obtain rfl := Option.some.inj hd
  exact ⟨hnumeric, hletter⟩

namespace TokenKind

/-- The one character that every token of the kind is made of, if there is one. -/
def symbol? : TokenKind → Option Char
  | quote => some '\''
  | opening shape => some shape.opener
  | closing shape => some shape.closer
  | operator op => some op.symbol
  | _ => none

theorem ofSymbol?_eq_some_iff {c : Char} {kind : TokenKind} :
    ofSymbol? c = some kind ↔ kind.symbol? = some c := by
  constructor
  · intro h
    unfold ofSymbol? at h
    split at h <;> cases h <;> rfl
  · intro h
    cases kind with
    | quote => cases h; rfl
    | opening shape => cases shape <;> cases h <;> rfl
    | closing shape => cases shape <;> cases h <;> rfl
    | operator op => cases op <;> cases h <;> rfl
    | _ => cases h

theorem symbol?_ofNumeral (cs : List Char) : (ofNumeral cs).symbol? = none := by
  unfold ofNumeral
  split
  · rfl
  · split <;> rfl
  · rfl

theorem symbol?_ofWord (cs : List Char) : (ofWord cs).symbol? = none := by
  unfold ofWord
  split
  · rfl
  · split <;> rfl

end TokenKind

namespace Lexeme

theorem takeWhile_append_of_head {test : Char → Bool} {as bs : List Char}
    (has : ∀ c ∈ as, test c = true) (hbs : ∀ c ∈ bs.head?, test c = false) :
    (as ++ bs).takeWhile test = as ∧ (as ++ bs).dropWhile test = bs := by
  rw [List.takeWhile_append_of_pos has, List.dropWhile_append_of_pos has]
  cases bs with
  | nil => simp
  | cons b bs => simp [hbs b rfl]

/-- A run ends where it did, if the new rest starts like the old one or does not continue it. -/
theorem run_append {kind : List Char → TokenKind} {test : Char → Bool} {c : Char}
    {cs rest : List Char}
    (h : rest.head? = (cs.dropWhile test).head? ∨ ∀ c ∈ rest.head?, test c = false) :
    run kind test c (cs.takeWhile test ++ rest) =
      ⟨kind (c :: cs.takeWhile test), c :: cs.takeWhile test, rest⟩ := by
  have hhead : ∀ c ∈ rest.head?, test c = false := by
    rcases h with h | h
    · intro c hc
      have hdrop := List.head?_dropWhile_not test cs
      rw [← h, Option.mem_def.mp hc] at hdrop
      simpa using hdrop
    · exact h
  have hall : ∀ c ∈ cs.takeWhile test, test c = true :=
    List.all_eq_true.mp List.all_takeWhile
  obtain ⟨htake, hdrop⟩ := takeWhile_append_of_head hall hhead
  simp only [run, htake, hdrop]

/-- The four kinds of lexemes, told apart by their first character. -/
theorem cut_cases (c : Char) :
    (∃ kind, TokenKind.ofSymbol? c = some kind ∧ ∀ cs, cut c cs = ⟨kind, [c], cs⟩) ∨
    (c.isDigit = true ∧ ∀ cs, cut c cs = run TokenKind.ofNumeral isNumeric c cs) ∨
    (isLetter c = true ∧ ∀ cs, cut c cs = run TokenKind.ofWord isLetter c cs) ∨
    ∀ cs, cut c cs = ⟨.unknown, [c], cs⟩ := by
  cases hsymbol : TokenKind.ofSymbol? c with
  | some kind => exact .inl ⟨kind, rfl, fun cs => by simp [cut, hsymbol]⟩
  | none =>
    right
    by_cases hdigit : c.isDigit = true
    · exact .inl ⟨hdigit, fun cs => by simp [cut, hsymbol, hdigit]⟩
    · right
      by_cases hletter : isLetter c = true
      · exact .inl ⟨hletter, fun cs => by simp [cut, hsymbol, hdigit, hletter]⟩
      · exact .inr fun cs => by simp [cut, hsymbol, hdigit, hletter]

theorem cut_of_symbol {c d : Char} {cs : List Char} (h : (cut c cs).kind.symbol? = some d) :
    c = d ∧ ∀ rest, cut c rest = ⟨(cut c cs).kind, [c], rest⟩ := by
  rcases cut_cases c with ⟨kind, hsymbol, hcut⟩ | ⟨_, hcut⟩ | ⟨_, hcut⟩ | hcut
  · rw [hcut, TokenKind.ofSymbol?_eq_some_iff.mp hsymbol] at h
    exact ⟨Option.some.inj h, fun rest => by rw [hcut, hcut]⟩
  · simp [hcut, run, TokenKind.symbol?_ofNumeral] at h
  · simp [hcut, run, TokenKind.symbol?_ofWord] at h
  · simp [hcut, TokenKind.symbol?] at h

theorem cut_of_isDigit {c : Char} (h : c.isDigit = true) (cs : List Char) :
    cut c cs = run TokenKind.ofNumeral isNumeric c cs := by
  have hsymbol : TokenKind.ofSymbol? c = none := by
    unfold TokenKind.ofSymbol?
    split <;> first | rfl | exact absurd h (by decide)
  simp only [cut, hsymbol, h, if_true]

/-- A lexeme ends where it did, if the new rest starts like the old one or with a boundary. -/
theorem cut_append {c : Char} {cs tail rest : List Char} (htail : (cut c cs).chars = c :: tail)
    (h : rest.head? = (cut c cs).rest.head? ∨ Boundary rest) :
    cut c (tail ++ rest) = ⟨(cut c cs).kind, (cut c cs).chars, rest⟩ := by
  rcases cut_cases c with ⟨kind, _, hcut⟩ | ⟨_, hcut⟩ | ⟨_, hcut⟩ | hcut
  · simp only [hcut, List.cons.injEq, true_and] at htail ⊢
    simp [← htail]
  · simp only [hcut, run, List.cons.injEq, true_and] at htail h ⊢
    subst htail
    exact run_append (h.imp_right fun hb c hc => (hb c hc).1)
  · simp only [hcut, run, List.cons.injEq, true_and] at htail h ⊢
    subst htail
    exact run_append (h.imp_right fun hb c hc => (hb c hc).2)
  · simp only [hcut, List.cons.injEq, true_and] at htail ⊢
    simp [← htail]

theorem exists_tail (c : Char) (cs : List Char) : ∃ tail, (cut c cs).chars = c :: tail := by
  have hlossless := cut_lossless c cs
  cases hchars : (cut c cs).chars with
  | nil => exact absurd hchars (cut_chars_ne_nil c cs)
  | cons a tail =>
    rw [hchars, List.cons_append, List.cons.injEq] at hlossless
    exact ⟨tail, by rw [hlossless.1]⟩

end Lexeme

namespace Token

theorem scan_nil (offset : Nat) : scan offset [] = [] := scan_of_first?_none rfl

theorem scan_blank {offset : Nat} {c : Char} {cs : List Char} (h : isBlank c = true) :
    scan offset (c :: cs) = scan (offset + 1) cs := by
  have hfirst : first? offset (c :: cs) = first? (offset + 1) cs := by simp [first?, h]
  cases hnext : first? (offset + 1) cs with
  | none => rw [scan_of_first?_none (hfirst.trans hnext), scan_of_first?_none hnext]
  | some found => rw [scan_of_first?_some (hfirst.trans hnext), scan_of_first?_some hnext]

theorem scan_cons {offset : Nat} {c : Char} {cs : List Char} (h : isBlank c = false) :
    scan offset (c :: cs) = (Lexeme.cut c cs).token offset ::
      scan (offset + byteSize (Lexeme.cut c cs).chars) (Lexeme.cut c cs).rest := by
  have hfirst : first? offset (c :: cs) =
      some ((Lexeme.cut c cs).token offset, (Lexeme.cut c cs).rest) := by
    simp [first?, h]
  rw [scan_of_first?_some hfirst]
  rfl

/-- To show something of every text, go over blanks character by character and over all else lexeme
by lexeme. -/
theorem scan_induction {motive : List Char → Prop} (nil : motive [])
    (blank : ∀ c cs, isBlank c = true → motive cs → motive (c :: cs))
    (token : ∀ c cs, isBlank c = false → motive (Lexeme.cut c cs).rest → motive (c :: cs))
    (cs : List Char) : motive cs := by
  induction hlength : cs.length using Nat.strongRecOn generalizing cs with
  | ind n ih =>
    cases cs with
    | nil => exact nil
    | cons c cs =>
      cases hc : isBlank c with
      | true => exact blank c cs hc (ih cs.length (by simp [← hlength]) cs rfl)
      | false =>
        have hlt := Lexeme.cut_rest_length_lt c cs
        exact token c cs hc (ih _ (hlength ▸ hlt) _ rfl)

theorem scan_append {as bs : List Char} (hbs : Boundary bs) (offset : Nat) :
    scan offset (as ++ bs) = scan offset as ++ scan (offset + byteSize as) bs := by
  induction as using scan_induction generalizing offset with
  | nil => simp [scan_nil]
  | blank c cs hc ih =>
    rw [List.cons_append, scan_blank hc, scan_blank hc, ih, byteSize_cons, utf8Size_of_isBlank hc,
      Nat.add_assoc]
  | token c cs hc ih =>
    obtain ⟨tail, htail⟩ := Lexeme.exists_tail c cs
    have hlossless := Lexeme.cut_lossless c cs
    have hcs : tail ++ (Lexeme.cut c cs).rest = cs := by
      rw [htail, List.cons_append, List.cons.injEq] at hlossless
      exact hlossless.2
    have hrest : ((Lexeme.cut c cs).rest ++ bs).head? = (Lexeme.cut c cs).rest.head? ∨
        Boundary ((Lexeme.cut c cs).rest ++ bs) := by
      cases (Lexeme.cut c cs).rest with
      | nil => exact .inr hbs
      | cons => exact .inl rfl
    have hcut := Lexeme.cut_append htail hrest
    rw [← List.append_assoc, hcs] at hcut
    rw [List.cons_append, scan_cons hc, scan_cons hc, hcut]
    simp only [ih, List.cons_append, Lexeme.token]
    rw [← hlossless, byteSize_append, Nat.add_assoc]

theorem mem_scan {offset : Nat} {cs : List Char} {t : Token} (h : t ∈ scan offset cs) :
    ∃ start c rest, isBlank c = false ∧ t = (Lexeme.cut c rest).token start := by
  induction cs using scan_induction generalizing offset with
  | nil => simp [scan_nil] at h
  | blank c cs hc ih =>
    rw [scan_blank hc] at h
    exact ih h
  | token c cs hc ih =>
    rw [scan_cons hc, List.mem_cons] at h
    rcases h with rfl | h
    · exact ⟨offset, c, cs, hc, rfl⟩
    · exact ih h

end Token

theorem tokenize_eq_scan (text : String) : tokenize text = Token.scan 0 text.toList := by
  have hahead : (Lexer.ofText text).ahead = ⟨0, text.toList⟩ := Ahead.drop_zero _
  rw [tokenize, Lexer.tokens, hahead]
  simp [Ahead.tokens, Lexer.ofText]

theorem Token.literal_of_symbol {text : String} {t : Token} {c : Char} (h : t ∈ tokenize text)
    (hsymbol : t.kind.symbol? = some c) : t.literal = c.toString ∧ t.span.size = c.utf8Size := by
  rw [tokenize_eq_scan] at h
  obtain ⟨start, d, rest, -, rfl⟩ := mem_scan h
  obtain ⟨rfl, hcut⟩ := Lexeme.cut_of_symbol hsymbol
  rw [hcut rest]
  exact ⟨String.singleton_eq_ofList.symm, rfl⟩

theorem Token.literal_of_command {text : String} {t : Token} (h : t ∈ tokenize text)
    (hkind : t.kind = .command) : t.literal = "calc" := by
  rw [tokenize_eq_scan] at h
  obtain ⟨start, c, rest, -, rfl⟩ := mem_scan h
  rcases Lexeme.cut_cases c with ⟨kind, hsymbol, hcut⟩ | ⟨_, hcut⟩ | ⟨_, hcut⟩ | hcut <;>
    simp only [Lexeme.token, hcut, Lexeme.run] at hkind ⊢
  · subst hkind
    cases TokenKind.ofSymbol?_eq_some_iff.mp hsymbol
  · unfold TokenKind.ofNumeral at hkind
    split at hkind
    · cases hkind
    · split at hkind <;> cases hkind
    · cases hkind
  · unfold TokenKind.ofWord at hkind
    split at hkind
    · next hword => rw [hword]
    · split at hkind <;> cases hkind
  · cases hkind

namespace TokenKind

def IsNumber (kind : TokenKind) : Prop := kind = int ∨ kind = float

theorem not_isNumber_ofSymbol {c : Char} {kind : TokenKind} (h : ofSymbol? c = some kind) :
    ¬ kind.IsNumber := by
  rintro (rfl | rfl) <;> cases ofSymbol?_eq_some_iff.mp h

theorem not_isNumber_ofWord (cs : List Char) : ¬ (ofWord cs).IsNumber := by
  unfold ofWord
  split
  · simp [IsNumber]
  · split <;> simp [IsNumber]

theorem exists_ofNumeral? {c : Char} {cs : List Char} (hdigit : c.isDigit = true)
    (h : (ofNumeral (c :: cs)).IsNumber) : ∃ d, Decimal.ofNumeral? (c :: cs) = some d := by
  have hwhole : (c :: cs).takeWhile Char.isDigit = c :: cs.takeWhile Char.isDigit := by
    simp [hdigit]
  unfold ofNumeral at h
  simp only [Decimal.ofNumeral?, hwhole]
  split at h
  · next hdrop =>
    rw [hdrop]
    exact ⟨_, rfl⟩
  · next part hdrop =>
    rw [hdrop]
    split at h
    · next hpart => exact ⟨_, if_pos (by simpa [Decimal.isDigits] using hpart)⟩
    · simp [IsNumber] at h
  · simp [IsNumber] at h

end TokenKind

theorem exists_read_of_mem_tokenize {text : String} {t : Token} (h : t ∈ tokenize text)
    (hkind : t.kind.IsNumber) : ∃ x, Number.read? t.literal = some x := by
  rw [tokenize_eq_scan] at h
  obtain ⟨start, c, rest, -, rfl⟩ := Token.mem_scan h
  simp only [Lexeme.token, Number.read?, String.toList_ofList] at hkind ⊢
  rcases Lexeme.cut_cases c with ⟨kind, hsymbol, hcut⟩ | ⟨hdigit, hcut⟩ | ⟨_, hcut⟩ | hcut <;>
    rw [hcut] at hkind ⊢
  · exact absurd hkind (TokenKind.not_isNumber_ofSymbol hsymbol)
  · obtain ⟨d, hd⟩ := TokenKind.exists_ofNumeral? hdigit hkind
    exact ⟨d.toFloat, by rw [Lexeme.run, hd]; rfl⟩
  · exact absurd hkind (TokenKind.not_isNumber_ofWord _)
  · simp [TokenKind.IsNumber] at hkind

end PromptCalc
