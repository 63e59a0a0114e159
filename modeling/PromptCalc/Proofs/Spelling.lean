import PromptCalc.Proofs.Prompts
import PromptCalc.Proofs.Substitution
import Mathlib.Data.List.Chain

/-!
# Spelling

A text that is made of literals, with any blanks or none around them, has these literals as its
tokens again, if of two neighbours one is always a symbol.
-/
namespace PromptCalc

/-- The word that a literal is if it is read alone. -/
def wordOf (literal : String) : TokenKind × String :=
  match literal.toList with
  | [] => (.unknown, literal)
  | c :: cs => ((Lexeme.cut c cs).kind, literal)

def IsLiteral (literal : String) : Prop :=
  ∃ c cs, literal.toList = c :: cs ∧ isBlank c = false ∧ (Lexeme.cut c cs).rest = []

def IsSymbol (literal : String) : Prop :=
  ∃ (kind : TokenKind) (c : Char), kind.symbol? = some c ∧ literal = c.toString

/-- The characters are those of the literals, one literal after the other, with nothing but blanks
before, between and behind them. -/
inductive Spelled : List String → List Char → Prop where
  | nil : Spelled [] []
  | blank {c : Char} {ls : List String} {cs : List Char} : isBlank c = true → Spelled ls cs →
      Spelled ls (c :: cs)
  | literal {l : String} {ls : List String} {cs : List Char} : Spelled ls cs →
      Spelled (l :: ls) (l.toList ++ cs)

/-- What an equation is spelled with: of two neighbours one is a symbol, and none is a quote. -/
structure Separable (literals : List String) : Prop where
  literal : ∀ l ∈ literals, IsLiteral l
  unquoted : ∀ l ∈ literals, (wordOf l).1 ≠ .quote
  apart : literals.IsChain fun l m => IsSymbol l ∨ IsSymbol m

def Bracket.around (shape : Bracket) (literals : List String) : List String :=
  shape.opener.toString :: literals ++ [shape.closer.toString]

def envelope (literals : List String) : List String := "calc" :: "'" :: (literals ++ ["'"])

section Symbols

variable {kind : TokenKind} {c : Char}

theorem TokenKind.plain_of_symbol? (h : kind.symbol? = some c) :
    isBlank c = false ∧ isNumeric c = false ∧ isLetter c = false := by
  cases kind with
  | quote => cases h; decide
  | opening shape => cases shape <;> cases h <;> decide
  | closing shape => cases shape <;> cases h <;> decide
  | operator op => cases op <;> cases h <;> decide
  | _ => cases h

theorem plain_of_isBlank (h : isBlank c = true) : isNumeric c = false ∧ isLetter c = false := by
  simp only [isBlank, Bool.or_eq_true, beq_iff_eq] at h
  rcases h with ((rfl | rfl) | rfl) | rfl <;> decide

theorem wordOf_symbol (h : kind.symbol? = some c) : wordOf c.toString = (kind, c.toString) := by
  have hsymbol := TokenKind.ofSymbol?_eq_some_iff.mpr h
  simp [wordOf, Char.toString, Lexeme.cut, hsymbol]

theorem wordOf_operator (op : Operator) :
    wordOf op.symbol.toString = (.operator op, op.symbol.toString) :=
  wordOf_symbol rfl

theorem isLiteral_symbol (h : kind.symbol? = some c) : IsLiteral c.toString := by
  have hsymbol := TokenKind.ofSymbol?_eq_some_iff.mpr h
  exact ⟨c, [], by simp [Char.toString], (TokenKind.plain_of_symbol? h).1,
    by simp [Lexeme.cut, hsymbol]⟩

end Symbols

theorem snd_wordOf (literal : String) : (wordOf literal).2 = literal := by
  unfold wordOf
  split <;> rfl

theorem Token.wordOf_literal {text : String} {t : Token} (h : t ∈ tokenize text) :
    IsLiteral t.literal ∧ wordOf t.literal = t.word := by
  rw [tokenize_eq_scan] at h
  obtain ⟨start, c, rest, hblank, rfl⟩ := mem_scan h
  obtain ⟨tail, htail⟩ := Lexeme.exists_tail c rest
  have hcut : Lexeme.cut c (tail ++ []) = ⟨_, _, []⟩ := Lexeme.cut_append htail (.inr .nil)
  rw [List.append_nil] at hcut
  have hliteral : ((Lexeme.cut c rest).token start).literal.toList = c :: tail := by
    simp [Lexeme.token, htail]
  exact ⟨⟨c, tail, hliteral, hblank, by rw [hcut]⟩, by simp only [wordOf, hliteral, hcut]; rfl⟩

namespace Separable

variable {ls rs : List String} {l : String}

theorem nil : Separable [] := ⟨nofun, nofun, .nil⟩

theorem singleton (hliteral : IsLiteral l) (hunquoted : (wordOf l).1 ≠ .quote) : Separable [l] :=
  ⟨by simpa using hliteral, by simpa using hunquoted, .singleton l⟩

theorem join {kind : TokenKind} {c : Char} (hl : Separable ls) (h : kind.symbol? = some c)
    (hunquoted : kind ≠ .quote) (hr : Separable rs) : Separable (ls ++ c.toString :: rs) := by
  have hsymbol : IsSymbol c.toString := ⟨kind, c, h, rfl⟩
  have hword : (wordOf c.toString).1 ≠ .quote := by rwa [wordOf_symbol h]
  refine ⟨?_, ?_, ?_⟩
  · exact List.forall_mem_append.mpr
      ⟨hl.literal, List.forall_mem_cons.mpr ⟨isLiteral_symbol h, hr.literal⟩⟩
  · exact List.forall_mem_append.mpr
      ⟨hl.unquoted, List.forall_mem_cons.mpr ⟨hword, hr.unquoted⟩⟩
  · refine hl.apart.append (List.isChain_cons.mpr ⟨fun _ _ => .inl hsymbol, hr.apart⟩) ?_
    intro l _ m hm
    obtain rfl := Option.some.inj hm
    exact .inr hsymbol

theorem operator (hl : Separable ls) (op : Operator) (hr : Separable rs) :
    Separable (ls ++ op.symbol.toString :: rs) :=
  have hsymbol : (TokenKind.operator op).symbol? = some op.symbol := rfl
  hl.join hsymbol nofun hr

theorem around (h : Separable ls) (shape : Bracket) : Separable (shape.around ls) :=
  have hopener : (TokenKind.opening shape).symbol? = some shape.opener := rfl
  have hcloser : (TokenKind.closing shape).symbol? = some shape.closer := rfl
  (nil.join hopener nofun h).join hcloser nofun nil

end Separable

namespace Spelled

variable {ls : List String} {cs : List Char}

theorem boundary (h : Spelled ls cs) (hsymbol : ∀ l ∈ ls.head?, IsSymbol l) : Boundary cs := by
  cases h with
  | nil => exact .nil
  | blank hblank =>
    obtain ⟨hnumeric, hletter⟩ := plain_of_isBlank hblank
    exact .cons hnumeric hletter
  | literal =>
    obtain ⟨kind, c, h, rfl⟩ := hsymbol _ rfl
    obtain ⟨-, hnumeric, hletter⟩ := TokenKind.plain_of_symbol? h
    simpa [Char.toString] using .cons hnumeric hletter

/-- A literal is cut off again where a boundary follows, and a symbol in front of anything. -/
theorem cut_literal {literal : String} {c : Char} {tail : List Char}
    (hliteral : literal.toList = c :: tail) (hrest : (Lexeme.cut c tail).rest = [])
    (h : IsSymbol literal ∨ Boundary cs) :
    Lexeme.cut c (tail ++ cs) = ⟨(wordOf literal).1, c :: tail, cs⟩ := by
  have hkind : (wordOf literal).1 = (Lexeme.cut c tail).kind := by simp only [wordOf, hliteral]
  have hchars : (Lexeme.cut c tail).chars = c :: tail := by
    rw [← Lexeme.cut_lossless c tail, hrest, List.append_nil]
  rw [hkind]
  rcases h with ⟨kind, d, hd, rfl⟩ | hboundary
  · rw [wordOf_symbol hd] at hkind
    have hcutkind : (Lexeme.cut c tail).kind.symbol? = some d := by rw [← hkind, hd]
    obtain ⟨rfl, hcut⟩ := Lexeme.cut_of_symbol hcutkind
    obtain rfl : tail = [] := by simpa [Char.toString] using hliteral.symm
    exact hcut cs
  · rw [Lexeme.cut_append hchars (.inr hboundary), hchars]

theorem map_word_scan_literal {literal : String} (hliteral : IsLiteral literal)
    (h : IsSymbol literal ∨ Boundary cs) (offset : Nat) :
    (Token.scan offset (literal.toList ++ cs)).map Token.word =
      wordOf literal :: (Token.scan offset cs).map Token.word := by
  obtain ⟨c, tail, hchars, hblank, hend⟩ := hliteral
  have hcut := cut_literal hchars hend h
  have hl : String.ofList (c :: tail) = literal := by rw [← hchars, String.ofList_toList]
  rw [hchars, List.cons_append, Token.scan_cons hblank, hcut, List.map_cons,
    Token.map_word_scan cs offset]
  simp only [Lexeme.token, Token.word, hl, wordOf, hchars]

/-- The tokens of the text are the literals that it is made of. -/
theorem map_word_scan (h : Spelled ls cs) (hliteral : ∀ l ∈ ls, IsLiteral l)
    (hapart : ls.IsChain fun l m => IsSymbol l ∨ IsSymbol m) (offset : Nat) :
    (Token.scan offset cs).map Token.word = ls.map wordOf := by
  induction h generalizing offset with
  | nil => rw [Token.scan_nil, List.map_nil, List.map_nil]
  | blank hblank _ ih =>
    rw [Token.scan_blank hblank]
    exact ih hliteral hapart _
  | @literal l ls cs hrest ih =>
    obtain ⟨hfirst, hliteral⟩ := List.forall_mem_cons.mp hliteral
    obtain ⟨hneighbour, hapart⟩ := List.isChain_cons.mp hapart
    have hboundary : IsSymbol l ∨ Boundary cs := by
      by_cases hsymbol : IsSymbol l
      · exact .inl hsymbol
      · exact .inr (hrest.boundary fun m hm => (hneighbour m hm).resolve_left hsymbol)
    rw [map_word_scan_literal hfirst hboundary, List.map_cons, ih hliteral hapart]

theorem exists_encloses {text : String} (h : Spelled (envelope ls) text.toList)
    (hls : Separable ls) :
    ∃ inner closing, Encloses text inner closing ∧ inner.map Token.word = ls.map wordOf := by
  have hquote : TokenKind.quote.symbol? = some '\'' := rfl
  have hsymbol : IsSymbol "'" := ⟨.quote, '\'', hquote, rfl⟩
  have hliteral : IsLiteral "'" := isLiteral_symbol hquote
  have hwords : (tokenize text).map Token.word = (envelope ls).map wordOf := by
    rw [tokenize_eq_scan]
    refine h.map_word_scan ?_ ?_ 0
    · have hcommand : IsLiteral "calc" := ⟨'c', ['a', 'l', 'c'], rfl, rfl, rfl⟩
      simp only [envelope, List.forall_mem_cons, List.forall_mem_append]
      exact ⟨hcommand, hliteral, hls.literal, hliteral, nofun⟩
    · have hinner : (ls ++ ["'"]).IsChain fun l m => IsSymbol l ∨ IsSymbol m := by
        refine hls.apart.append (.singleton _) fun l _ m hm => ?_
        obtain rfl := Option.some.inj hm
        exact .inr hsymbol
      exact .cons_cons (.inr hsymbol) (List.isChain_cons.mpr ⟨fun _ _ => .inl hsymbol, hinner⟩)
  simp only [envelope, List.map_cons, List.map_append] at hwords
  obtain ⟨command, _, htokens, hcommand, hwords⟩ := List.map_eq_cons_iff.mp hwords
  obtain ⟨opening, _, rfl, hopening, hwords⟩ := List.map_eq_cons_iff.mp hwords
  obtain ⟨inner, _, rfl, hinner, hwords⟩ := List.map_eq_append_iff.mp hwords
  obtain ⟨closing, _, rfl, hclosing, hwords⟩ := List.map_eq_cons_iff.mp hwords
  obtain rfl := List.map_eq_nil_iff.mp hwords
  have hnone : ∀ t ∈ inner, t.kind ≠ .quote := by
    intro t ht hkind
    have hmem : t.word ∈ ls.map wordOf := hinner ▸ List.mem_map_of_mem ht
    obtain ⟨l, hl, hword⟩ := List.mem_map.mp hmem
    exact hls.unquoted l hl ((congrArg Prod.fst hword).trans hkind)
  exact ⟨inner, closing, ⟨command, opening, htokens, congrArg Prod.fst hcommand,
    congrArg Prod.fst hopening, congrArg Prod.fst hclosing, hnone⟩, hinner⟩

end Spelled

theorem spelled_scan (offset : Nat) (cs : List Char) :
    Spelled ((Token.scan offset cs).map Token.literal) cs := by
  induction cs using Token.scan_induction generalizing offset with
  | nil =>
    rw [Token.scan_nil]
    exact .nil
  | blank c cs hblank ih =>
    rw [Token.scan_blank hblank]
    exact .blank hblank (ih _)
  | token c cs hblank ih =>
    have hcut := @Spelled.literal (String.ofList (Lexeme.cut c cs).chars) _ _
      (ih (offset + byteSize (Lexeme.cut c cs).chars))
    rw [String.toList_ofList, Lexeme.cut_lossless] at hcut
    rw [Token.scan_cons hblank]
    exact hcut

theorem Encloses.spelled {text : String} {inner : List Token} {closing : Token}
    (h : Encloses text inner closing) :
    Spelled (envelope (inner.map Token.literal)) text.toList := by
  have hspelled : Spelled ((tokenize text).map Token.literal) text.toList :=
    tokenize_eq_scan text ▸ spelled_scan 0 text.toList
  obtain ⟨command, opening, htokens, hcommand, hopening, hclosing, -⟩ := h
  have hmem : command ∈ tokenize text ∧ opening ∈ tokenize text ∧ closing ∈ tokenize text := by
    simp [htokens]
  have hquote {t : Token} (ht : t ∈ tokenize text) (hkind : t.kind = .quote) : t.literal = "'" :=
    (Token.literal_of_symbol (c := '\'') ht (by rw [hkind]; rfl)).1
  have hcalc : command.literal = "calc" := Token.literal_of_command hmem.1 hcommand
  have hopen : opening.literal = "'" := hquote hmem.2.1 hopening
  have hclose : closing.literal = "'" := hquote hmem.2.2 hclosing
  rw [htokens] at hspelled
  simpa only [envelope, List.map_cons, List.map_append, List.map_nil, hcalc, hopen, hclose] using
    hspelled

/-- Tokens that stand for literals in a bracket are a bracket around tokens that stand for these. -/
theorem Derivation.exists_around {shape : Bracket} {ls : List String} {ts : List Token}
    (h : ts.map Token.word = (shape.around ls).map wordOf) :
    ∃ inner : List Token, inner.map Token.word = ls.map wordOf ∧
      ∀ {c : Category} (d : Derivation c), d.tokens = inner →
        ∃ e : Derivation .atom, e.tokens = ts ∧ e.levels = d.levels + 1 ∧
          ∀ ans, e.tree ans = d.tree ans := by
  rw [Bracket.around, List.cons_append, List.map_cons, List.map_append] at h
  obtain ⟨opener, _, rfl, hopener, h⟩ := List.map_eq_cons_iff.mp h
  obtain ⟨inner, _, rfl, hinner, h⟩ := List.map_eq_append_iff.mp h
  obtain ⟨closer, _, rfl, hcloser, h⟩ := List.map_eq_cons_iff.mp h
  obtain rfl := List.map_eq_nil_iff.mp h
  have hopens : wordOf shape.opener.toString = (.opening shape, _) := wordOf_symbol rfl
  have hcloses : wordOf shape.closer.toString = (.closing shape, _) := wordOf_symbol rfl
  rw [hopens] at hopener
  rw [hcloses] at hcloser
  refine ⟨inner, hinner, fun d hd => ?_⟩
  obtain ⟨sum, hsum⟩ := d.exists_recast (Category.widens_sum _)
  refine ⟨.bracket shape opener closer (congrArg Prod.fst hopener) (congrArg Prod.fst hcloser) sum,
    ?_, ?_, hsum.tree⟩
  · simp only [tokens, hsum.tokens, hd, List.cons_append]
  · simp only [levels, hsum.levels]

end PromptCalc
