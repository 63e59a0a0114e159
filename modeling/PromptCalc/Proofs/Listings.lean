import PromptCalc.CommandLine
import PromptCalc.Proofs.Layout
import PromptCalc.Proofs.Rendering
import PromptCalc.Proofs.Segmentation

/-!
# Listings

A listing has a line for every token and one for the end of the text. The lines, and the three
columns of each, are told apart by the blanks, since no column has one. So the words of a text can
be read off its listing, and the literals alone, with blanks between them, are the same words again.
-/
namespace PromptCalc

namespace TokenKind

def all : List TokenKind :=
  [command, answer, quote, opening .round, opening .square, opening .curly, closing .round,
    closing .square, closing .curly, operator .plus, operator .minus, operator .times,
    operator .divide, operator .power, int, float, unknown, eof]

theorem mem_all (kind : TokenKind) : kind ∈ all := by
  cases kind with
  | opening shape | closing shape => cases shape <;> decide
  | operator op => cases op <;> decide
  | _ => decide

theorem name_injective : Function.Injective name := by
  have hnodup : (all.map name).Nodup := by simp [all, name]
  exact fun a b h => List.inj_on_of_nodup_map hnodup a.mem_all b.mem_all h

theorem isBlank_of_mem_name {kind : TokenKind} {c : Char} (h : c ∈ kind.name.toList) :
    isBlank c = false := by
  have hall : ∀ a ∈ all, ∀ c ∈ a.name.toList, isBlank c = false := by simp [all, name, isBlank]
  exact hall kind kind.mem_all c h

end TokenKind

theorem Munched.isBlank_of_mem {kind : TokenKind} {chars rest : List Char} {c : Char}
    (h : Munched kind chars rest) (hc : c ∈ chars) : isBlank c = false := by
  cases h with
  | symbol hsymbol =>
    obtain rfl := List.mem_singleton.mp hc
    exact (TokenKind.plain_of_symbol? hsymbol).1
  | numeral hdigit hnumeric =>
    rcases List.mem_cons.mp hc with rfl | hc
    · exact isBlank_of_isNumeric (isNumeric_of_isDigit hdigit)
    · exact isBlank_of_isNumeric (hnumeric c hc)
  | word hfirst hletter =>
    rcases List.mem_cons.mp hc with rfl | hc
    · exact isBlank_of_isLetter hfirst
    · exact isBlank_of_isLetter (hletter c hc)
  | other hblank =>
    obtain rfl := List.mem_singleton.mp hc
    exact hblank

theorem Number.isBlank_of_mem_text {x : Float} {c : Char} (h : c ∈ (text x).toList) :
    isBlank c = false := by
  rcases mem_text h with hletter | hnumeric
  · have hall : ∀ c ∈ ['-', 'N', 'a', 'i', 'n', 'f'], isBlank c = false := by simp [isBlank]
    exact hall c hletter
  · exact isBlank_of_isNumeric hnumeric

namespace Token

variable {text : String} {t u : Token} {c : Char}

theorem isBlank_of_mem_literal (h : t ∈ tokenize text) (hc : c ∈ t.literal.toList) :
    isBlank c = false := by
  rw [tokenize_eq_scan] at h
  obtain ⟨start, d, rest, hblank, rfl⟩ := mem_scan h
  rw [Lexeme.token, String.toList_ofList] at hc
  exact (Munched.of_cut hblank rest).isBlank_of_mem hc

theorem valueText_cases (t : Token) :
    (∃ x, t.kind.IsNumber ∧ Number.read? t.literal = some x ∧ t.valueText = Number.text x) ∨
      t.valueText = "null" := by
  unfold valueText
  split
  case h_1 hkind | h_2 hkind =>
    cases hread : Number.read? t.literal with
    | none => exact .inr rfl
    | some x => exact .inl ⟨x, by rw [hkind]; simp [TokenKind.IsNumber], rfl, rfl⟩
  case h_3 => exact .inr rfl

theorem isBlank_of_mem_valueText (h : c ∈ t.valueText.toList) : isBlank c = false := by
  rcases t.valueText_cases with ⟨x, -, -, hvalue⟩ | hvalue <;> rw [hvalue] at h
  · exact Number.isBlank_of_mem_text h
  · have hnull : ∀ c ∈ "null".toList, isBlank c = false := by simp [isBlank]
    exact hnull c h

theorem toList_listing (t : Token) :
    t.listing.toList =
      [' '].intercalate [t.kind.name.toList, t.literal.toList, t.valueText.toList] := by
  simp [listing, List.intercalate]

theorem splitOn_listing (h : t ∈ tokenize text) :
    t.listing.toList.splitOn ' ' =
      [t.kind.name.toList, t.literal.toList, t.valueText.toList] := by
  have hspace {cs : List Char} (hcs : ∀ c ∈ cs, isBlank c = false) : ' ' ∉ cs :=
    fun hmem => absurd (hcs ' ' hmem) (by decide)
  rw [toList_listing]
  refine List.splitOn_intercalate ' ' ?_ (List.cons_ne_nil _ _)
  simp only [List.forall_mem_cons]
  exact ⟨hspace fun _ => TokenKind.isBlank_of_mem_name, hspace fun _ => isBlank_of_mem_literal h,
    hspace fun _ => isBlank_of_mem_valueText, nofun⟩

theorem newline_notMem_listing (h : t ∈ tokenize text) : '\n' ∉ t.listing.toList := by
  have hcolumns {c : Char} (hc : c ∈ t.listing.toList) : c = ' ' ∨ isBlank c = false := by
    simp only [listing, String.toList_append, List.mem_append] at hc
    rcases hc with (((hc | hc) | hc) | hc) | hc
    · exact .inr (TokenKind.isBlank_of_mem_name hc)
    · exact .inl (by simpa using hc)
    · exact .inr (isBlank_of_mem_literal h hc)
    · exact .inl (by simpa using hc)
    · exact .inr (isBlank_of_mem_valueText hc)
  exact fun hmem => absurd (hcolumns hmem) (by decide)

theorem word_eq_of_listing_eq (ht : t ∈ tokenize text) {text' : String} (hu : u ∈ tokenize text')
    (h : t.listing = u.listing) : t.word = u.word := by
  have hcolumns := splitOn_listing ht
  rw [h, splitOn_listing hu] at hcolumns
  simp only [List.cons.injEq, String.toList_inj] at hcolumns
  rw [word, word, TokenKind.name_injective hcolumns.1, hcolumns.2.1]

theorem listing_eof (size : Nat) : (eof size).listing = "EOF EOF null" := rfl

theorem kind_of_mem_tokenize (h : t ∈ tokenize text) : t.kind ≠ .eof :=
  Lexer.kind_ne_eof_of_mem (l := .ofText text) h

/-- The end of the text is not mistaken for a token, not even for the word `EOF`. -/
theorem listing_ne_eof (h : t ∈ tokenize text) : t.listing ≠ "EOF EOF null" := by
  intro heof
  have hcolumns := splitOn_listing h
  rw [heof] at hcolumns
  have hname : "EOF".toList = t.kind.name.toList := (List.cons.inj hcolumns).1
  have hkind : TokenKind.eof = t.kind := TokenKind.name_injective (String.toList_inj.mp hname)
  exact kind_of_mem_tokenize h hkind.symm

/-- Every numeral of a known kind has a value, and that is never written like a missing one. -/
theorem exists_value (h : t ∈ tokenize text) (hkind : t.kind.IsNumber) :
    ∃ x, Number.read? t.literal = some x ∧ t.valueText = Number.text x ∧ t.valueText ≠ "null" := by
  obtain ⟨x, hread⟩ := exists_read_of_mem_tokenize h hkind
  have hvalue : t.valueText = Number.text x := by
    rcases hkind with hkind | hkind <;> simp only [valueText, hkind, hread] <;> rfl
  refine ⟨x, hread, hvalue, fun hnull => ?_⟩
  have hletter : 'u' ∈ (Number.text x).toList := by
    rw [← hvalue, hnull]
    decide
  exact absurd (Number.mem_text hletter) (by decide)

theorem map_word_scan_intercalate {ls : List String} (h : ∀ l ∈ ls, IsLiteral l) (offset : Nat) :
    (scan offset (" ".intercalate ls).toList).map word = ls.map wordOf := by
  induction ls with
  | nil => rw [String.intercalate_nil, String.toList_empty, scan_nil, List.map_nil, List.map_nil]
  | cons l ls ih =>
    obtain ⟨hl, hls⟩ := List.forall_mem_cons.mp h
    cases ls with
    | nil =>
      have hcut := Spelled.map_word_scan_literal hl (.inr .nil) offset
      rw [List.append_nil, scan_nil, List.map_nil] at hcut
      rw [String.intercalate_singleton, hcut, List.map_singleton]
    | cons m ls =>
      have hboundary {cs : List Char} : Boundary (' ' :: cs) := .cons rfl rfl
      have hjoin : (" ".intercalate (l :: m :: ls)).toList =
          l.toList ++ ' ' :: (" ".intercalate (m :: ls)).toList := by
        simp [String.intercalate_cons_cons]
      rw [hjoin, Spelled.map_word_scan_literal hl (.inr hboundary), scan_blank rfl,
        map_word_scan _ offset, ih hls]
      rfl

end Token

theorem map_word_eq_of_map_listing_eq {text text' : String} {ts us : List Token}
    (hts : ∀ t ∈ ts, t ∈ tokenize text) (hus : ∀ u ∈ us, u ∈ tokenize text')
    (h : ts.map Token.listing = us.map Token.listing) :
    ts.map Token.word = us.map Token.word := by
  induction ts generalizing us with
  | nil => rw [List.map_eq_nil_iff.mp h.symm]
  | cons t ts ih =>
    obtain ⟨u, us, rfl, hu, hrest⟩ := List.map_eq_cons_iff.mp h.symm
    obtain ⟨ht, hts⟩ := List.forall_mem_cons.mp hts
    obtain ⟨hmem, hus⟩ := List.forall_mem_cons.mp hus
    rw [List.map_cons, List.map_cons, Token.word_eq_of_listing_eq ht hmem hu.symm,
      ih hts hus hrest.symm]

namespace CommandLine

theorem flatMap_newline (lines : List (List Char)) :
    lines.flatMap (· ++ ['\n']) = ['\n'].intercalate (lines ++ [[]]) := by
  induction lines with
  | nil => rfl
  | cons line lines ih =>
    rw [List.flatMap_cons, ih, List.cons_append]
    cases lines <;> simp [List.intercalate_cons_cons]

theorem toList_listing (text : String) :
    (listing text).toList = ((tokenize text).map (·.listing.toList) ++
      ["EOF EOF null".toList]).flatMap (· ++ ['\n']) := by
  have htokens : (Lexer.ofText text).tokens = tokenize text := rfl
  simp only [listing, htokens, Lexer.eof, String.toList_join, List.map_append, List.map_singleton,
    Token.listing_eof, List.flatMap_append, List.flatMap_map, String.toList_append,
    List.flatMap_singleton]
  rfl

theorem splitOn_listing (text : String) :
    (listing text).toList.splitOn '\n' =
      (tokenize text).map (·.listing.toList) ++ ["EOF EOF null".toList, []] := by
  rw [toList_listing, flatMap_newline, List.append_assoc]
  refine List.splitOn_intercalate '\n' ?_ (by simp)
  simp only [List.forall_mem_append, List.forall_mem_map, List.forall_mem_singleton]
  exact ⟨fun t ht => Token.newline_notMem_listing ht, by decide, by simp⟩

theorem listing_eq_iff (text text' : String) :
    listing text = listing text' ↔ SameWords text text' := by
  constructor
  · intro h
    have hlines := splitOn_listing text
    rw [h, splitOn_listing text', List.append_cancel_right_eq] at hlines
    have htokens : (tokenize text).map Token.listing = (tokenize text').map Token.listing := by
      refine List.map_injective_iff.mpr (fun _ _ => String.toList_inj.mp) ?_
      rw [List.map_map, List.map_map]
      exact hlines.symm
    exact map_word_eq_of_map_listing_eq (fun _ => id) (fun _ => id) htokens
  · intro h
    have hlines := congrArg (List.map fun w => (Token.listing ⟨w.1, w.2, .empty 0⟩).toList) h
    rw [List.map_map, List.map_map] at hlines
    have htokens : (tokenize text).map (·.listing.toList) =
        (tokenize text').map (·.listing.toList) := hlines
    rw [← String.toList_inj, toList_listing, toList_listing, htokens]

/-- The listing of a text loses nothing but its layout. It has one line for every token and a last
one for the end of the text, which no token is listed as. Each line parts into the name of a kind, a
literal and a value, and these are known from the listing: texts with the same listing have the same
words. The literals alone, a space between each two of them, are the same words again. Every numeral
of a known kind is listed with the number that it stands for. -/
theorem listing_lossless (text : String) :
    (∀ args places input, invocation? args = some ⟨places, .tokenize text⟩ →
      run args input = .success (listing text)) ∧
    (∀ input, run ["tokenize", "--", text] input = .success (listing text)) ∧
    (listing text).toList.splitOn '\n' =
      (tokenize text).map (·.listing.toList) ++ ["EOF EOF null".toList, []] ∧
    (∀ t ∈ tokenize text, t.listing ≠ "EOF EOF null" ∧
      (∀ c ∈ t.literal.toList, c ∉ [' ', '\t', '\n', '\r']) ∧
      t.listing.toList.splitOn ' ' =
        [t.kind.name.toList, t.literal.toList, t.valueText.toList] ∧
      (t.kind.IsNumber → ∃ x, Number.read? t.literal = some x ∧ t.valueText = Number.text x ∧
        t.valueText ≠ "null")) ∧
    Function.Injective TokenKind.name ∧
    (∀ text', listing text = listing text' ↔ SameWords text text') ∧
    SameWords (" ".intercalate ((tokenize text).map Token.literal)) text := by
  refine ⟨fun args places input h => ?_, fun input => ?_, splitOn_listing text, fun t ht => ?_,
    TokenKind.name_injective, listing_eq_iff text, ?_⟩
  · rw [run, h]
    rfl
  · rfl
  · refine ⟨Token.listing_ne_eof ht, fun c hc hblank => ?_, Token.splitOn_listing ht,
      Token.exists_value ht⟩
    have hplain := Token.isBlank_of_mem_literal ht hc
    simp only [List.mem_cons, List.not_mem_nil, or_false] at hblank
    rcases hblank with rfl | rfl | rfl | rfl <;> exact absurd hplain (by decide)
  · have hliteral : ∀ l ∈ (tokenize text).map Token.literal, IsLiteral l :=
      List.forall_mem_map.mpr fun t ht => (Token.wordOf_literal ht).1
    rw [SameWords, tokenize_eq_scan, Token.map_word_scan_intercalate hliteral, List.map_map]
    exact List.map_congr_left fun t ht => (Token.wordOf_literal ht).2

example : listing "calc '1.50 EOF'" =
    "CALC calc null\nSINGLEQUOTE ' null\nFLOAT 1.50 1.5\nUNKNOWN EOF null\n" ++
      "SINGLEQUOTE ' null\nEOF EOF null\n" := by
  decide +kernel

end CommandLine

end PromptCalc
