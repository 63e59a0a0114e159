import PromptCalc.Proofs.Segmentation

/-!
# Concatenation

The tokens of two texts, one written behind the other, are those of the first and then those of the
second, if no numeral and no word at the very end of the first goes on into the second. Even then
only the last token of the first text is another one.
-/
namespace PromptCalc

def Token.shifted (n : Nat) (t : Token) : Token :=
  { t with span := ⟨n + t.span.start, t.span.size⟩ }

/-- The token ends at the given byte, and it goes on into the characters. -/
def Token.GoesOn (t : Token) (stop : Nat) (cs : List Char) : Prop :=
  t.span.stop = stop ∧ ∃ c ∈ t.literal.toList.head?, ∃ d ∈ cs.head?, Continues c d

/-- The last token of the one text goes on into the other text. -/
def Fuses (a b : String) : Prop :=
  ∃ t ∈ (tokenize a).getLast?, t.GoesOn a.utf8ByteSize b.toList

/-- How far on the characters start makes no difference but to the places of the tokens. -/
theorem Token.scan_add (n offset : Nat) (cs : List Char) :
    scan (n + offset) cs = (scan offset cs).map (shifted n) := by
  induction cs using scan_induction generalizing offset with
  | nil => rw [scan_nil, scan_nil, List.map_nil]
  | blank c cs hc ih => rw [scan_blank hc, scan_blank hc, Nat.add_assoc, ih]
  | token c cs hc ih =>
    rw [scan_cons hc, scan_cons hc, Nat.add_assoc, ih, List.map_cons]
    rfl

/-- What is one token before some rest is one before any rest that it does not go on into. -/
theorem Munched.with_rest {kind : TokenKind} {chars rest rest' : List Char}
    (h : Munched kind chars rest)
    (hrest : ∀ c ∈ chars.head?, ∀ d ∈ rest'.head?, ¬ Continues c d) : Munched kind chars rest' := by
  cases h with
  | symbol hsymbol => exact .symbol hsymbol
  | numeral hc hcs _ hkind =>
    refine .numeral hc hcs (fun d hd => ?_) hkind
    rw [← Bool.not_eq_true]
    exact fun hnumeric => hrest _ rfl d hd (.inr ⟨hc, hnumeric⟩)
  | word hc hcs _ hkind =>
    refine .word hc hcs (fun d hd => ?_) hkind
    rw [← Bool.not_eq_true]
    exact fun hletter => hrest _ rfl d hd (.inl ⟨hc, hletter⟩)
  | other hblank hsymbol hdigit hletter => exact .other hblank hsymbol hdigit hletter

/-- What stands before some characters is one token before whatever follows them. -/
theorem Munched.append {kind : TokenKind} {chars rest : List Char} (h : Munched kind chars rest)
    (hrest : rest ≠ []) (bs : List Char) : Munched kind chars (rest ++ bs) := by
  refine h.with_rest fun c hc d hd => h.not_continues c (List.mem_of_head? hc) d ?_
  exact List.head?_append_of_ne_nil _ hrest ▸ hd

namespace Segmented

variable {offset : Nat} {as bs : List Char} {ts us : List Token}

theorem eq_nil (h : Segmented offset [] ts) : ts = [] := by
  rw [h.eq_scan, Token.scan_nil]

theorem append (h : Segmented offset as ts) (hbs : Segmented (offset + byteSize as) bs us)
    (hlast : ∀ t ∈ ts.getLast?, ¬ t.GoesOn (offset + byteSize as) bs) :
    Segmented offset (as ++ bs) (ts ++ us) := by
  induction h with
  | nil => exact hbs
  | @blank offset c cs ts hc _ ih =>
    have hsize : offset + byteSize (c :: cs) = offset + 1 + byteSize cs := by
      rw [byteSize_cons, utf8Size_of_isBlank hc, Nat.add_assoc]
    rw [hsize] at hbs hlast
    exact .blank hc (ih hbs hlast)
  | @token offset t rest ts hmunched hspan hrest ih =>
    have hsize : offset + byteSize (t.literal.toList ++ rest) = t.span.stop + byteSize rest := by
      rw [byteSize_append, hspan, Span.stop, Nat.add_assoc]
    rw [hsize] at hbs hlast
    have hmunched' : Munched t.kind t.literal.toList (rest ++ bs) := by
      by_cases hempty : rest = []
      · -- Nothing is left of the first stretch, so this is its last token.
        subst hempty
        obtain rfl := hrest.eq_nil
        exact hmunched.with_rest fun c hc d hd hgoes => hlast t rfl ⟨rfl, c, hc, d, hd, hgoes⟩
      · exact hmunched.append hempty bs
    rw [List.append_assoc]
    exact .token hmunched' hspan (ih hbs fun u hu => hlast u (List.mem_getLast?_cons hu))

/-- All tokens but the last stay what they are, whatever follows. -/
theorem dropLast_isPrefix_scan (h : Segmented offset as ts) (bs : List Char) :
    ts.dropLast <+: Token.scan offset (as ++ bs) := by
  induction h with
  | nil => exact List.nil_prefix
  | blank hc _ ih =>
    rw [List.cons_append, Token.scan_blank hc]
    exact ih
  | @token offset t rest ts hmunched hspan hrest ih =>
    cases ts with
    | nil => exact List.nil_prefix
    | cons u us =>
      have hne : rest ≠ [] := by
        rintro rfl
        cases hrest.eq_nil
      have hscan := (Segmented.token (hmunched.append hne bs) hspan (segmented_scan _ _)).eq_scan
      rw [List.append_assoc, ← hscan, List.dropLast_cons_cons]
      exact (List.prefix_cons_inj t).mpr ih

end Segmented

theorem eq_of_append_eq {as as' bs bs' : List Char} (h : as ++ bs = as' ++ bs')
    (hsize : byteSize as = byteSize as') : bs = bs' := by
  have hdrop := Ahead.drop_byteSize_append as bs
  rw [h, hsize, Ahead.drop_byteSize_append] at hdrop
  exact (Ahead.mk.inj hdrop).2.symm

theorem Token.not_goesOn_of_mem {a b : String} {t : Token} (h : t ∈ tokenize (a ++ b)) :
    ¬ t.GoesOn a.utf8ByteSize b.toList := by
  rintro ⟨hstop, c, hc, d, hd, hgoes⟩
  obtain ⟨front, rest, htext, hspan, hmunched, -⟩ := isMaximalIn_of_mem h
  rw [String.toList_append, ← List.append_assoc] at htext
  have hsize : byteSize a.toList = byteSize (front ++ t.literal.toList) := by
    rw [byteSize_toList, ← hstop, hspan, byteSize_append]
    rfl
  obtain rfl := eq_of_append_eq htext hsize
  exact hmunched.not_continues c (List.mem_of_head? hc) d hd hgoes

/-- The tokens of a text that another one follows are its own and then those of the other, moved on
by its bytes. It is otherwise exactly if its last token ends where it ends and goes on into the
other text: a word into a letter, or a numeral into a digit or a dot. The tokens before the last
stay in any case. -/
theorem tokenize_append (a b : String) :
    (tokenize (a ++ b) = tokenize a ++ (tokenize b).map (Token.shifted a.utf8ByteSize) ↔
      ¬ Fuses a b) ∧
    (tokenize a).dropLast <+: tokenize (a ++ b) := by
  have hsegmented := segmented_tokenize a
  have hscan : tokenize (a ++ b) = Token.scan 0 (a.toList ++ b.toList) := by
    rw [tokenize_eq_scan, String.toList_append]
  refine ⟨⟨fun h => ?_, fun h => ?_⟩, hscan ▸ hsegmented.dropLast_isPrefix_scan b.toList⟩
  · rintro ⟨t, ht, hgoes⟩
    have hmem : t ∈ tokenize (a ++ b) := h ▸ List.mem_append_left _ (List.mem_of_getLast? ht)
    exact Token.not_goesOn_of_mem hmem hgoes
  · have hshifted : (tokenize b).map (Token.shifted a.utf8ByteSize) =
        Token.scan (0 + byteSize a.toList) b.toList := by
      rw [tokenize_eq_scan, ← Token.scan_add, byteSize_toList, Nat.add_comm]
    rw [hscan, hshifted]
    refine (hsegmented.append (segmented_scan _ _) fun t ht hgoes => h ⟨t, ht, ?_⟩).eq_scan.symm
    rwa [Nat.zero_add, byteSize_toList] at hgoes

example : tokenize "2*1" = [⟨.int, "2", ⟨0, 1⟩⟩, ⟨.operator .times, "*", ⟨1, 1⟩⟩,
      ⟨.int, "1", ⟨2, 1⟩⟩] ∧
    tokenize ("2*1" ++ ".5") = [⟨.int, "2", ⟨0, 1⟩⟩, ⟨.operator .times, "*", ⟨1, 1⟩⟩,
      ⟨.float, "1.5", ⟨2, 3⟩⟩] := by
  decide +kernel

end PromptCalc
