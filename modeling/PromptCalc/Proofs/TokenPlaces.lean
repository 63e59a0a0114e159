import PromptCalc.Proofs.Lexing

/-!
# Places of tokens

Every token is cut out of the bytes of its text between two places where a character begins or the
text ends. A lexer that stands at such a place is taken by every token to the next one, so it never
comes to stand inside a character or beyond the text. Wherever else in its text it is set, it reads
the tokens that lie ahead of it one after the other, too.
-/
namespace PromptCalc

/-- A place in front of a character or at the end of the text. -/
def IsPlace (text : String) (offset : Nat) : Prop := String.Pos.Raw.IsValid text ⟨offset⟩

section Places

variable {text : String} {offset : Nat}

/-- A place is where the text is cut into the characters before it and those after it. -/
theorem isPlace_iff :
    IsPlace text offset ↔
      ∃ front back : List Char, text.toList = front ++ back ∧ byteSize front = offset := by
  rw [IsPlace, String.Pos.Raw.isValid_iff_exists_append]
  constructor
  · rintro ⟨a, b, rfl, hoffset⟩
    refine ⟨a.toList, b.toList, String.toList_append, ?_⟩
    rw [byteSize_toList]
    exact (congrArg String.Pos.Raw.byteIdx hoffset).symm
  · rintro ⟨front, back, htext, rfl⟩
    refine ⟨String.ofList front, String.ofList back, ?_, ?_⟩
    · rw [← String.ofList_append, ← htext, String.ofList_toList]
    · rw [← utf8ByteSize_ofList]
      rfl

theorem IsPlace.le (h : IsPlace text offset) : offset ≤ text.utf8ByteSize :=
  String.Pos.Raw.IsValid.le_rawEndPos h

theorem isPlace_zero (text : String) : IsPlace text 0 :=
  isPlace_iff.mpr ⟨[], text.toList, rfl, rfl⟩

theorem isPlace_size (text : String) : IsPlace text text.utf8ByteSize :=
  isPlace_iff.mpr ⟨text.toList, [], (List.append_nil _).symm, byteSize_toList text⟩

end Places

def Span.LiesIn (span : Span) (text : String) : Prop :=
  IsPlace text span.start ∧ IsPlace text span.stop

/-- The token is made of the bytes of the text at its place. -/
structure Token.IsCutFrom (t : Token) (text : String) : Prop where
  lies : t.span.LiesIn text
  bytes : text.toByteArray.extract t.span.start t.span.stop = t.literal.toByteArray

theorem Lexeme.isCutFrom {text : String} {front back : List Char} (lexeme : Lexeme)
    (htext : text.toList = front ++ (lexeme.chars ++ back)) :
    (lexeme.token (byteSize front)).IsCutFrom text := by
  have hstart : IsPlace text (byteSize front) :=
    isPlace_iff.mpr ⟨front, lexeme.chars ++ back, htext, rfl⟩
  have hstop : IsPlace text (byteSize front + byteSize lexeme.chars) :=
    isPlace_iff.mpr ⟨front ++ lexeme.chars, back, by rw [htext, List.append_assoc],
      byteSize_append _ _⟩
  refine ⟨⟨hstart, hstop⟩, ?_⟩
  have hsize (cs : List Char) : byteSize cs = (String.ofList cs).toByteArray.size := by
    rw [String.size_toByteArray, utf8ByteSize_ofList]
  have hbytes : text.toByteArray = (String.ofList front).toByteArray ++
      ((String.ofList lexeme.chars).toByteArray ++ (String.ofList back).toByteArray) := by
    rw [← String.toByteArray_append, ← String.toByteArray_append, ← String.ofList_append,
      ← String.ofList_append, ← htext, String.ofList_toList]
  change text.toByteArray.extract (byteSize front + 0) (byteSize front + byteSize lexeme.chars) =
    (String.ofList lexeme.chars).toByteArray
  rw [hbytes, hsize front, ByteArray.extract_append_size_add,
    ByteArray.extract_append_eq_left (hsize _)]

theorem Token.first?_isCutFrom {text : String} {front cs rest : List Char} {t : Token}
    (htext : text.toList = front ++ cs) (h : first? (byteSize front) cs = some (t, rest)) :
    t.IsCutFrom text ∧ ∃ front', text.toList = front' ++ rest ∧ byteSize front' = t.span.stop := by
  induction cs generalizing front with
  | nil => simp [first?] at h
  | cons c cs ih =>
    unfold first? at h
    split at h
    · next hblank =>
      have hfront : byteSize (front ++ [c]) = byteSize front + 1 := by
        simp [utf8Size_of_isBlank hblank]
      refine @ih (front ++ [c]) (by rw [htext, List.append_assoc]; rfl) ?_
      rw [hfront]
      exact h
    · simp only [Option.some.injEq, Prod.mk.injEq] at h
      obtain ⟨rfl, rfl⟩ := h
      have hcut : text.toList = front ++ ((Lexeme.cut c cs).chars ++ (Lexeme.cut c cs).rest) := by
        rw [Lexeme.cut_lossless, htext]
      exact ⟨Lexeme.isCutFrom _ hcut, front ++ (Lexeme.cut c cs).chars,
        by rw [hcut, List.append_assoc], byteSize_append _ _⟩

theorem Ahead.drop_inside (front back : List Char) {c : Char} {i : Nat} (hpos : 0 < i)
    (hle : i ≤ c.utf8Size) :
    drop (byteSize front + i) (front ++ c :: back) = ⟨c.utf8Size - i, back⟩ := by
  rw [drop_add, drop, if_neg (Nat.ne_of_gt hpos)]
  split
  · rfl
  · next hnot =>
    obtain rfl : i = c.utf8Size := Nat.le_antisymm hle (Nat.not_lt.mp hnot)
    rw [Nat.sub_self, drop_zero]

theorem place_or_inside {n : Nat} {cs : List Char} (h : n ≤ byteSize cs) :
    (∃ front back, cs = front ++ back ∧ byteSize front = n) ∨
    ∃ front c back i, cs = front ++ c :: back ∧ n = byteSize front + i ∧ 0 < i ∧
      i < c.utf8Size := by
  induction cs generalizing n with
  | nil => exact .inl ⟨[], [], rfl, (Nat.le_zero.mp h).symm⟩
  | cons c cs ih =>
    by_cases hzero : n = 0
    · exact .inl ⟨[], c :: cs, rfl, hzero.symm⟩
    · by_cases hinside : n < c.utf8Size
      · exact .inr ⟨[], c, cs, n, rfl, (Nat.zero_add n).symm, Nat.pos_of_ne_zero hzero, hinside⟩
      · obtain ⟨m, rfl⟩ := Nat.exists_eq_add_of_le (Nat.not_lt.mp hinside)
        rcases ih (Nat.le_of_add_le_add_left h) with ⟨front, back, rfl, rfl⟩ |
          ⟨front, d, back, i, rfl, rfl, hpos, hlt⟩
        · exact .inl ⟨c :: front, back, rfl, rfl⟩
        · exact .inr ⟨c :: front, d, back, i, rfl, (Nat.add_assoc ..).symm, hpos, hlt⟩

namespace Lexer

def IsPlaced (l : Lexer) : Prop := IsPlace l.text l.byte

/-- The lexer stands behind the given number of bytes of a character, its last one at most. -/
structure IsInside (l : Lexer) (front : List Char) (c : Char) (back : List Char) (i : Nat) :
    Prop where
  text : l.text.toList = front ++ c :: back
  byte : l.byte = byteSize front + i
  pos : 0 < i
  le : i ≤ c.utf8Size

variable {l : Lexer} {front back : List Char} {c : Char} {i : Nat}

theorem isPlaced_ofText (text : String) : (ofText text).IsPlaced := isPlace_zero text

theorem IsPlaced.isBeyond_eq_false (h : l.IsPlaced) : l.isBeyond = false :=
  decide_eq_false (Nat.not_lt.mpr h.le)

theorem ahead_eq (htext : l.text.toList = front ++ back)
    (hbyte : byteSize front = l.byte) : l.ahead = ⟨0, back⟩ := by
  rw [ahead, htext, ← hbyte]
  exact Ahead.drop_byteSize_append front back

/-- From a place on, there is no token left, or there is one, after which the lexer is at a place
again with the rest of the tokens. -/
theorem IsPlaced.next_cases (h : l.IsPlaced) :
    (l.next? = none ∧ l.tokens = []) ∨
      ∃ t, l.next? = some t ∧ t.IsCutFrom l.text ∧ (l.seek t.span.stop).IsPlaced ∧
        l.tokens = t :: (l.seek t.span.stop).tokens := by
  obtain ⟨front, cs, htext, hbyte⟩ := isPlace_iff.mp h
  have hahead := ahead_eq htext hbyte
  have htokens : l.tokens = Token.scan l.byte cs := by
    simp [tokens, hahead, Ahead.tokens]
  cases hfirst : Token.first? l.byte cs with
  | none =>
    refine .inl ⟨by simp [next?, hahead, Ahead.first?, hfirst], ?_⟩
    rw [htokens, Token.scan_of_first?_none hfirst]
  | some found =>
    obtain ⟨t, rest⟩ := found
    obtain ⟨hcut, front', htext', hstop⟩ := Token.first?_isCutFrom htext (hbyte ▸ hfirst)
    have hrest : (l.seek t.span.stop).ahead = ⟨0, rest⟩ := ahead_eq htext' hstop
    refine .inr ⟨t, by simp [next?, hahead, Ahead.first?, hfirst], hcut,
      isPlace_iff.mpr ⟨front', rest, htext', hstop⟩, ?_⟩
    rw [htokens, Token.scan_of_first?_some hfirst, tokens, hrest]
    simp [Ahead.tokens, seek]

theorem tokens_after_none (l : Lexer) : (l.after none).tokens = [] := by
  have hend : (l.after none).ahead = ⟨0, []⟩ :=
    ahead_eq (List.append_nil _).symm (byteSize_toList l.text)
  simp [tokens, hend, Ahead.tokens, Token.scan_nil]

theorem IsPlaced.next (h : l.IsPlaced) :
    l.next.2.IsPlaced ∧ l.next.2.tokens = l.tokens.tail := by
  rcases h.next_cases with ⟨hnone, hempty⟩ | ⟨t, hsome, -, hplaced, htokens⟩
  · have hnext : l.next.2 = l.after none := by rw [Lexer.next, hnone]
    rw [hnext, tokens_after_none, hempty]
    exact ⟨isPlace_size l.text, rfl⟩
  · have hnext : l.next.2 = l.seek t.span.stop := by rw [Lexer.next, hsome]; rfl
    rw [hnext, htokens]
    exact ⟨hplaced, rfl⟩

theorem text_after (l : Lexer) (found : Option Token) : (l.after found).text = l.text := by
  cases found <;> rfl

theorem text_skip (l : Lexer) (n : Nat) : (l.skip n).text = l.text := by
  induction n with
  | zero => rfl
  | succ n ih => exact (text_after _ _).trans ih

theorem byte_le (h : l.isBeyond = false) : l.byte ≤ l.text.utf8ByteSize :=
  Nat.not_lt.mp (of_decide_eq_false h)

theorem placed_or_inside (h : l.isBeyond = false) :
    l.IsPlaced ∨ ∃ front c back i, l.IsInside front c back i ∧ i < c.utf8Size := by
  rcases place_or_inside (byteSize_toList l.text ▸ byte_le h) with ⟨front, back, htext, hbyte⟩ |
    ⟨front, c, back, i, htext, hbyte, hpos, hlt⟩
  · exact .inl (isPlace_iff.mpr ⟨front, back, htext, hbyte⟩)
  · exact .inr ⟨front, c, back, i, ⟨htext, hbyte, hpos, Nat.le_of_lt hlt⟩, hlt⟩

namespace IsInside

theorem ahead_eq (h : l.IsInside front c back i) : l.ahead = ⟨c.utf8Size - i, back⟩ := by
  rw [ahead, h.text, h.byte, Ahead.drop_inside front back h.pos h.le]

theorem isBeyond_eq_false (h : l.IsInside front c back i) : l.isBeyond = false := by
  have hsize : l.size = byteSize front + (c.utf8Size + byteSize back) := by
    rw [size, ← byteSize_toList, h.text, byteSize_append, byteSize_cons]
  have hle := h.le
  refine decide_eq_false (Nat.not_lt.mpr ?_)
  rw [hsize, h.byte]
  omega

theorem next (h : l.IsInside front c back i) (hlt : i < c.utf8Size) :
    l.next? = some (.strayByte l.byte) ∧ l.next.2.IsInside front c back (i + 1) ∧
      l.tokens = .strayByte l.byte :: l.next.2.tokens := by
  obtain ⟨k, hk⟩ := Nat.exists_eq_add_of_lt hlt
  have hahead : l.ahead = ⟨k + 1, back⟩ := by
    rw [h.ahead_eq, hk, Nat.add_assoc, Nat.add_sub_cancel_left]
  have hnext : l.next? = some (.strayByte l.byte) := by
    rw [next?, hahead]
    rfl
  have hstep : l.next.2 = l.seek (l.byte + 1) := by
    rw [Lexer.next, hnext]
    rfl
  have hinside : l.next.2.IsInside front c back (i + 1) := by
    rw [hstep]
    exact ⟨h.text, by rw [seek, h.byte, Nat.add_assoc], Nat.succ_pos i, hlt⟩
  have hrest : l.next.2.ahead = ⟨k, back⟩ := by
    rw [hinside.ahead_eq, hk, Nat.add_right_comm, Nat.add_sub_cancel_left]
  refine ⟨hnext, hinside, ?_⟩
  rw [tokens, hahead, tokens, hrest, hstep]
  simp only [Ahead.tokens, seek, List.range'_succ, List.map_cons, List.cons_append, Nat.add_assoc,
    Nat.add_comm 1]

end IsInside

/-- Wherever in its text it stands, a lexer is in the text again after a token, with the rest of
the tokens. -/
theorem tokens_next (h : l.isBeyond = false) :
    l.next.2.isBeyond = false ∧ l.next.2.tokens = l.tokens.tail := by
  rcases placed_or_inside h with hplaced | ⟨front, c, back, i, hinside, hlt⟩
  · exact ⟨hplaced.next.1.isBeyond_eq_false, hplaced.next.2⟩
  · obtain ⟨-, hnext, htokens⟩ := hinside.next hlt
    exact ⟨hnext.isBeyond_eq_false, by rw [htokens, List.tail_cons]⟩

theorem tokens_skip (h : l.isBeyond = false) (n : Nat) :
    (l.skip n).isBeyond = false ∧ (l.skip n).tokens = l.tokens.drop n := by
  induction n with
  | zero => exact ⟨h, rfl⟩
  | succ n ih =>
    obtain ⟨hbeyond, htokens⟩ := tokens_next ih.1
    refine ⟨hbeyond, ?_⟩
    change (l.skip n).next.2.tokens = _
    rw [htokens, ih.2, List.tail_drop]

theorem next?_skip (h : l.isBeyond = false) (n : Nat) : (l.skip n).next? = l.tokens[n]? := by
  rw [next?_eq_head?_tokens, (tokens_skip h n).2, List.head?_drop]

/-- After any number of tokens from anywhere in the text, the next one is read, or the end of the
text if there are no more. -/
theorem next_skip (h : l.isBeyond = false) (n : Nat) :
    (l.skip n).next.1 = l.tokens[n]?.getD l.eof := by
  rw [Lexer.next, next?_skip h]
  simp only [eof, size, text_skip]

theorem skip_succ (h : l.isBeyond = false) (n : Nat) : l.skip (n + 1) = l.after l.tokens[n]? := by
  have hstep : l.skip (n + 1) = (l.skip n).after (l.skip n).next? := rfl
  rw [hstep, next?_skip h]
  cases l.tokens[n]? <;> simp [after, seek, size, text_skip]

theorem IsPlaced.skip (h : l.IsPlaced) (n : Nat) : (l.skip n).IsPlaced := by
  induction n with
  | zero => exact h
  | succ n ih => exact ih.next.1

theorem IsPlaced.isCutFrom_of_next? (h : l.IsPlaced) {n : Nat} {t : Token}
    (ht : (l.skip n).next? = some t) : t.IsCutFrom l.text := by
  rcases (h.skip n).next_cases with ⟨hnone, -⟩ | ⟨t', hsome, hcut, -⟩
  · cases hnone.symm.trans ht
  · obtain rfl := Option.some.inj (hsome.symm.trans ht)
    rwa [text_skip] at hcut

theorem IsPlaced.isCutFrom_of_mem (h : l.IsPlaced) {t : Token} (ht : t ∈ l.tokens) :
    t.IsCutFrom l.text := by
  obtain ⟨n, hn⟩ := List.mem_iff_getElem?.mp ht
  exact h.isCutFrom_of_next? ((next?_skip h.isBeyond_eq_false n).trans hn)

end Lexer

end PromptCalc
