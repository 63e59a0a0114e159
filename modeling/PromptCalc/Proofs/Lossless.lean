import PromptCalc.Proofs.TokenPlaces

/-!
# Lossless lexing

The tokens of a text and the blanks around them are the whole text, in order and each part once. So
a lexer that starts on a text comes to its end after at most one token for every byte, and stays
there.
-/
namespace PromptCalc

/-- From the offset on, the characters are those of the tokens, one token after the other, with
nothing but blanks before, between and behind them. -/
inductive Interleaved : Nat → List Char → List Token → Prop where
  | blanks {offset : Nat} {cs : List Char} : (∀ c ∈ cs, isBlank c = true) →
      Interleaved offset cs []
  | token {offset : Nat} {gap cs : List Char} {t : Token} {ts : List Token} :
      (∀ c ∈ gap, isBlank c = true) → t.literal ≠ "" →
      t.span = ⟨offset + byteSize gap, byteSize t.literal.toList⟩ →
      Interleaved t.span.stop cs ts →
      Interleaved offset (gap ++ (t.literal.toList ++ cs)) (t :: ts)

theorem byteSize_pos {cs : List Char} (h : cs ≠ []) : 0 < byteSize cs := by
  cases cs with
  | nil => exact absurd rfl h
  | cons c cs => exact Nat.add_pos_left (Char.utf8Size_pos c) _

theorem exists_blank_at {cs : List Char} (hcs : ∀ c ∈ cs, isBlank c = true) {p : Nat}
    (hp : p < byteSize cs) :
    ∃ front c back, cs = front ++ c :: back ∧ byteSize front = p ∧ isBlank c = true := by
  induction cs generalizing p with
  | nil => exact absurd hp (Nat.not_lt_zero p)
  | cons c cs ih =>
    obtain ⟨hc, hcs⟩ := List.forall_mem_cons.mp hcs
    cases p with
    | zero => exact ⟨[], c, cs, rfl, rfl, hc⟩
    | succ p =>
      have hlt : p < byteSize cs := by
        rw [byteSize_cons, utf8Size_of_isBlank hc] at hp
        omega
      obtain ⟨front, d, back, rfl, rfl, hd⟩ := ih hcs hlt
      refine ⟨c :: front, d, back, rfl, ?_, hd⟩
      rw [byteSize_cons, utf8Size_of_isBlank hc, Nat.add_comm]

namespace Interleaved

variable {offset : Nat} {cs : List Char} {ts : List Token}

theorem blank_cons {c : Char} (hc : isBlank c = true) (h : Interleaved (offset + 1) cs ts) :
    Interleaved offset (c :: cs) ts := by
  cases h with
  | blanks hcs => exact .blanks (List.forall_mem_cons.mpr ⟨hc, hcs⟩)
  | @token _ gap cs t ts hgap hliteral hspan hrest =>
    have hsize : offset + byteSize (c :: gap) = offset + 1 + byteSize gap := by
      rw [byteSize_cons, utf8Size_of_isBlank hc, Nat.add_assoc]
    rw [← List.cons_append]
    exact .token (List.forall_mem_cons.mpr ⟨hc, hgap⟩) hliteral (hsize ▸ hspan) hrest

theorem length_le (h : Interleaved offset cs ts) : ts.length ≤ byteSize cs := by
  induction h with
  | blanks => exact Nat.zero_le _
  | @token offset gap cs t ts _ hliteral _ _ ih =>
    have hpos : 0 < byteSize t.literal.toList := byteSize_pos (by simpa using hliteral)
    rw [List.length_cons, byteSize_append, byteSize_append]
    omega

theorem le_start (h : Interleaved offset cs ts) {t : Token} (ht : t ∈ ts) :
    offset ≤ t.span.start ∧ t.span.start < t.span.stop := by
  induction h with
  | blanks => cases ht
  | @token offset gap cs u ts _ hliteral hspan _ ih =>
    have hpos : 0 < byteSize u.literal.toList := byteSize_pos (by simpa using hliteral)
    have hfirst : offset ≤ u.span.start ∧ u.span.start < u.span.stop := by
      rw [hspan]
      exact ⟨Nat.le_add_right .., Nat.lt_add_of_pos_right hpos⟩
    rcases List.mem_cons.mp ht with rfl | ht
    · exact hfirst
    · obtain ⟨hstart, hstop⟩ := ih ht
      exact ⟨by omega, hstop⟩

theorem literal_ne (h : Interleaved offset cs ts) {t : Token} (ht : t ∈ ts) : t.literal ≠ "" := by
  induction h with
  | blanks => cases ht
  | token _ hliteral _ _ ih =>
    rcases List.mem_cons.mp ht with rfl | ht
    · exact hliteral
    · exact ih ht

theorem pairwise (h : Interleaved offset cs ts) :
    ts.Pairwise fun t u => t.span.stop ≤ u.span.start := by
  induction h with
  | blanks => exact .nil
  | token _ _ _ hrest ih => exact .cons (fun u hu => (hrest.le_start hu).1) ih

theorem exists_blank_outside (h : Interleaved offset cs ts) {p : Nat} (hp : p < byteSize cs)
    (houtside : ∀ t ∈ ts, offset + p < t.span.start ∨ t.span.stop ≤ offset + p) :
    ∃ front c back, cs = front ++ c :: back ∧ byteSize front = p ∧ isBlank c = true := by
  induction h generalizing p with
  | blanks hcs => exact exists_blank_at hcs hp
  | @token offset gap cs t ts hgap _ hspan _ ih =>
    by_cases hbefore : p < byteSize gap
    · obtain ⟨front, c, back, rfl, hfront, hc⟩ := exists_blank_at hgap hbefore
      exact ⟨front, c, back ++ (t.literal.toList ++ cs), by simp, hfront, hc⟩
    · -- The byte is not before the token and not in it, so it is behind it.
      obtain ⟨hfirst, houtside⟩ := List.forall_mem_cons.mp houtside
      have hstop : t.span.stop = offset + (byteSize gap + byteSize t.literal.toList) := by
        rw [hspan]
        exact Nat.add_assoc ..
      have hbehind : byteSize gap + byteSize t.literal.toList ≤ p := by
        rcases hfirst with hfirst | hfirst
        · rw [hspan] at hfirst
          dsimp only at hfirst
          omega
        · omega
      obtain ⟨q, rfl⟩ := Nat.exists_eq_add_of_le hbehind
      rw [← Nat.add_assoc offset, ← hstop] at houtside
      have hq : q < byteSize cs := by
        rw [byteSize_append, byteSize_append] at hp
        omega
      obtain ⟨front, c, back, rfl, rfl, hc⟩ := ih hq houtside
      exact ⟨gap ++ (t.literal.toList ++ front), c, back, by simp, by simp [Nat.add_assoc], hc⟩

end Interleaved

theorem interleaved_scan (offset : Nat) (cs : List Char) :
    Interleaved offset cs (Token.scan offset cs) := by
  induction cs using Token.scan_induction generalizing offset with
  | nil => exact Token.scan_nil offset ▸ .blanks (by simp)
  | blank c cs hc ih => exact Token.scan_blank hc ▸ (ih (offset + 1)).blank_cons hc
  | token c cs hc ih =>
    have hliteral : (Lexeme.cut c cs).chars ≠ [] := Lexeme.cut_chars_ne_nil c cs
    have hcut := @Interleaved.token offset [] (Lexeme.cut c cs).rest
      ((Lexeme.cut c cs).token offset) _ (by simp) (by simpa [Lexeme.token] using hliteral)
      (by simp [Lexeme.token]) (ih _)
    rw [Token.scan_cons hc]
    simpa [Lexeme.token, Span.stop, Lexeme.cut_lossless] using hcut

theorem byte_of_blank {text : String} {front back : List Char} {c : Char}
    (htext : text.toList = front ++ c :: back) (hc : isBlank c = true)
    (hp : byteSize front < text.toByteArray.size) :
    text.toByteArray[byteSize front] ∈ [32, 9, 10, 13] := by
  have hcut : (Lexeme.token ⟨.unknown, [c], back⟩ (byteSize front)).IsCutFrom text :=
    Lexeme.isCutFrom _ htext
  have hsize : byteSize [c] = 1 := utf8Size_of_isBlank hc
  have hbytes : text.toByteArray.extract (byteSize front) (byteSize front + 1) =
      (String.ofList [c]).toByteArray := hsize ▸ hcut.bytes
  have hbyte : text.toByteArray[byteSize front] = (String.ofList [c]).toByteArray[0]! := by
    have hinside : 0 < (text.toByteArray.extract (byteSize front) (byteSize front + 1)).size := by
      rw [ByteArray.size_extract]
      omega
    rw [← hbytes, getElem!_pos _ 0 hinside]
    exact (ByteArray.getElem_extract hinside).symm
  rw [hbyte]
  simp only [isBlank, Bool.or_eq_true, beq_iff_eq] at hc
  rcases hc with ((rfl | rfl) | rfl) | rfl <;> decide

theorem Lexeme.cut_kind_ne_eof (c : Char) (cs : List Char) : (cut c cs).kind ≠ .eof := by
  rcases cut_cases c with ⟨kind, hsymbol, hcut⟩ | ⟨_, hcut⟩ | ⟨_, hcut⟩ | hcut <;> rw [hcut]
  · rintro rfl
    cases TokenKind.ofSymbol?_eq_some_iff.mp hsymbol
  · simp only [run, TokenKind.ofNumeral]
    split
    · simp
    · split <;> simp
    · simp
  · simp only [run, TokenKind.ofWord]
    split
    · simp
    · split <;> simp
  · simp

namespace Lexer

variable {l : Lexer}

theorem kind_ne_eof_of_mem {t : Token} (h : t ∈ l.tokens) : t.kind ≠ .eof := by
  rw [tokens, Ahead.tokens, List.mem_append] at h
  rcases h with h | h
  · obtain ⟨offset, -, rfl⟩ := List.mem_map.mp h
    simp [Token.strayByte]
  · obtain ⟨start, c, rest, -, rfl⟩ := Token.mem_scan h
    exact Lexeme.cut_kind_ne_eof c rest

end Lexer

/-- A lexer that starts on a text reads its tokens one after the other, no more of them than the
text has bytes, and then the end of the text again and again. Every token is cut out of the text
between two characters and behind the token before it. What lies outside of them all is blank, so
that tokens and blanks are the whole text. -/
theorem tokenize_lossless (text : String) :
    (tokenize text).length ≤ text.utf8ByteSize ∧
    (∀ n t, (tokenize text)[n]? = some t → ((Lexer.ofText text).skip n).next.1 = t) ∧
    (∀ n, (tokenize text).length ≤ n →
      ((Lexer.ofText text).skip n).next.1 = ⟨.eof, "EOF", ⟨text.utf8ByteSize, 0⟩⟩) ∧
    (∀ t ∈ tokenize text, t.kind ≠ .eof ∧ t.literal ≠ "" ∧ t.span.start < t.span.stop ∧
      t.IsCutFrom text) ∧
    (tokenize text).Pairwise (fun t u => t.span.stop ≤ u.span.start) ∧
    (∀ (p : Nat) (h : p < text.toByteArray.size),
      (∀ t ∈ tokenize text, p < t.span.start ∨ t.span.stop ≤ p) →
        text.toByteArray[p] ∈ [32, 9, 10, 13]) ∧
    Interleaved 0 text.toList (tokenize text) := by
  have hplaced := Lexer.isPlaced_ofText text
  have hnext := Lexer.next_skip hplaced.isBeyond_eq_false
  have hlaid : Interleaved 0 text.toList (tokenize text) :=
    tokenize_eq_scan text ▸ interleaved_scan 0 text.toList
  refine ⟨byteSize_toList text ▸ hlaid.length_le, fun n t ht => ?_, fun n hn => ?_, fun t ht => ?_,
    hlaid.pairwise, fun p hp houtside => ?_, hlaid⟩
  · have hthere : (Lexer.ofText text).tokens[n]? = some t := ht
    rw [hnext, hthere]
    rfl
  · have hthere : (Lexer.ofText text).tokens[n]? = none := List.getElem?_eq_none hn
    rw [hnext, hthere]
    rfl
  · exact ⟨Lexer.kind_ne_eof_of_mem ht, hlaid.literal_ne ht, (hlaid.le_start ht).2,
      hplaced.isCutFrom_of_mem ht⟩
  · have hsize : p < byteSize text.toList := by
      rwa [byteSize_toList, ← String.size_toByteArray]
    obtain ⟨front, c, back, htext, rfl, hc⟩ :=
      hlaid.exists_blank_outside hsize (by simpa using houtside)
    exact byte_of_blank htext hc hp

end PromptCalc
