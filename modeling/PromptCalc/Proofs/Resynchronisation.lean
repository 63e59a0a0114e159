import PromptCalc.Proofs.ByteReading
import PromptCalc.Proofs.Concatenation

/-!
# Resynchronisation

A lexer that is set on any byte of its text reads, one by one, the bytes that are left of the
character it stands in, and then the tokens of the text behind that character, as if that text stood
alone.
-/
namespace PromptCalc

theorem not_isPlace_inside {text : String} {front back : List Char} {c : Char} {i : Nat}
    (htext : text.toList = front ++ c :: back) (hpos : 0 < i) (hlt : i < c.utf8Size) :
    ¬ IsPlace text (byteSize front + i) := by
  intro hplace
  obtain ⟨front', back', htext', hsize⟩ := isPlace_iff.mp hplace
  rcases List.append_eq_append_iff.mp (htext'.symm.trans htext) with
    ⟨gap, rfl, -⟩ | ⟨gap, rfl, hgap⟩
  · rw [byteSize_append] at hsize
    omega
  · rw [byteSize_append] at hsize
    cases gap with
    | nil =>
      rw [byteSize_nil] at hsize
      omega
    | cons d gap =>
      obtain ⟨rfl, -⟩ := List.cons.inj hgap
      rw [byteSize_cons] at hsize
      omega

theorem textOfBytes_of_not_isPlace {text : String} {offset : Nat} (h : ¬ IsPlace text offset)
    (hsize : offset < text.utf8ByteSize) :
    textOfBytes (text.toByteArray.extract offset (offset + 1)) = "" := by
  have hinvalid : ¬ (text.toByteArray.extract offset (offset + 1)).IsValidUTF8 := by
    intro hvalid
    rcases (String.Pos.Raw.isValidUTF8_extract_iff ⟨offset⟩ ⟨offset + 1⟩ (Nat.le_succ offset)
      hsize).mp hvalid with heq | ⟨hplace, -⟩
    · exact Nat.ne_of_lt (Nat.lt_succ_self offset) (congrArg String.Pos.Raw.byteIdx heq)
    · exact h hplace
  rw [textOfBytes, String.fromUTF8?, dif_neg hinvalid]
  rfl

theorem utf8DecodeChar?_eq_none {b : UInt8} {bytes : List UInt8} (h : ¬ b.IsUTF8FirstByte) :
    (b :: bytes).toByteArray.utf8DecodeChar? 0 = none := by
  cases hfound : (b :: bytes).toByteArray.utf8DecodeChar? 0 with
  | none => rfl
  | some c =>
    have hfirst := ByteArray.isUTF8FirstByte_of_isSome_utf8DecodeChar? (Option.isSome_of_mem hfound)
    exact absurd hfirst (by simpa [ByteArray.getElem_eq_getElem_data] using h)

namespace Lexer

variable {l : Lexer} {front back : List Char} {c : Char} {i : Nat}

namespace IsInside

theorem next?_eq_readBytes? (h : l.IsInside front c back i) (hlt : i < c.utf8Size) :
    l.next? = readBytes? l.text.toByteArray l.byte := by
  have hi : i < (String.utf8EncodeChar c).length := by rwa [String.length_utf8EncodeChar]
  obtain ⟨b, bytes, hbytes, hfirst, hhigh⟩ : ∃ b bytes,
      l.text.toByteArray.data.toList.drop l.byte = b :: bytes ∧ ¬ b.IsUTF8FirstByte ∧
        128 ≤ (Char.ofUInt8 b).toNat := by
    have hc : 128 ≤ c.toNat := by
      refine Nat.not_lt.mp fun hc => ?_
      have hpos := h.pos
      rw [utf8Size_of_lt hc] at hlt
      omega
    refine ⟨(String.utf8EncodeChar c)[i], (String.utf8EncodeChar c).drop (i + 1) ++ bytesOf back,
      ?_, ?_, le_of_mem_utf8EncodeChar hc (List.getElem_mem hi)⟩
    · rw [← bytesOf_toList, h.text, h.byte, ← List.drop_drop, drop_bytesOf, bytesOf,
        List.flatMap_cons, List.drop_append_of_le_length (Nat.le_of_lt hi),
        List.drop_eq_getElem_cons hi]
      rfl
    · rw [UInt8.isUTF8FirstByte_getElem_utf8EncodeChar]
      exact Nat.ne_of_gt h.pos
  have hblank : isBlank (Char.ofUInt8 b) = false := IsAsciiTest.isBlank.eq_false hhigh
  have hmeasure : measureBytes b bytes = (.unknown, 1) := by
    rw [measureBytes_of_le hhigh, List.take_succ_cons, utf8DecodeChar?_eq_none hfirst]
    rfl
  have hsize : l.byte < l.text.utf8ByteSize := by
    rw [← byteSize_toList, h.text, h.byte, byteSize_append, byteSize_cons]
    omega
  have hnone := textOfBytes_of_not_isPlace (h.byte ▸ not_isPlace_inside h.text h.pos hlt) hsize
  rw [(h.next hlt).1]
  simp [readBytes?, hbytes, byteChars, hblank, hmeasure, hnone, Token.strayByte]

end IsInside

/-- Wherever in its text it stands, a lexer reads the token that the bytes show. -/
theorem next?_eq_readBytes? (h : l.isBeyond = false) :
    l.next? = readBytes? l.text.toByteArray l.byte := by
  rcases placed_or_inside h with hplaced | ⟨front, c, back, i, hinside, hlt⟩
  · exact hplaced.next?_eq_readBytes?
  · exact hinside.next?_eq_readBytes? hlt

theorem exists_place (h : l.isBeyond = false) :
    ∃ front back stray, l.text.toList = front ++ back ∧ byteSize front = l.byte + stray ∧
      stray ≤ 3 ∧ (∀ i < stray, ¬ IsPlace l.text (l.byte + i)) ∧ l.ahead = ⟨stray, back⟩ := by
  rcases placed_or_inside h with hplaced | ⟨front, c, back, i, hinside, hlt⟩
  · obtain ⟨front, back, htext, hbyte⟩ := isPlace_iff.mp hplaced
    exact ⟨front, back, 0, htext, hbyte, Nat.zero_le 3, nofun, ahead_eq htext hbyte⟩
  · obtain ⟨stray, hstray⟩ := Nat.exists_eq_add_of_le (Nat.le_of_lt hlt)
    have hfour := Char.utf8Size_le_four c
    have hpos := hinside.pos
    refine ⟨front ++ [c], back, stray, by rw [hinside.text, List.append_assoc]; rfl, ?_, by omega,
      fun j hj => ?_, by rw [hinside.ahead_eq, hstray, Nat.add_sub_cancel_left]⟩
    · rw [byteSize_append, byteSize_cons, byteSize_nil, hinside.byte, hstray,
        Nat.add_zero, Nat.add_assoc]
    · rw [hinside.byte, Nat.add_assoc]
      exact not_isPlace_inside hinside.text (by omega) (by omega)

end Lexer

/-- A lexer that is set on a byte of its text reads the bytes up to the next place, three at most,
as tokens of one byte without a literal, and then the tokens of the text from that place on, as if
it stood alone, moved on to that place. Then it reads the end of the text. The bytes alone show each
of these tokens. -/
theorem tokens_of_seek (text : String) (b : Nat) (hb : b ≤ text.utf8ByteSize) :
    ∃ (front back : String) (stray : Nat), text = front ++ back ∧
      front.utf8ByteSize = b + stray ∧ stray ≤ 3 ∧ (∀ i < stray, ¬ IsPlace text (b + i)) ∧
      (∀ n, (((Lexer.ofText text).seek b).skip n).next.1 =
        ((List.range' b stray).map (fun p => (⟨.unknown, "", ⟨p, 1⟩⟩ : Token)) ++
          (tokenize back).map (Token.shifted (b + stray)))[n]?.getD
            ⟨.eof, "EOF", ⟨text.utf8ByteSize, 0⟩⟩) ∧
      ∀ n, (((Lexer.ofText text).seek b).skip n).next? =
        readBytes? text.toByteArray (((Lexer.ofText text).seek b).skip n).byte := by
  have hwithin : ((Lexer.ofText text).seek b).isBeyond = false :=
    decide_eq_false (Nat.not_lt.mpr hb)
  obtain ⟨front, back, stray, htext, hbyte, hstray, hinside, hahead⟩ :=
    Lexer.exists_place hwithin
  have htokens : ((Lexer.ofText text).seek b).tokens =
      (List.range' b stray).map Token.strayByte ++
        (tokenize (String.ofList back)).map (Token.shifted (b + stray)) := by
    rw [Lexer.tokens, hahead, tokenize_eq_scan, ← Token.scan_add, String.toList_ofList]
    rfl
  refine ⟨String.ofList front, String.ofList back, stray, ?_, ?_, hstray, hinside, fun n => ?_,
    fun n => ?_⟩
  · rw [← String.ofList_append, ← htext]
    exact String.ofList_toList.symm
  · rw [utf8ByteSize_ofList, hbyte]
    rfl
  · rw [Lexer.next_skip hwithin, htokens]
    rfl
  · have hread := Lexer.next?_eq_readBytes? (Lexer.tokens_skip hwithin n).1
    rwa [Lexer.text_skip] at hread

theorem tokens_of_seek_inside :
    1 ≤ "€7".utf8ByteSize ∧
    (List.range 4).map (fun n => (((Lexer.ofText "€7").seek 1).skip n).next.1) =
      [.strayByte 1, .strayByte 2, ⟨.int, "7", ⟨3, 1⟩⟩, .eof 4] := by
  have hb : 1 ≤ "€7".utf8ByteSize := by decide
  obtain ⟨front, back, stray, htext, hfront, -, hstray, hnext, -⟩ := tokens_of_seek "€7" 1 hb
  have hplace : IsPlace "€7" (1 + stray) :=
    isPlace_iff.mpr ⟨front.toList, back.toList, by rw [htext, String.toList_append],
      by rw [byteSize_toList, hfront]⟩
  have hchecked : ¬ IsPlace "€7" 1 ∧ ¬ IsPlace "€7" 2 ∧ IsPlace "€7" 3 := by
    unfold IsPlace
    decide +kernel
  obtain rfl : stray = 2 := by
    rcases Nat.lt_trichotomy stray 2 with hlt | rfl | hgt
    · rcases Nat.lt_succ_iff_lt_or_eq.mp hlt with hzero | rfl
      · obtain rfl := Nat.lt_one_iff.mp hzero
        exact absurd hplace hchecked.1
      · exact absurd hplace hchecked.2.1
    · rfl
    · exact absurd hchecked.2.2 (hstray 2 hgt)
  have hsplit : ['€'] ++ ['7'] = front.toList ++ back.toList := by
    rw [← String.toList_append, ← htext]
    decide
  have hsize : byteSize ['€'] = byteSize front.toList := by
    rw [byteSize_toList, hfront]
    decide
  obtain rfl : back = "7" := String.toList_inj.mp (eq_of_append_eq hsplit hsize).symm
  refine ⟨hb, ?_⟩
  simp only [hnext]
  decide +kernel

end PromptCalc
