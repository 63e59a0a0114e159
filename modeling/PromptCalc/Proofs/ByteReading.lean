import PromptCalc.Proofs.Segmentation

/-!
# Reading bytes

The next token as it is told from the bytes of a text, wherever among them reading starts. Blanks,
symbols, digits, dots and letters are single bytes. The dots of a numeral are counted on the way,
with a look at the byte behind each of them. Any other character is decoded in a window of four
bytes, and a byte that starts no character there stands alone. A lexer reads the same tokens.
-/
namespace PromptCalc

def bytesOf (cs : List Char) : List UInt8 := cs.flatMap String.utf8EncodeChar

def byteChars (bytes : List UInt8) : List Char := bytes.map Char.ofUInt8

/-- What is known of a numeral on the way: the bytes so far, the dots among them, and whether one of
these has no digit behind it. -/
structure NumeralScan where
  size : Nat
  dots : Nat
  dangling : Bool

namespace NumeralScan

def along : List Char → NumeralScan → NumeralScan
  | [], scan => scan
  | c :: cs, scan =>
    if c.isDigit then along cs { scan with size := scan.size + 1 }
    else if c = '.' then
      along cs ⟨scan.size + 1, scan.dots + 1, scan.dangling || !cs.head?.any Char.isDigit⟩
    else scan

def kind (scan : NumeralScan) : TokenKind :=
  if scan.dangling then .unknown
  else
    match scan.dots with
    | 0 => .int
    | 1 => .float
    | _ => .unknown

end NumeralScan

def dangles : List Char → Bool
  | [] => false
  | c :: cs => c == '.' && !cs.head?.any Char.isDigit || dangles cs

/-- The kind and the size of the token at the front of the bytes, where the first is not blank. -/
def measureBytes (b : UInt8) (bytes : List UInt8) : TokenKind × Nat :=
  let c := Char.ofUInt8 b
  match TokenKind.ofSymbol? c with
  | some kind => (kind, 1)
  | none =>
    if c.isDigit then
      let scan := NumeralScan.along (byteChars bytes) ⟨1, 0, false⟩
      (scan.kind, scan.size)
    else if isLetter c then
      let word := (byteChars (b :: bytes)).takeWhile isLetter
      (.ofWord word, word.length)
    else
      let window := (b :: bytes).take 4
      (.unknown, (window.toByteArray.utf8DecodeChar? 0).elim 1 Char.utf8Size)

def IsAsciiTest (test : Char → Bool) : Prop := ∀ c, test c = true → c.toNat < 128

/-- The text that the bytes are, or the empty one if they are none. -/
def textOfBytes (bytes : ByteArray) : String := (String.fromUTF8? bytes).getD ""

/-- The next token from the given byte on, if there is one more. -/
def readBytes? (bytes : ByteArray) (byte : Nat) : Option Token :=
  let ahead := bytes.data.toList.drop byte
  let blanks := ((byteChars ahead).takeWhile isBlank).length
  match ahead.drop blanks with
  | [] => none
  | b :: rest =>
    let start := byte + blanks
    let (kind, size) := measureBytes b rest
    some ⟨kind, textOfBytes (bytes.extract start (start + size)), start, size⟩

section Bytes

variable {c : Char} {cs : List Char}

theorem bytesOf_append (as bs : List Char) : bytesOf (as ++ bs) = bytesOf as ++ bytesOf bs :=
  List.flatMap_append

theorem length_bytesOf (cs : List Char) : (bytesOf cs).length = byteSize cs := by
  induction cs with
  | nil => rfl
  | cons c cs ih =>
    rw [byteSize_cons, ← ih, ← String.length_utf8EncodeChar, ← List.length_append]
    rfl

theorem bytesOf_toList (text : String) : bytesOf text.toList = text.toByteArray.data.toList := by
  conv_rhs => rw [← String.ofList_toList (s := text)]
  rw [String.toByteArray_ofList, List.utf8Encode, List.toList_data_toByteArray, bytesOf]

theorem bytesOf_cons_of_lt (h : c.toNat < 128) (cs : List Char) :
    bytesOf (c :: cs) = UInt8.ofNat c.toNat :: bytesOf cs := by
  have hbytes : String.utf8EncodeChar c = [UInt8.ofNat c.toNat] := by
    simp [String.utf8EncodeChar, Nat.le_of_lt_succ h]
  rw [bytesOf, List.flatMap_cons, hbytes]
  rfl

theorem ofUInt8_of_lt (h : c.toNat < 128) : Char.ofUInt8 (UInt8.ofNat c.toNat) = c := by
  apply Char.toNat_inj.mp
  simp [Char.ofUInt8]
  omega

/-- A character beyond the ASCII ones has none of their bytes. -/
theorem le_of_mem_utf8EncodeChar (h : 128 ≤ c.toNat) {b : UInt8}
    (hb : b ∈ String.utf8EncodeChar c) : 128 ≤ b.toNat := by
  have hmod (n : Nat) (hn : 128 ≤ n) (hn' : n < 256) : 128 ≤ (UInt8.ofNat n).toNat := by
    rw [UInt8.toNat_ofNat', Nat.mod_eq_of_lt hn']
    exact hn
  have hlong : ¬ c.val.toNat ≤ 127 := Nat.not_le.mpr h
  simp only [String.utf8EncodeChar, if_neg hlong] at hb
  split at hb
  · simp only [List.mem_cons, List.not_mem_nil, or_false] at hb
    rcases hb with rfl | rfl <;> exact hmod _ (by omega) (by omega)
  · split at hb
    · simp only [List.mem_cons, List.not_mem_nil, or_false] at hb
      rcases hb with rfl | rfl | rfl <;> exact hmod _ (by omega) (by omega)
    · simp only [List.mem_cons, List.not_mem_nil, or_false] at hb
      rcases hb with rfl | rfl | rfl | rfl <;> exact hmod _ (by omega) (by omega)

theorem exists_bytesOf_cons (h : 128 ≤ c.toNat) (cs : List Char) :
    ∃ b bytes, bytesOf (c :: cs) = b :: bytes ∧ 128 ≤ (Char.ofUInt8 b).toNat := by
  cases hbytes : String.utf8EncodeChar c with
  | nil => exact absurd hbytes String.utf8EncodeChar_ne_nil
  | cons b bytes =>
    refine ⟨b, bytes ++ bytesOf cs, by rw [bytesOf, List.flatMap_cons, hbytes]; rfl, ?_⟩
    exact le_of_mem_utf8EncodeChar h (hbytes ▸ List.mem_cons_self)

/-- A window of four bytes is wide enough for the character that starts there. -/
theorem utf8DecodeChar?_window (c : Char) (cs : List Char) :
    ((bytesOf (c :: cs)).take 4).toByteArray.utf8DecodeChar? 0 = some c := by
  have hsize : (String.utf8EncodeChar c).length ≤ 4 := by
    rw [String.length_utf8EncodeChar]
    exact Char.utf8Size_le_four c
  rw [bytesOf, List.flatMap_cons, List.take_append, List.take_of_length_le hsize,
    List.toByteArray_append]
  exact ByteArray.utf8DecodeChar?_utf8EncodeChar_append

theorem drop_bytesOf (front back : List Char) :
    (bytesOf (front ++ back)).drop (byteSize front) = bytesOf back := by
  rw [bytesOf_append, ← length_bytesOf, List.drop_left]

theorem utf8Size_of_lt (h : c.toNat < 128) : c.utf8Size = 1 :=
  Char.utf8Size_eq_one_iff.mpr (UInt32.le_iff_toNat_le.mpr (Nat.le_of_lt_succ h))

theorem byteSize_of_lt (h : ∀ c ∈ cs, c.toNat < 128) : byteSize cs = cs.length := by
  induction cs with
  | nil => rfl
  | cons c cs ih =>
    obtain ⟨hc, hcs⟩ := List.forall_mem_cons.mp h
    rw [byteSize_cons, utf8Size_of_lt hc, ih hcs, List.length_cons, Nat.add_comm]

end Bytes

namespace IsAsciiTest

theorem isDigit : IsAsciiTest Char.isDigit := by
  intro c h
  simp only [Char.isDigit, Bool.and_eq_true, decide_eq_true_eq] at h
  have := UInt32.le_iff_toNat_le.mp h.2
  exact Nat.lt_of_le_of_lt this (by decide)

theorem isNumeric : IsAsciiTest isNumeric := by
  intro c h
  rcases Bool.or_eq_true_iff.mp h with h | h
  · exact isDigit c h
  · rw [eq_of_beq h]
    decide

theorem isLetter : IsAsciiTest isLetter := by
  intro c h
  simp only [PromptCalc.isLetter, Char.isAlpha, Char.isUpper, Char.isLower, Bool.or_eq_true,
    Bool.and_eq_true, decide_eq_true_eq, beq_iff_eq] at h
  rcases h with (⟨-, h⟩ | ⟨-, h⟩) | rfl
  · exact Nat.lt_of_le_of_lt (UInt32.le_iff_toNat_le.mp h) (by decide)
  · exact Nat.lt_of_le_of_lt (UInt32.le_iff_toNat_le.mp h) (by decide)
  · decide

theorem isBlank : IsAsciiTest isBlank := by
  intro c h
  simp only [PromptCalc.isBlank, Bool.or_eq_true, beq_iff_eq] at h
  rcases h with ((rfl | rfl) | rfl) | rfl <;> decide

theorem isSymbol : IsAsciiTest fun c => (TokenKind.ofSymbol? c).isSome := by
  intro c h
  dsimp only [TokenKind.ofSymbol?] at h
  split at h <;> first | decide | cases h

variable {test : Char → Bool}

theorem eq_false (h : IsAsciiTest test) {c : Char} (hc : 128 ≤ c.toNat) : test c = false := by
  rw [← Bool.not_eq_true]
  exact fun htest => Nat.not_lt.mpr hc (h c htest)

theorem takeWhile_bytesOf (h : IsAsciiTest test) (cs : List Char) :
    (byteChars (bytesOf cs)).takeWhile test = cs.takeWhile test := by
  induction cs with
  | nil => rfl
  | cons c cs ih =>
    rcases Nat.lt_or_ge c.toNat 128 with hc | hc
    · rw [bytesOf_cons_of_lt hc, byteChars, List.map_cons, ofUInt8_of_lt hc, List.takeWhile_cons,
        List.takeWhile_cons]
      exact ite_congr rfl (fun _ => congrArg (c :: ·) ih) fun _ => rfl
    · obtain ⟨b, bytes, hbytes, hb⟩ := exists_bytesOf_cons hc cs
      rw [hbytes, byteChars, List.map_cons, List.takeWhile_cons, List.takeWhile_cons,
        h.eq_false hc, h.eq_false hb]
      rfl

theorem byteSize_takeWhile (h : IsAsciiTest test) (cs : List Char) :
    byteSize (cs.takeWhile test) = (cs.takeWhile test).length :=
  byteSize_of_lt fun c hc => h c (List.all_eq_true.mp List.all_takeWhile c hc)

end IsAsciiTest

section Numerals

variable {c : Char} {cs : List Char}

theorem any_head?_takeWhile (cs : List Char) :
    (cs.takeWhile isNumeric).head?.any Char.isDigit = cs.head?.any Char.isDigit := by
  cases cs with
  | nil => rfl
  | cons c cs =>
    cases hc : isNumeric c with
    | true => simp [hc]
    | false => simp [hc, isDigit_eq_false hc]

/-- The scan goes over the whole run of digits and dots and knows all of its dots. -/
theorem NumeralScan.along_eq (cs : List Char) (scan : NumeralScan) :
    along cs scan = ⟨scan.size + (cs.takeWhile isNumeric).length,
      scan.dots + (cs.takeWhile isNumeric).count '.',
      scan.dangling || dangles (cs.takeWhile isNumeric)⟩ := by
  induction cs generalizing scan with
  | nil => simp [along, dangles]
  | cons c cs ih =>
    by_cases hdigit : c.isDigit = true
    · have hne : c ≠ '.' := by
        rintro rfl
        exact absurd hdigit (by decide)
      rw [along, if_pos hdigit, ih, List.takeWhile_cons, if_pos (isNumeric_of_isDigit hdigit)]
      simp [dangles, hne, beq_false_of_ne hne, Nat.add_assoc, Nat.add_comm 1]
    · by_cases hdot : c = '.'
      · subst hdot
        have hnumeric : isNumeric '.' = true := by decide
        rw [along, if_neg hdigit, if_pos rfl, ih, List.takeWhile_cons, if_pos hnumeric, dangles,
          any_head?_takeWhile]
        simp [Nat.add_assoc, Nat.add_comm 1, Bool.or_assoc]
      · have hnumeric : ¬ isNumeric c = true := fun h => hdigit (isDigit_of_isNumeric h hdot)
        rw [along, if_neg hdigit, if_neg hdot, List.takeWhile_cons, if_neg hnumeric]
        simp [dangles]

theorem dots_append {whole : List Char} (hwhole : ∀ c ∈ whole, c.isDigit = true)
    (rest : List Char) :
    (whole ++ rest).count '.' = rest.count '.' ∧ dangles (whole ++ rest) = dangles rest := by
  induction whole with
  | nil => exact ⟨rfl, rfl⟩
  | cons c whole ih =>
    obtain ⟨hc, hwhole⟩ := List.forall_mem_cons.mp hwhole
    have hne : c ≠ '.' := by
      rintro rfl
      exact absurd hc (by decide)
    obtain ⟨hcount, hdangles⟩ := ih hwhole
    rw [List.cons_append, List.count_cons_of_ne hne, dangles, beq_false_of_ne hne, hcount, hdangles]
    exact ⟨rfl, rfl⟩

theorem NumeralScan.kind_eq (hcs : ∀ c ∈ cs, isNumeric c = true) (size : Nat) :
    (mk size (cs.count '.') (dangles cs)).kind = TokenKind.ofNumeral cs := by
  have hdigits : ∀ c ∈ cs.takeWhile Char.isDigit, c.isDigit = true :=
    List.all_eq_true.mp List.all_takeWhile
  have hcut := List.takeWhile_append_dropWhile (p := Char.isDigit) (l := cs)
  have hdots := dots_append hdigits (cs.dropWhile Char.isDigit)
  rw [hcut] at hdots
  rw [hdots.1, hdots.2]
  rcases TokenKind.dropWhile_of_isNumeric hcs with hdrop | ⟨part, hdrop⟩
  · rw [TokenKind.ofNumeral, hdrop]
    rfl
  · rw [TokenKind.ofNumeral_of_dropWhile hdrop, hdrop, List.count_cons_self]
    split
    · next hfraction =>
      obtain ⟨hne, hpart⟩ := hfraction
      have hpart := List.all_eq_true.mp hpart
      have hdots := dots_append hpart []
      rw [List.append_nil] at hdots
      have hfirst : part.head?.any Char.isDigit = true := by
        cases part with
        | nil => exact absurd rfl hne
        | cons d ds => exact hpart d List.mem_cons_self
      simp [kind, dangles, hdots, hfirst]
    · next hfraction =>
      by_cases hdangles : dangles ('.' :: part) = true
      · rw [kind, if_pos hdangles]
      · -- Digits follow the first dot, but not they alone, so there is a second dot.
        have hne : part ≠ [] := by
          rintro rfl
          exact hdangles rfl
        have hmem : '.' ∈ part := by
          refine Decidable.byContradiction fun hnone => hfraction ⟨hne, ?_⟩
          refine List.all_eq_true.mpr fun d hd => isDigit_of_isNumeric (hcs d ?_) ?_
          · rw [← hcut, hdrop]
            exact List.mem_append_right _ (List.mem_cons_of_mem _ hd)
          · rintro rfl
            exact hnone hd
        obtain ⟨n, hn⟩ := Nat.exists_eq_add_of_lt (List.count_pos_iff.mpr hmem)
        rw [kind, if_neg hdangles, hn]
        rfl

theorem NumeralScan.along_bytesOf (hc : c.isDigit = true) (cs : List Char) :
    (along (byteChars (bytesOf cs)) ⟨1, 0, false⟩).kind =
        TokenKind.ofNumeral (c :: cs.takeWhile isNumeric) ∧
      (along (byteChars (bytesOf cs)) ⟨1, 0, false⟩).size =
        byteSize (c :: cs.takeWhile isNumeric) := by
  have hnumeric : ∀ d ∈ c :: cs.takeWhile isNumeric, isNumeric d = true :=
    List.forall_mem_cons.mpr ⟨isNumeric_of_isDigit hc, List.all_eq_true.mp List.all_takeWhile⟩
  have hwhole : ∀ d ∈ [c], d.isDigit = true := by simpa using hc
  obtain ⟨hcount, hdangles⟩ := dots_append hwhole (cs.takeWhile isNumeric)
  rw [along_eq, IsAsciiTest.isNumeric.takeWhile_bytesOf, Nat.zero_add, Bool.false_or, ← hcount,
    ← hdangles]
  refine ⟨kind_eq hnumeric _, ?_⟩
  rw [byteSize_cons, utf8Size_of_lt (IsAsciiTest.isDigit c hc),
    IsAsciiTest.isNumeric.byteSize_takeWhile]

end Numerals

section Measure

variable {c : Char} {cs : List Char} {b : UInt8}

/-- A byte of no symbol, no digit and no letter starts a character, or it stands alone. -/
theorem measureBytes_of_plain (h : TokenKind.ofSymbol? (Char.ofUInt8 b) = none)
    (hdigit : (Char.ofUInt8 b).isDigit = false) (hletter : isLetter (Char.ofUInt8 b) = false)
    (bytes : List UInt8) :
    measureBytes b bytes =
      (.unknown, (((b :: bytes).take 4).toByteArray.utf8DecodeChar? 0).elim 1 Char.utf8Size) := by
  simp [measureBytes, h, hdigit, hletter]

theorem measureBytes_of_le (h : 128 ≤ (Char.ofUInt8 b).toNat) (bytes : List UInt8) :
    measureBytes b bytes =
      (.unknown, (((b :: bytes).take 4).toByteArray.utf8DecodeChar? 0).elim 1 Char.utf8Size) := by
  have hsymbol := IsAsciiTest.isSymbol.eq_false h
  exact measureBytes_of_plain (by simpa using hsymbol) (IsAsciiTest.isDigit.eq_false h)
    (IsAsciiTest.isLetter.eq_false h) bytes

theorem word_bytesOf (h : isLetter c = true) (cs : List Char) :
    (byteChars (bytesOf (c :: cs))).takeWhile isLetter = c :: cs.takeWhile isLetter ∧
      byteSize (c :: cs.takeWhile isLetter) = (c :: cs.takeWhile isLetter).length := by
  have hword : (c :: cs).takeWhile isLetter = c :: cs.takeWhile isLetter := by
    rw [List.takeWhile_cons, if_pos h]
  rw [← hword]
  exact ⟨IsAsciiTest.isLetter.takeWhile_bytesOf _, IsAsciiTest.isLetter.byteSize_takeWhile _⟩

/-- The bytes of characters show what is cut off at the front of them. -/
theorem exists_measureBytes_eq (c : Char) (cs : List Char) :
    ∃ b bytes, bytesOf (c :: cs) = b :: bytes ∧
      measureBytes b bytes = ((Lexeme.cut c cs).kind, byteSize (Lexeme.cut c cs).chars) := by
  rcases Nat.lt_or_ge c.toNat 128 with hc | hc
  · refine ⟨_, _, bytesOf_cons_of_lt hc cs, ?_⟩
    have hchar := ofUInt8_of_lt hc
    cases hsymbol : TokenKind.ofSymbol? c with
    | some kind => simp [measureBytes, hchar, Lexeme.cut, hsymbol, utf8Size_of_lt hc]
    | none =>
      by_cases hdigit : c.isDigit = true
      · obtain ⟨hkind, hsize⟩ := NumeralScan.along_bytesOf hdigit cs
        simp [measureBytes, hchar, hsymbol, hdigit, hkind, hsize, Lexeme.cut_of_isDigit hdigit,
          Lexeme.run]
      · by_cases hletter : isLetter c = true
        · obtain ⟨hword, hsize⟩ := word_bytesOf hletter cs
          rw [bytesOf_cons_of_lt hc] at hword
          simp only [measureBytes, hchar, hsymbol, hdigit, hletter, hword, ← hsize,
            Lexeme.cut_of_isLetter hletter, Lexeme.run]
          rfl
        · rw [measureBytes_of_plain (by rw [hchar, hsymbol]) (by simpa [hchar] using hdigit)
            (by simpa [hchar] using hletter), ← bytesOf_cons_of_lt hc, utf8DecodeChar?_window]
          simp [Lexeme.cut, hsymbol, hdigit, hletter]
  · obtain ⟨b, bytes, hbytes, hb⟩ := exists_bytesOf_cons hc cs
    refine ⟨b, bytes, hbytes, ?_⟩
    have hsymbol : TokenKind.ofSymbol? c = none := by
      simpa using IsAsciiTest.isSymbol.eq_false hc
    rw [measureBytes_of_le hb, ← hbytes, utf8DecodeChar?_window]
    simp [Lexeme.cut, hsymbol, IsAsciiTest.isDigit.eq_false hc, IsAsciiTest.isLetter.eq_false hc]

end Measure

theorem Token.first?_eq (offset : Nat) (cs : List Char) :
    (first? offset cs).map Prod.fst =
      match cs.dropWhile isBlank with
      | [] => none
      | c :: rest =>
        some ((Lexeme.cut c rest).token (offset + (cs.takeWhile isBlank).length)) := by
  induction cs generalizing offset with
  | nil => rfl
  | cons c cs ih =>
    cases hc : isBlank c with
    | true => simp [first?, hc, ih, Nat.add_comm 1, Nat.add_assoc]
    | false => simp [first?, hc]

theorem fromUTF8?_toByteArray (text : String) : String.fromUTF8? text.toByteArray = some text :=
  dif_pos text.isValidUTF8

theorem textOfBytes_toByteArray (text : String) : textOfBytes text.toByteArray = text := by
  rw [textOfBytes, fromUTF8?_toByteArray]
  rfl

/-- In front of a character, the bytes are read like the characters. -/
theorem Lexer.IsPlaced.next?_eq_readBytes? {l : Lexer} (h : l.IsPlaced) :
    l.next? = readBytes? l.text.toByteArray l.byte := by
  obtain ⟨front, rest, htext, hbyte⟩ := isPlace_iff.mp h
  have hnext : l.next? = (Token.first? l.byte rest).map Prod.fst := by
    simp [next?, ahead_eq htext hbyte, Ahead.first?]
  have hbytes : l.text.toByteArray.data.toList.drop l.byte = bytesOf rest := by
    rw [← bytesOf_toList, htext, ← hbyte, drop_bytesOf]
  have hblanks : (byteChars (bytesOf rest)).takeWhile isBlank = rest.takeWhile isBlank :=
    IsAsciiTest.isBlank.takeWhile_bytesOf rest
  have hdrop : (bytesOf rest).drop (rest.takeWhile isBlank).length =
      bytesOf (rest.dropWhile isBlank) := by
    have hcut := drop_bytesOf (rest.takeWhile isBlank) (rest.dropWhile isBlank)
    rwa [List.takeWhile_append_dropWhile, IsAsciiTest.isBlank.byteSize_takeWhile] at hcut
  have hread := Token.first?_eq l.byte rest
  unfold readBytes?
  simp only [hbytes, hblanks, hdrop]
  cases hrest : rest.dropWhile isBlank with
  | nil =>
    rw [hrest] at hread
    exact hnext.trans hread
  | cons c cs =>
    rw [hrest] at hread
    have hsome := hnext.trans hread
    obtain ⟨b, bytes, hb, hmeasure⟩ := exists_measureBytes_eq c cs
    have hcut := h.isCutFrom_of_next? (n := 0) hsome
    have htextOf := congrArg textOfBytes hcut.bytes
    rw [textOfBytes_toByteArray] at htextOf
    rw [hsome, hb]
    simp only [hmeasure]
    exact congrArg (fun literal => some (Token.mk _ literal _)) htextOf.symm

end PromptCalc
