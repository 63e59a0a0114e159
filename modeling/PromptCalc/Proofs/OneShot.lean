import PromptCalc.Proofs.ByteReading
import PromptCalc.Proofs.Conversation
import PromptCalc.Proofs.Layout
import Mathlib

/-!
# One prompt, two ways

A prompt is answered the same if it is an argument of a call and if it is the only line of a
conversation. The line is trimmed and the argument is not, but blanks around a prompt are between no
words. What is printed in the one case is the result that is shown in the other.
-/
namespace PromptCalc

theorem Text.mem_takeWhile_append {p : Char → Bool} {as : List Char} {c : Char}
    (h : c ∈ as.takeWhile p) (bs : List Char) : c ∈ (as ++ bs).takeWhile p := by
  rw [List.takeWhile_append]
  split
  · exact List.mem_append_left _ ((List.takeWhile_prefix p).subset h)
  · exact h

theorem Text.exists_around_trim (text : String) :
    ∃ front back, text.toList = front ++ (trim text).toList ++ back ∧
      front = text.toList.takeWhile isSpace ∧
      ∀ c ∈ back, c ∈ text.toList.reverse.takeWhile isSpace := by
  have htext : text.toList.takeWhile isSpace ++ text.toList.dropWhile isSpace = text.toList :=
    List.takeWhile_append_dropWhile
  generalize hinner : text.toList.dropWhile isSpace = inner at htext
  have htrim : (trim text).toList ++ (inner.reverse.takeWhile isSpace).reverse = inner := by
    rw [trim, hinner, String.toList_ofList, ← List.reverse_append,
      List.takeWhile_append_dropWhile, List.reverse_reverse]
  refine ⟨_, (inner.reverse.takeWhile isSpace).reverse, ?_, rfl, fun c hc => ?_⟩
  · rw [List.append_assoc, htrim, htext]
  · rw [← htext, List.reverse_append]
    exact mem_takeWhile_append (List.mem_reverse.mp hc) _

theorem Token.scan_blanks {front : List Char} (h : ∀ c ∈ front, isBlank c = true) (offset : Nat)
    (cs : List Char) : scan offset (front ++ cs) = scan (offset + front.length) cs := by
  induction front generalizing offset with
  | nil => rfl
  | cons c front ih =>
    obtain ⟨hc, hfront⟩ := List.forall_mem_cons.mp h
    rw [List.cons_append, scan_blank hc, ih hfront, List.length_cons, Nat.add_assoc,
      Nat.add_comm 1]

theorem Boundary.of_blanks {back : List Char} (h : ∀ c ∈ back, isBlank c = true) :
    Boundary back :=
  fun c hc => plain_of_isBlank (h c (List.mem_of_mem_head? hc))

theorem SameWords.of_blanks {text text' : String} {front back : List Char}
    (htext : text.toList = front ++ text'.toList ++ back) (hfront : ∀ c ∈ front, isBlank c = true)
    (hback : ∀ c ∈ back, isBlank c = true) : SameWords text text' := by
  have hnone (offset : Nat) : Token.scan offset back = [] := by
    rw [← List.append_nil back, Token.scan_blanks hback, Token.scan_nil]
  rw [SameWords, tokenize_eq_scan, tokenize_eq_scan, htext,
    Token.scan_append (.of_blanks hback), hnone, List.append_nil, Token.scan_blanks hfront]
  exact Token.map_word_scan ..

theorem Matched.toOption_eq {ε α : Type} {fails : ε → ε → Prop} {a b : Except ε α}
    (h : Matched fails (· = ·) a b) : a.toOption = b.toOption := by
  cases h with
  | ok h => exact congrArg some h
  | error => rfl

section Lines

theorem ten_notMem_bytesOf {cs : List Char} (h : '\n' ∉ cs) : 10 ∉ bytesOf cs := by
  intro hmem
  obtain ⟨c, hc, hbyte⟩ := List.mem_flatMap.mp hmem
  by_cases hascii : c.toNat < 128
  · have hbytes := bytesOf_cons_of_lt hascii []
    rw [bytesOf, List.flatMap_singleton] at hbytes
    rw [hbytes] at hbyte
    have hten : UInt8.ofNat c.toNat = 10 := (List.mem_singleton.mp hbyte).symm
    have hnewline : '\n' = c := by
      rw [← ofUInt8_of_lt hascii, hten]
      rfl
    exact h (hnewline ▸ hc)
  · exact absurd (le_of_mem_utf8EncodeChar (Nat.not_lt.mp hascii) hbyte) (by decide)

theorem toList_loop_eq (bytes : ByteArray) (i : Nat) (front : List UInt8) :
    ByteArray.toList.loop bytes i front = front.reverse ++ bytes.data.toList.drop i := by
  induction i, front using ByteArray.toList.loop.induct bytes with
  | case1 i front hlt ih =>
    have hi : i < bytes.data.toList.length := by simpa using hlt
    have hget : bytes.get! i = bytes.data.toList[i] := by
      simp only [ByteArray.get!, Array.getElem_toList]
      exact getElem!_pos bytes.data i (by simpa using hlt)
    rw [ByteArray.toList.loop, if_pos hlt, ih, List.drop_eq_getElem_cons hi, hget]
    simp
  | case2 i front hge =>
    have hlength : bytes.data.toList.length ≤ i := by simpa using hge
    rw [ByteArray.toList.loop, if_neg hge, List.drop_eq_nil_of_le hlength, List.append_nil]

theorem toList_toUTF8 (text : String) : text.toUTF8.toList = bytesOf text.toList := by
  rw [bytesOf_toList, String.toUTF8_eq_toByteArray, ByteArray.toList, toList_loop_eq]
  rfl

end Lines

namespace Console

theorem lines_append {line : List UInt8} (h : 10 ∉ line) (rest : List UInt8) :
    lines (line ++ 10 :: rest) = line :: lines rest := by
  induction line with
  | nil => rfl
  | cons byte line ih =>
    obtain ⟨hbyte, hline⟩ := List.ne_and_not_mem_of_not_mem_cons h
    rw [List.cons_append, lines, if_neg (Ne.symm hbyte), ih hline]

theorem lines_of_notMem {line : List UInt8} (h : 10 ∉ line) (hne : line ≠ []) :
    lines line = [line] := by
  induction line with
  | nil => contradiction
  | cons byte line ih =>
    obtain ⟨hbyte, hline⟩ := List.ne_and_not_mem_of_not_mem_cons h
    rw [lines, if_neg (Ne.symm hbyte)]
    cases line with
    | nil => rfl
    | cons => rw [ih hline nofun]

theorem decode_bytesOf (text : String) : decode (bytesOf text.toList) = some text := by
  have hbytes : (bytesOf text.toList).toByteArray = text.toByteArray := by
    rw [bytesOf_toList]
    exact ByteArray.ext (by simp)
  rw [decode, hbytes, fromUTF8?_toByteArray]

end Console

namespace CommandLine

open Console

theorem linesOf_newline {line : String} (h : '\n' ∉ line.toList) :
    linesOf (line ++ "\n").toUTF8 = [some line] := by
  have hbytes : bytesOf "\n".toList = [10] := rfl
  rw [linesOf, toList_toUTF8, String.toList_append, bytesOf_append, hbytes,
    lines_append (ten_notMem_bytesOf h), List.map_cons, decode_bytesOf]
  rfl

theorem linesOf_toUTF8 {line : String} (h : '\n' ∉ line.toList) (hne : line ≠ "") :
    linesOf line.toUTF8 = [some line] := by
  have hbytes : bytesOf line.toList ≠ [] := by
    apply List.ne_nil_of_length_pos
    rw [length_bytesOf]
    exact byteSize_pos (mt String.toList_eq_nil_iff.mp hne)
  rw [linesOf, toList_toUTF8, lines_of_notMem (ten_notMem_bytesOf h) hbytes, List.map_cons,
    decode_bytesOf]
  rfl

/-- The prompt fits on a line, it has nothing but blanks around it, and it is no command. -/
structure IsPromptLine (prompt : String) : Prop where
  unbroken : '\n' ∉ prompt.toList
  front : prompt.toList.takeWhile Text.isSpace ⊆ [' ', '\t', '\r']
  back : prompt.toList.reverse.takeWhile Text.isSpace ⊆ [' ', '\t', '\r']
  command : String.ofList ((Text.trim prompt).toList.map Char.toLower) ∉ ["help", "clear", "quit"]

variable {args args' : List String} {places : Nat} {prompt : String} {input : ByteArray}

theorem IsPromptLine.sameWords_trim (h : IsPromptLine prompt) :
    SameWords prompt (Text.trim prompt) := by
  have hblank (c : Char) (hc : c ∈ [' ', '\t', '\r']) : isBlank c = true := by
    simp only [List.mem_cons, List.not_mem_nil, or_false] at hc
    rcases hc with rfl | rfl | rfl <;> rfl
  obtain ⟨front, back, htext, rfl, hback⟩ := Text.exists_around_trim prompt
  exact .of_blanks htext (fun c hc => hblank c (h.front hc))
    fun c hc => hblank c (h.back (hback c hc))

theorem IsPromptLine.ofLine (h : IsPromptLine prompt) :
    Request.ofLine prompt = .prompt (Text.trim prompt) := by
  obtain ⟨hhelp, hclear, hquit⟩ := by simpa only [List.mem_cons, not_or] using h.command
  rw [Request.ofLine, if_neg hhelp, if_neg hclear, if_neg hquit.1]

theorem IsPromptLine.value? (h : IsPromptLine prompt) (s : Session) :
    Console.value? s prompt = (s.evaluate prompt).1.toOption := by
  rw [value?_prompt h.ofLine, (Session.evaluate_alike h.sameWords_trim s).toOption_eq]

/-- With or without a line feed behind it, the prompt is all that is answered. -/
theorem IsPromptLine.exists_values (h : IsPromptLine prompt)
    (hinput : input = prompt.toUTF8 ∨ input = (prompt ++ "\n").toUTF8) :
    ∃ lines : List String, linesOf input = lines.map some ∧
      values .new lines = (Session.new.evaluate prompt).1.toOption.toList := by
  have hvalues : values .new [prompt] = (Session.new.evaluate prompt).1.toOption.toList := by
    rw [values_cons (by rw [h.ofLine]; exact nofun), h.value?, values_nil, List.append_nil]
  rcases hinput with rfl | rfl
  · by_cases hempty : prompt = ""
    · obtain ⟨e, he⟩ := exists_error_of_blank .new
      have hnone : linesOf "".toUTF8 = [] := by
        rw [linesOf, toList_toUTF8]
        rfl
      rw [hempty, he]
      exact ⟨[], hnone, rfl⟩
    · exact ⟨[prompt], linesOf_toUTF8 h.unbroken hempty, hvalues⟩
  · exact ⟨[prompt], linesOf_newline h.unbroken, hvalues⟩

theorem run_evaluate (hargs : invocation? args = some ⟨places, .evaluate prompt⟩)
    (input : ByteArray) :
    run args input =
      match (Session.new.evaluate prompt).1 with
      | .error e => .refused e
      | .ok x =>
        match Number.rounded? places x with
        | some text => .success (text ++ "\n")
        | none => .ended "" .tooManyPlaces := by
  rw [run, hargs]
  rfl

/-- A call with the prompt prints a line just if the line is the result that is shown in a
conversation over the prompt, and it fails just if none is shown. It exits with 1 then, unless there
is an answer that cannot be written with so many places, when both break off with 101. -/
theorem run_evaluate_iff_converse (hprompt : IsPromptLine prompt)
    (hargs : invocation? args = some ⟨places, .evaluate prompt⟩)
    (hargs' : invocation? args' = some ⟨places, .converse⟩) {input' : ByteArray}
    (hinput' : input' = prompt.toUTF8 ∨ input' = (prompt ++ "\n").toUTF8) (input : ByteArray) :
    (∀ text, (run args input).exit = 0 ∧ (run args input).output = text ++ "\n" ↔
      (run args' input').results = [text]) ∧
    (places ≤ Number.maxPlaces ∨ (Session.new.evaluate prompt).1.toOption = none →
      ((run args input).exit = 1 ↔ (run args' input').results = []) ∧
        (run args' input').exit = 0) ∧
    (¬ (places ≤ Number.maxPlaces ∨ (Session.new.evaluate prompt).1.toOption = none) →
      (run args input).exit = 101 ∧ (run args input).output = "" ∧
        (run args' input').exit = 101 ∧ (run args' input').results = []) := by
  obtain ⟨lines, hlines, hvalues⟩ := hprompt.exists_values hinput'
  obtain ⟨hresults, hexit⟩ := results_run hargs' hlines
  rw [hvalues] at hresults hexit
  rw [run_evaluate hargs, hresults, hexit]
  cases (Session.new.evaluate prompt).1 with
  | error e =>
    refine ⟨fun text => ⟨fun h => ?_, nofun⟩, fun _ => ?_, fun h => absurd (.inr rfl) h⟩
    · cases h.1
    · exact ⟨⟨fun _ => rfl, fun _ => rfl⟩, if_pos (.inr rfl)⟩
  | ok x =>
    have hvalue : (Except.ok x : Except Failure Float).toOption = some x := rfl
    simp only [hvalue, Option.toList_some, List.cons_ne_nil, reduceCtorEq, or_false]
    cases hrounded : Number.rounded? places x with
    | none =>
      have hmany : ¬ places ≤ Number.maxPlaces := Number.rounded?_eq_none_iff.mp hrounded
      rw [List.filterMap_cons_none hrounded]
      refine ⟨fun text => ⟨fun h => ?_, nofun⟩, fun h => absurd h hmany, fun _ => ?_⟩
      · cases h.1
      · exact ⟨rfl, rfl, if_neg hmany, rfl⟩
    | some shown =>
      have hplaces : places ≤ Number.maxPlaces := Number.le_maxPlaces_of_rounded? hrounded
      rw [List.filterMap_cons_some hrounded, List.filterMap_nil]
      refine ⟨fun text => ⟨fun h => ?_, fun h => ?_⟩, fun _ => ⟨⟨nofun, nofun⟩, if_pos hplaces⟩,
        fun h => absurd hplaces h⟩
      · rw [String.append_left_inj "\n" |>.mp h.2]
      · obtain rfl := List.singleton_inj.mp h
        exact ⟨rfl, rfl⟩

/-- The prompt has a tab before it, and a blank and a carriage return behind it. -/
theorem run_evaluate_iff_converse_of_quarter :
    let prompt := "\tcalc '1/4' \r"
    IsPromptLine prompt ∧
      (run ["-p", "3", "eval", prompt] .empty).output = "0.250\n" ∧
      (run ["-p", "3"] (prompt ++ "\n").toUTF8).results = ["0.250"] := by
  intro prompt
  have hprompt : IsPromptLine prompt :=
    ⟨by decide +kernel, by decide +kernel, by decide +kernel, by decide +kernel⟩
  have hargs : invocation? ["-p", "3", "eval", prompt] = some ⟨3, .evaluate prompt⟩ := by
    decide +kernel
  have hargs' : invocation? ["-p", "3"] = some ⟨3, .converse⟩ := by decide +kernel
  obtain ⟨hline, -, -⟩ :=
    run_evaluate_iff_converse hprompt hargs hargs' (.inr rfl) .empty
  have hprinted : (run ["-p", "3", "eval", prompt] .empty).exit = 0 ∧
      (run ["-p", "3", "eval", prompt] .empty).output = "0.250" ++ "\n" := by
    decide +kernel
  exact ⟨hprompt, hprinted.2, (hline "0.250").mp hprinted⟩

/-- With too many places no result is shown, and the call does not exit with 1. -/
theorem exists_exit_apart_from_converse :
    ∃ prompt, IsPromptLine prompt ∧
      invocation? ["-p", "65536", "eval", prompt] = some ⟨65536, .evaluate prompt⟩ ∧
      invocation? ["-p", "65536"] = some ⟨65536, .converse⟩ ∧
      (run ["-p", "65536"] (prompt ++ "\n").toUTF8).results = [] ∧
      (run ["-p", "65536", "eval", prompt] .empty).exit = 101 :=
  ⟨"calc '1'", ⟨by decide +kernel, by decide +kernel, by decide +kernel, by decide +kernel⟩,
    by decide +kernel, by decide +kernel, by decide +kernel, by decide +kernel⟩

end CommandLine

end PromptCalc
