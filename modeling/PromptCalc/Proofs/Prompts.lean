import PromptCalc.Session
import PromptCalc.Proofs.Lexing
import PromptCalc.Proofs.ReadingSound
import Mathlib.Data.List.TakeWhile

/-!
# Prompts

The answer to a prompt is that to the equation inside its envelope, whatever was asked before: only
the last answer is taken over.
-/
namespace PromptCalc

/-- The tokens of the text are the word `calc` and, between quotes, the inner ones. -/
def Encloses (text : String) (inner : List Token) (closing : Token) : Prop :=
  ∃ command opening : Token, tokenize text = command :: opening :: (inner ++ [closing]) ∧
    command.kind = .command ∧ opening.kind = .quote ∧ closing.kind = .quote ∧
    ∀ t ∈ inner, t.kind ≠ .quote

namespace Envelope

theorem isQuote_iff {t : Token} : isQuote t = true ↔ t.kind = .quote := by
  simp [isQuote]

theorem cut_at_quote {closing : Token} {inner rest : List Token} (hclosing : closing.kind = .quote)
    (hinner : ∀ t ∈ inner, t.kind ≠ .quote) :
    (inner ++ closing :: rest).takeWhile (!isQuote ·) = inner ∧
      (inner ++ closing :: rest).dropWhile (!isQuote ·) = closing :: rest := by
  have hall : ∀ t ∈ inner, (!isQuote t) = true := fun t ht => by simp [isQuote, hinner t ht]
  have hquote : (!isQuote closing) = false := by simp [isQuote, hclosing]
  simp [List.takeWhile_append_of_pos hall, List.dropWhile_append_of_pos hall, hquote]

theorem afterOpening_eq_complete_iff (opening : Token) {closing : Token} {ts inner : List Token} :
    afterOpening opening ts = .complete inner closing ↔
      ts = inner ++ [closing] ∧ closing.kind = .quote ∧ ∀ t ∈ inner, t.kind ≠ .quote := by
  constructor
  · intro h
    have hcut := List.takeWhile_append_dropWhile (p := (!isQuote ·)) (l := ts)
    unfold afterOpening at h
    split at h
    · simp at h
    · next closing' hdrop =>
      simp only [complete.injEq] at h
      obtain ⟨rfl, rfl⟩ := h
      rw [hdrop] at hcut
      refine ⟨hcut.symm, ?_, fun t ht => ?_⟩
      · have hne : ts.dropWhile (!isQuote ·) ≠ [] := by simp [hdrop]
        have hhead := List.head_dropWhile_not (p := (!isQuote ·)) hne
        simpa [hdrop, isQuote_iff] using hhead
      · have := List.mem_takeWhile_imp ht
        simpa [isQuote] using this
    · simp at h
  · rintro ⟨rfl, hclosing, hinner⟩
    obtain ⟨htake, hdrop⟩ := @cut_at_quote _ _ [] hclosing hinner
    rw [afterOpening, htake, hdrop]

theorem ofTokens_eq_complete_iff {ts inner : List Token} {closing : Token} :
    ofTokens ts = .complete inner closing ↔
      ∃ command opening : Token, ts = command :: opening :: (inner ++ [closing]) ∧
        command.kind = .command ∧ opening.kind = .quote ∧ closing.kind = .quote ∧
        ∀ t ∈ inner, t.kind ≠ .quote := by
  constructor
  · intro h
    match ts with
    | [] => simp [ofTokens] at h
    | [command] =>
      simp only [ofTokens] at h
      split at h <;> simp at h
    | command :: opening :: rest =>
      simp only [ofTokens] at h
      split at h
      · simp at h
      · next hcommand =>
        split at h
        · next hopening =>
          obtain ⟨rfl, hclosing, hinner⟩ := (afterOpening_eq_complete_iff opening).mp h
          exact ⟨command, opening, rfl, Decidable.not_not.mp hcommand, isQuote_iff.mp hopening,
            hclosing, hinner⟩
        · simp at h
  · rintro ⟨command, opening, rfl, hcommand, hopening, hclosing, hinner⟩
    have := (afterOpening_eq_complete_iff opening).mpr ⟨rfl, hclosing, hinner⟩
    simp only [ofTokens, hcommand, isQuote_iff.mpr hopening, if_true, this]
    simp

end Envelope

theorem encloses_iff {text : String} {inner : List Token} {closing : Token} :
    Encloses text inner closing ↔ Envelope.ofTokens (tokenize text) = .complete inner closing :=
  Envelope.ofTokens_eq_complete_iff.symm

def prompt (equation : String) : String := "calc '" ++ equation ++ "'"

namespace Token

theorem isQuote_of_cut {c : Char} {cs : List Char} (h : (Lexeme.cut c cs).kind = .quote) :
    c = '\'' :=
  (Lexeme.cut_of_symbol (d := '\'') (by rw [h]; rfl)).1

theorem scan_prompt (cs : List Char) :
    scan 0 ('c' :: 'a' :: 'l' :: 'c' :: ' ' :: '\'' :: cs) =
      ⟨.command, "calc", 0, 4⟩ :: ⟨.quote, "'", 5, 1⟩ :: scan 6 cs := by
  have hword : Lexeme.cut 'c' ('a' :: 'l' :: 'c' :: ' ' :: '\'' :: cs) =
      ⟨.command, ['c', 'a', 'l', 'c'], ' ' :: '\'' :: cs⟩ := rfl
  rw [scan_cons rfl, hword, scan_blank rfl, scan_cons rfl]
  rfl

theorem kind_ne_quote_of_mem_scan {cs : List Char} (hcs : '\'' ∉ cs) {offset : Nat} {t : Token}
    (ht : t ∈ scan offset cs) : t.kind ≠ .quote := by
  induction cs using scan_induction generalizing offset with
  | nil => simp [scan_nil] at ht
  | blank c cs hc ih =>
    rw [scan_blank hc] at ht
    exact ih (fun h => hcs (List.mem_cons_of_mem _ h)) ht
  | token c cs hc ih =>
    rw [scan_cons hc, List.mem_cons] at ht
    rcases ht with rfl | ht
    · intro h
      exact hcs (isQuote_of_cut h ▸ List.mem_cons_self)
    · refine ih (fun h => hcs ?_) ht
      rw [← Lexeme.cut_lossless c cs]
      exact List.mem_append_right _ h

end Token

theorem encloses_prompt {equation : String} (h : '\'' ∉ equation.toList) :
    ∃ closing, Encloses (prompt equation) (Token.scan 6 equation.toList) closing := by
  have hchars : (prompt equation).toList =
      'c' :: 'a' :: 'l' :: 'c' :: ' ' :: '\'' :: (equation.toList ++ ['\'']) := by
    simp [prompt]
  have hclose : Token.scan (6 + byteSize equation.toList) ['\''] =
      [⟨.quote, "'", 6 + byteSize equation.toList, 1⟩] := by
    rw [Token.scan_cons rfl]
    exact congrArg _ (Token.scan_nil _)
  refine ⟨⟨.quote, "'", 6 + byteSize equation.toList, 1⟩, ⟨.command, "calc", 0, 4⟩,
    ⟨.quote, "'", 5, 1⟩, ?_, rfl, rfl, rfl, fun t ht => Token.kind_ne_quote_of_mem_scan h ht⟩
  rw [tokenize_eq_scan, hchars, Token.scan_prompt, Token.scan_append (.cons rfl rfl), hclose]

theorem encloses_prompt_ofList {cs : List Char} (h : '\'' ∉ cs) :
    ∃ closing, Encloses (prompt (String.ofList cs)) (Token.scan 6 cs) closing := by
  have hprompt := @encloses_prompt (String.ofList cs)
  rw [String.toList_ofList] at hprompt
  exact hprompt h

/-- What an equation is read with: the last answer, and the place of the closing quote. -/
def settingOf (answer : Float) (closing : Token) : Equation.Setting :=
  ⟨answer, .empty closing.span.start⟩

namespace Session

variable (s : Session) {text : String} {inner : List Token} {closing : Token}

/-- The session with the tokens of an equation, none of them read. -/
def loaded (s : Session) (text : String) (inner : List Token) (closing : Token) : Session :=
  ⟨(Lexer.ofText text).seek text.utf8ByteSize, .ofList inner, closing.span.start, 0, s.answer⟩

theorem readPrompt_of_encloses (h : Encloses text inner closing) :
    (s.input text).readPrompt =
      match Nesting.fault? inner with
      | some t => (.error ⟨.equation ⟨.unbalancedBrackets, t.span⟩, text⟩,
          s.loaded text inner closing)
      | none => (.ok (), s.loaded text inner closing) := by
  have henvelope : Envelope.ofTokens (s.input text).lexer.tokens = .complete inner closing :=
    encloses_iff.mp h
  have hloaded : (((s.input text).pass none).collect inner).closeAt closing =
      s.loaded text inner closing := rfl
  rw [readPrompt, henvelope]
  simp only [hloaded]
  rfl

theorem exists_complete_of_readPrompt {s s' : Session} {u : Unit} (h : s.readPrompt = (.ok u, s')) :
    ∃ inner closing, Envelope.ofTokens s.lexer.tokens = .complete inner closing ∧
      s' = ((s.pass none).collect inner).closeAt closing ∧
      Nesting.fault? s'.stream.tokens = none := by
  cases henvelope : Envelope.ofTokens s.lexer.tokens with
  | complete inner closing =>
    simp only [readPrompt, henvelope] at h
    split at h
    · simp [fail] at h
    · next hfault =>
      obtain rfl := (Prod.mk.inj h).2
      exact ⟨inner, closing, rfl, rfl, hfault⟩
  | _ => simp [readPrompt, henvelope, fail] at h

theorem readEquation_snd (power : Nat) : ∃ r, (s.readEquation power).2 = s.resume r := by
  unfold readEquation
  split
  · exact ⟨_, rfl⟩
  · exact ⟨_, rfl⟩

theorem exists_phrase_of_readEquation {s s' : Session} {power : Nat} {tree : Expr}
    (h : s.readEquation power = (.ok tree, s')) :
    ∃ p r, Equation.read s.setting power s.reader = (.ok p, r) ∧ p.tree = tree ∧
      s' = s.resume r := by
  unfold readEquation at h
  split at h
  · next p r hread =>
    obtain ⟨htree, hresume⟩ := Prod.mk.inj h
    exact ⟨p, r, hread, Except.ok.inj htree, hresume.symm⟩
  · cases h

theorem readWhole_snd : ∃ r, s.readWhole.2 = s.resume r := by
  obtain ⟨r, hr⟩ := s.readEquation_snd 0
  refine ⟨r, ?_⟩
  rcases hread : s.readEquation 0 with ⟨e | tree, s'⟩
  · simpa [readWhole, hread] using hr
  · rw [hread] at hr
    simp only [readWhole, hread]
    split <;> exact hr

/-- A parse leaves the session as its prompt was read, or goes on in the tokens collected. -/
theorem parse_snd (text : String) :
    (s.parse text).2 = (s.input text).readPrompt.2 ∨
      ∃ r, (s.parse text).2 = (s.input text).readPrompt.2.resume r := by
  unfold parse
  rcases (s.input text).readPrompt with ⟨e | u, s₁⟩
  · exact .inl rfl
  · exact .inr s₁.readWhole_snd

/-- An evaluation leaves the session as the parse did, apart from an answer that it gives. -/
theorem evaluate_cases (text : String) :
    (∃ e, (s.evaluate text).1 = .error e ∧ (s.evaluate text).2 = (s.parse text).2) ∨
      ∃ x, (s.evaluate text).1 = .ok x ∧
        (s.evaluate text).2 = { (s.parse text).2 with answer := x } := by
  unfold evaluate
  rcases s.parse text with ⟨e | tree, s₁⟩
  · exact .inl ⟨e, rfl, rfl⟩
  · cases hvalue : tree.evaluate with
    | error z => exact .inl ⟨⟨.zeroDivision z.span, s₁.lexer.text⟩, by simp [hvalue, fail]⟩
    | ok x => exact .inr ⟨x, by simp [hvalue]⟩

theorem readWhole_loaded (text : String) (inner : List Token) (closing : Token) :
    ((s.loaded text inner closing).readWhole).1 =
      match Equation.read (settingOf s.answer closing) 0 ⟨inner, 0⟩ with
      | (.error fault, _) => .error ⟨.equation fault, text⟩
      | (.ok p, r) =>
        match r.ahead with
        | [] => .ok p.tree
        | t :: _ => .error ⟨.equation ⟨.trailingToken, t.span⟩, text⟩ := by
  have hreader : (s.loaded text inner closing).reader = ⟨inner, 0⟩ := by
    simp [reader, loaded, TokenStream.ahead, TokenStream.ofList]
  have hsetting : (s.loaded text inner closing).setting = settingOf s.answer closing := rfl
  rw [readWhole, readEquation, hreader, hsetting]
  rcases hread : Equation.read (settingOf s.answer closing) 0 ⟨inner, 0⟩ with ⟨_ | p, r⟩
  · rfl
  · obtain ⟨_, d, hd, _⟩ := Equation.climb_sound _ _ _ _ _ _ hread
    have hpeek : ((s.loaded text inner closing).resume r).stream.peek? = r.ahead.head? :=
      TokenStream.peek?_withLeft (s := .ofList inner) hd.ahead
    dsimp only
    rw [hpeek]
    cases r.ahead <;> rfl

/-- The outcome of a prompt with an envelope is that of the tokens inside. -/
theorem parse_of_encloses (h : Encloses text inner closing) :
    (s.parse text).1 =
      match Nesting.fault? inner with
      | some t => .error ⟨.equation ⟨.unbalancedBrackets, t.span⟩, text⟩
      | none =>
        match Equation.read (settingOf s.answer closing) 0 ⟨inner, 0⟩ with
        | (.error fault, _) => .error ⟨.equation fault, text⟩
        | (.ok p, r) =>
          match r.ahead with
          | [] => .ok p.tree
          | t :: _ => .error ⟨.equation ⟨.trailingToken, t.span⟩, text⟩ := by
  rw [parse, s.readPrompt_of_encloses h]
  cases Nesting.fault? inner with
  | some t => rfl
  | none => exact s.readWhole_loaded text inner closing

theorem exists_encloses_of_parse {tree : Expr} (h : (s.parse text).1 = .ok tree) :
    ∃ inner closing, Encloses text inner closing := by
  rcases hprompt : (s.input text).readPrompt with ⟨_ | u, s'⟩
  · simp [parse, hprompt] at h
  · obtain ⟨inner, closing, henvelope, -⟩ := exists_complete_of_readPrompt hprompt
    exact ⟨inner, closing, encloses_iff.mpr henvelope⟩

end Session

end PromptCalc
