import PromptCalc.Session
import PromptCalc.Proofs.Prompts
import PromptCalc.Proofs.TokenPlaces
import Mathlib.Data.List.Induction

/-!
# Tokens left over

A prompt breaks off where something follows its closing quote. Its tokens stay in the session then,
and the lexer stands behind the first token that follows. If the rest of the text is a prompt again,
it is read with the tokens left over in front of its own. Nothing else leaves tokens to a prompt.
-/
namespace PromptCalc

def Call.text? : Call → Option String
  | .input text | .parse text | .evaluate text => some text
  | _ => none

namespace Session

/-- Something follows the closing quote. -/
def BreaksOff {α : Type} (result : Except Failure α) : Prop :=
  ∃ span source, result = .error ⟨.equation ⟨.trailingInput, span⟩, source⟩

def Leaves (s : Session) (c : Call) : Prop :=
  (∃ span source, (s.call c).1 = .failure ⟨.equation ⟨.trailingInput, span⟩, source⟩) ∧
    (s.call c).2.stream.tokens ≠ []

/-- One of the calls has broken off and left tokens behind, and no text was started on since. -/
def HasLeftovers (start : Session) (calls : List Call) : Prop :=
  ∃ before c after, calls = before ++ c :: after ∧ (start.run before).Leaves c ∧
    ∀ d ∈ after, d.text? = none

/-- Nothing is left over, or no prompt is left to which it could be. -/
def Tidy (s : Session) : Prop := s.stream.tokens = [] ∨ s.lexer.tokens = []

variable {s start : Session} {c : Call} {calls : List Call}

theorem tokens_pass_none (s : Session) : (s.pass none).lexer.tokens = [] :=
  s.lexer.tokens_after_none

theorem BreaksOff.error {α β : Type} {e : Failure} (h : BreaksOff (.error e : Except Failure α)) :
    BreaksOff (.error e : Except Failure β) := by
  obtain ⟨span, source, h⟩ := h
  exact ⟨span, source, congrArg Except.error (Except.error.inj h)⟩

theorem not_breaksOff_ok {α : Type} (a : α) : ¬ BreaksOff (.ok a) := by
  rintro ⟨_, _, h⟩
  cases h

theorem readPrompt_tidy (h : s.Tidy) : BreaksOff s.readPrompt.1 ∨ s.readPrompt.2.Tidy := by
  rcases h with hstream | hlexer
  · cases henvelope : Envelope.ofTokens s.lexer.tokens with
    | trailing inner closing found =>
      exact .inl ⟨found.span, s.lexer.text, by simp only [readPrompt, henvelope, fail]⟩
    | noClosing opening inner =>
      refine .inr (.inr ?_)
      simp only [readPrompt, henvelope]
      exact s.tokens_pass_none
    | complete inner closing =>
      refine .inr (.inr ?_)
      simp only [readPrompt, henvelope]
      split <;> exact s.tokens_pass_none
    | _ =>
      refine .inr (.inl ?_)
      simp only [readPrompt, henvelope]
      exact hstream
  · refine .inr (.inr ?_)
    simp only [readPrompt, hlexer, Envelope.ofTokens]
    exact s.tokens_pass_none

theorem parse_tidy (s : Session) (text : String) :
    BreaksOff (s.parse text).1 ∨ (s.parse text).2.Tidy := by
  have hprompt : BreaksOff (s.input text).readPrompt.1 ∨ (s.input text).readPrompt.2.Tidy :=
    readPrompt_tidy (.inl rfl)
  rcases hread : (s.input text).readPrompt with ⟨e | u, s₁⟩ <;> rw [hread] at hprompt
  · simp only [parse, hread]
    exact hprompt.imp_left BreaksOff.error
  · simp only [parse, hread]
    obtain ⟨r, hr⟩ := s₁.readWhole_snd
    refine .inr ?_
    rw [hr]
    exact hprompt.resolve_left (not_breaksOff_ok u)

theorem evaluate_tidy (s : Session) (text : String) :
    BreaksOff (s.evaluate text).1 ∨ (s.evaluate text).2.Tidy := by
  have hparsed := s.parse_tidy text
  rcases hparse : s.parse text with ⟨e | tree, s₁⟩ <;> rw [hparse] at hparsed
  · simp only [evaluate, hparse]
    exact hparsed.imp_left BreaksOff.error
  · have htidy : s₁.Tidy := hparsed.resolve_left (not_breaksOff_ok tree)
    simp only [evaluate, hparse]
    split <;> exact .inr htidy

theorem responseOf_snd {α : Type} (ok : α → Response) (result : Except Failure α × Session) :
    (responseOf ok result).2 = result.2 := by
  rcases result with ⟨_ | _, s⟩ <;> rfl

theorem leaves_or_tidy {α : Type} {ok : α → Response} {result : Except Failure α × Session}
    (hcall : s.call c = responseOf ok result) (h : BreaksOff result.1 ∨ result.2.Tidy) :
    s.Leaves c ∨ (s.call c).2.Tidy := by
  rw [Leaves, hcall, responseOf_snd]
  by_cases hempty : result.2.stream.tokens = []
  · exact .inr (.inl hempty)
  · obtain ⟨answer, s'⟩ := result
    refine h.imp_left ?_
    rintro ⟨span, source, rfl⟩
    exact ⟨⟨span, source, rfl⟩, hempty⟩

/-- A call that starts on a text, or on a session with nothing left over, breaks off or leaves
nothing over. -/
theorem call_tidy (h : s.Tidy ∨ c.text? ≠ none) : s.Leaves c ∨ (s.call c).2.Tidy := by
  cases c with
  | input text => exact .inr (.inl rfl)
  | parse text => exact leaves_or_tidy rfl (s.parse_tidy text)
  | evaluate text => exact leaves_or_tidy rfl (s.evaluate_tidy text)
  | readPrompt =>
    have htidy : s.Tidy := h.resolve_right fun hne => hne rfl
    exact leaves_or_tidy rfl (readPrompt_tidy htidy)
  | readEquation power =>
    have htidy : s.Tidy := h.resolve_right fun hne => hne rfl
    obtain ⟨r, hr⟩ := s.readEquation_snd power
    exact leaves_or_tidy rfl (.inr (hr ▸ htidy))
  | tokens => exact .inr (h.resolve_right fun hne => hne rfl)
  | clear => exact .inr (h.resolve_right fun hne => hne rfl)

theorem readPrompt_prefix (s : Session) : s.stream.tokens <+: s.readPrompt.2.stream.tokens := by
  unfold readPrompt
  split
  · exact List.prefix_rfl
  · exact List.prefix_rfl
  · exact List.prefix_rfl
  · exact List.prefix_append ..
  · exact List.prefix_append ..
  · dsimp only
    split <;> exact List.prefix_append ..

theorem call_prefix (h : c.text? = none) : s.stream.tokens <+: (s.call c).2.stream.tokens := by
  cases c with
  | input | parse | evaluate => cases h
  | readPrompt =>
    rw [call, responseOf_snd]
    exact s.readPrompt_prefix
  | readEquation power =>
    obtain ⟨r, hr⟩ := s.readEquation_snd power
    rw [call, responseOf_snd, hr]
    exact List.prefix_rfl
  | tokens => exact List.prefix_rfl
  | clear => exact List.prefix_rfl

theorem run_prefix (h : ∀ d ∈ calls, d.text? = none) :
    s.stream.tokens <+: (s.run calls).stream.tokens := by
  induction calls generalizing s with
  | nil => exact List.prefix_rfl
  | cons c calls ih =>
    have hfirst := call_prefix (s := s) (h c List.mem_cons_self)
    exact hfirst.trans (ih fun d hd => h d (List.mem_cons_of_mem _ hd))

theorem HasLeftovers.tokens_ne_nil (h : HasLeftovers start calls) :
    (start.run calls).stream.tokens ≠ [] := by
  obtain ⟨before, c, after, rfl, hleaves, hafter⟩ := h
  rw [run_append]
  intro hempty
  have hkept := run_prefix (s := ((start.run before).call c).2) hafter
  exact hleaves.2 (List.prefix_nil.mp (hempty ▸ hkept))

theorem not_hasLeftovers_input (calls : List Call) (text : String) :
    ¬ HasLeftovers start (calls ++ [.input text]) := by
  intro h
  refine h.tokens_ne_nil ?_
  rw [run_append]
  rfl

theorem HasLeftovers.snoc (h : HasLeftovers start calls) (htext : c.text? = none) :
    HasLeftovers start (calls ++ [c]) := by
  obtain ⟨before, b, after, rfl, hleaves, hafter⟩ := h
  refine ⟨before, b, after ++ [c], by simp, hleaves, fun d hd => ?_⟩
  rcases List.mem_append.mp hd with hd | hd
  · exact hafter d hd
  · exact List.mem_singleton.mp hd ▸ htext

theorem hasLeftovers_or_tidy (hstart : start.Tidy) (calls : List Call) :
    HasLeftovers start calls ∨ (start.run calls).Tidy := by
  induction calls using List.reverseRecOn with
  | nil => exact .inr hstart
  | append_singleton calls c ih =>
    have hstep (h : (start.run calls).Tidy ∨ c.text? ≠ none) :
        HasLeftovers start (calls ++ [c]) ∨ (start.run (calls ++ [c])).Tidy := by
      rw [run_append]
      refine (call_tidy h).imp_left fun hleaves => ?_
      exact ⟨calls, c, [], rfl, hleaves, by simp⟩
    -- What is left over stays until a call starts on a text.
    rcases ih with hleft | htidy
    · by_cases htext : c.text? = none
      · exact .inl (hleft.snoc htext)
      · exact hstep (.inr htext)
    · exact hstep (.inl htidy)

theorem Initial.tidy (h : Initial start) : start.Tidy := by
  cases h <;> exact .inl rfl

/-- A prompt that is read has its tokens collected behind those of the session. They are all there
is, and balanced by themselves, unless tokens were left over. -/
theorem readPrompt_tokens_iff {s' : Session} (hstart : Initial start)
    (h : (start.run calls).readPrompt = (.ok (), s')) :
    ∃ (command opening closing : Token) (inner : List Token),
      (start.run calls).lexer.tokens = command :: opening :: (inner ++ [closing]) ∧
      command.kind = .command ∧ opening.kind = .quote ∧ closing.kind = .quote ∧
      (∀ t ∈ inner, t.kind ≠ .quote) ∧
      s'.stream.tokens = (start.run calls).stream.tokens ++ inner ∧
      (s'.stream.tokens = inner ∧ Nesting.fault? inner = none ↔ ¬ HasLeftovers start calls) := by
  obtain ⟨inner, closing, henvelope, rfl, hfault⟩ := exists_complete_of_readPrompt h
  obtain ⟨command, opening, htokens, hcommand, hopening, hclosing, hinner⟩ :=
    Envelope.ofTokens_eq_complete_iff.mp henvelope
  refine ⟨command, opening, closing, inner, htokens, hcommand, hopening, hclosing, hinner, rfl, ?_⟩
  change (start.run calls).stream.tokens ++ inner = inner ∧ _ ↔ _
  rw [List.append_left_eq_self]
  constructor
  · rintro ⟨hempty, -⟩ hleft
    exact hleft.tokens_ne_nil hempty
  · intro hnone
    have htidy := (hasLeftovers_or_tidy hstart.tidy calls).resolve_left hnone
    have hempty : (start.run calls).stream.tokens = [] :=
      htidy.resolve_right fun hlexer => by simp [htokens] at hlexer
    refine ⟨hempty, ?_⟩
    change Nesting.fault? ((start.run calls).stream.tokens ++ inner) = none at hfault
    rwa [hempty, List.nil_append] at hfault

/-- A new text after a prompt that broke off. -/
theorem readPrompt_tokens_of_input :
    ∃ (s' : Session) (command opening closing : Token) (inner : List Token),
      (new.run [.input "calc '1' 2", .readPrompt, .input "calc '3'"]).readPrompt = (.ok (), s') ∧
      (new.run [.input "calc '1' 2", .readPrompt, .input "calc '3'"]).lexer.tokens =
        command :: opening :: (inner ++ [closing]) ∧
      s'.stream.tokens = inner ∧ Nesting.fault? inner = none := by
  have hread : (new.run [.input "calc '1' 2", .readPrompt, .input "calc '3'"]).readPrompt =
      (.ok (), (new.input "calc '3'").readPrompt.2) := by with_unfolding_all rfl
  obtain ⟨command, opening, closing, inner, htokens, -, -, -, -, -, hown⟩ :=
    readPrompt_tokens_iff .new hread
  exact ⟨_, command, opening, closing, inner, hread, htokens,
    hown.mpr (not_hasLeftovers_input [_, _] _)⟩

/-- Two prompts in one text: the tokens of the first are still there when the second is read, and a
bracket of the one may be closed in the other. -/
theorem exists_readPrompt_leftovers :
    (∃ s', (new.run [.input "calc '1' x calc '2'", .readPrompt]).readPrompt = (.ok (), s') ∧
      (new.run [.input "calc '1' x calc '2'", .readPrompt]).lexer.tokens =
        [⟨.command, "calc", ⟨11, 4⟩⟩, ⟨.quote, "'", ⟨16, 1⟩⟩, ⟨.int, "2", ⟨17, 1⟩⟩,
          ⟨.quote, "'", ⟨18, 1⟩⟩] ∧
      s'.stream.tokens = [⟨.int, "1", ⟨6, 1⟩⟩, ⟨.int, "2", ⟨17, 1⟩⟩]) ∧
    ∃ s', (new.run [.input "calc '(1' x calc '2)'", .readPrompt]).readPrompt = (.ok (), s') ∧
      (new.run [.input "calc '(1' x calc '2)'", .readPrompt]).lexer.tokens =
        [⟨.command, "calc", ⟨12, 4⟩⟩, ⟨.quote, "'", ⟨17, 1⟩⟩, ⟨.int, "2", ⟨18, 1⟩⟩,
          ⟨.closing .round, ")", ⟨19, 1⟩⟩, ⟨.quote, "'", ⟨20, 1⟩⟩] ∧
      Nesting.fault? [⟨.int, "2", ⟨18, 1⟩⟩, ⟨.closing .round, ")", ⟨19, 1⟩⟩] ≠ none :=
  ⟨⟨_, by with_unfolding_all rfl, by with_unfolding_all rfl, by with_unfolding_all rfl⟩,
    ⟨_, by with_unfolding_all rfl, by with_unfolding_all rfl, by decide⟩⟩

end Session

end PromptCalc
