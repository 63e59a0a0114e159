import PromptCalc.Proofs.Prompts

/-!
# Verdicts on prompts

What becomes of a prompt is seen from the kinds of its tokens: how much of the envelope is there,
and whether the brackets inside it are balanced.
-/
namespace PromptCalc

/-- The tokens are the word `calc`, the inner ones between two quotes, and the rest. -/
def Quoted (ts inner : List Token) (closing : Token) (rest : List Token) : Prop :=
  ∃ command opening : Token, ts = command :: opening :: (inner ++ closing :: rest) ∧
    command.kind = .command ∧ opening.kind = .quote ∧ closing.kind = .quote ∧
    ∀ t ∈ inner, t.kind ≠ .quote

/-- What is said of the prompt that the text with the given tokens is. -/
inductive Verdict (text : String) : List Token → Except Failure Unit → Prop where
  | empty : Verdict text [] (.error ⟨.prompt (.empty text.utf8ByteSize), text⟩)
  | noCommand {found : Token} {ts : List Token} : found.kind ≠ .command →
      Verdict text (found :: ts) (.error ⟨.prompt found.span, text⟩)
  | commandAlone {command : Token} : command.kind = .command →
      Verdict text [command] (.error ⟨.prompt command.span, text⟩)
  | noOpening {command found : Token} {ts : List Token} : command.kind = .command →
      found.kind ≠ .quote →
      Verdict text (command :: found :: ts) (.error ⟨.openingQuote found.span, text⟩)
  | noClosing {command opening : Token} {ts : List Token} : command.kind = .command →
      opening.kind = .quote → (∀ t ∈ ts, t.kind ≠ .quote) →
      Verdict text (command :: opening :: ts) (.error ⟨.closingQuote opening.span, text⟩)
  | trailing {ts inner rest : List Token} {closing found : Token} :
      Quoted ts inner closing (found :: rest) →
      Verdict text ts (.error ⟨.equation ⟨.trailingInput, found.span⟩, text⟩)
  | unbalanced {ts inner : List Token} {closing t : Token} : Quoted ts inner closing [] →
      Nesting.fault? inner = some t →
      Verdict text ts (.error ⟨.equation ⟨.unbalancedBrackets, t.span⟩, text⟩)
  | balanced {ts inner : List Token} {closing : Token} : Quoted ts inner closing [] →
      Nesting.fault? inner = none → Verdict text ts (.ok ())

theorem no_quote_or_exists_append (ts : List Token) :
    (∀ t ∈ ts, t.kind ≠ .quote) ∨
      ∃ inner closing rest, ts = inner ++ closing :: rest ∧ closing.kind = .quote ∧
        ∀ t ∈ inner, t.kind ≠ .quote := by
  induction ts with
  | nil => exact .inl (by simp)
  | cons t ts ih =>
    by_cases ht : t.kind = .quote
    · exact .inr ⟨[], t, ts, rfl, ht, by simp⟩
    · rcases ih with hnone | ⟨inner, closing, rest, rfl, hclosing, hinner⟩
      · exact .inl (List.forall_mem_cons.mpr ⟨ht, hnone⟩)
      · exact .inr ⟨t :: inner, closing, rest, rfl, hclosing, List.forall_mem_cons.mpr ⟨ht, hinner⟩⟩

theorem exists_verdict (text : String) (ts : List Token) : ∃ result, Verdict text ts result := by
  rcases ts with _ | ⟨command, ts⟩
  · exact ⟨_, .empty⟩
  · by_cases hcommand : command.kind = .command
    · rcases ts with _ | ⟨opening, ts⟩
      · exact ⟨_, .commandAlone hcommand⟩
      · by_cases hopening : opening.kind = .quote
        · rcases no_quote_or_exists_append ts with
            hnone | ⟨inner, closing, rest, rfl, hclosing, hinner⟩
          · exact ⟨_, .noClosing hcommand hopening hnone⟩
          · have hquoted :
                Quoted (command :: opening :: (inner ++ closing :: rest)) inner closing rest :=
              ⟨command, opening, rfl, hcommand, hopening, hclosing, hinner⟩
            cases rest with
            | cons found rest => exact ⟨_, .trailing hquoted⟩
            | nil =>
              cases hfault : Nesting.fault? inner with
              | some t => exact ⟨_, .unbalanced hquoted hfault⟩
              | none => exact ⟨_, .balanced hquoted hfault⟩
        · exact ⟨_, .noOpening hcommand hopening⟩
    · exact ⟨_, .noCommand hcommand⟩

namespace Envelope

variable {command opening found closing : Token} {ts inner rest : List Token}

theorem ofTokens_noCommand (h : found.kind ≠ .command) :
    ofTokens (found :: ts) = .noCommand (some found) :=
  if_pos h

theorem ofTokens_alone (h : command.kind = .command) : ofTokens [command] = .commandAlone command :=
  if_neg (not_not_intro h)

theorem ofTokens_noOpening (h : command.kind = .command) (hfound : found.kind ≠ .quote) :
    ofTokens (command :: found :: ts) = .noOpening found :=
  (if_neg (not_not_intro h)).trans (if_neg (mt isQuote_iff.mp hfound))

theorem ofTokens_opened (h : command.kind = .command) (hopening : opening.kind = .quote) :
    ofTokens (command :: opening :: ts) = afterOpening opening ts :=
  (if_neg (not_not_intro h)).trans (if_pos (isQuote_iff.mpr hopening))

theorem ofTokens_noClosing (h : command.kind = .command) (hopening : opening.kind = .quote)
    (hnone : ∀ t ∈ ts, t.kind ≠ .quote) :
    ofTokens (command :: opening :: ts) = .noClosing opening ts := by
  have hall : ∀ t ∈ ts, (!isQuote t) = true := fun t ht => by simp [isQuote, hnone t ht]
  have htake : ts.takeWhile (!isQuote ·) = ts := List.takeWhile_eq_self_iff.mpr hall
  have hdrop : ts.dropWhile (!isQuote ·) = [] := List.dropWhile_eq_nil_iff.mpr hall
  rw [ofTokens_opened h hopening, afterOpening, htake, hdrop]

theorem ofTokens_of_quoted (h : Quoted ts inner closing rest) :
    ofTokens ts =
      match rest with
      | [] => .complete inner closing
      | found :: _ => .trailing inner closing found := by
  obtain ⟨command, opening, rfl, hcommand, hopening, hclosing, hinner⟩ := h
  obtain ⟨htake, hdrop⟩ := @cut_at_quote _ _ rest hclosing hinner
  rw [ofTokens_opened hcommand hopening, afterOpening, htake, hdrop]
  cases rest <;> rfl

end Envelope

namespace Session

variable {s : Session} {text : String}

theorem readPrompt_snd_of_quoted {inner rest : List Token} {closing : Token}
    (h : Quoted (tokenize text) inner closing rest) :
    (s.input text).readPrompt.2.stream = .ofList inner ∧
      (s.input text).readPrompt.2.close = closing.span.start := by
  have henvelope : Envelope.ofTokens (s.input text).lexer.tokens = _ :=
    Envelope.ofTokens_of_quoted h
  unfold readPrompt
  rw [henvelope]
  cases rest with
  | cons found rest => exact ⟨rfl, rfl⟩
  | nil =>
    dsimp only
    split <;> exact ⟨rfl, rfl⟩

theorem readPrompt_of_verdict {result : Except Failure Unit}
    (h : Verdict text (tokenize text) result) : (s.input text).readPrompt.1 = result := by
  generalize hts : tokenize text = ts at h
  have htokens : (s.input text).lexer.tokens = ts := hts
  cases h with
  | empty =>
    simp only [readPrompt, htokens]
    rfl
  | noCommand hfound =>
    simp only [readPrompt, htokens, Envelope.ofTokens_noCommand hfound]
    rfl
  | commandAlone hcommand =>
    simp only [readPrompt, htokens, Envelope.ofTokens_alone hcommand]
    rfl
  | noOpening hcommand hfound =>
    simp only [readPrompt, htokens, Envelope.ofTokens_noOpening hcommand hfound]
    rfl
  | noClosing hcommand hopening hnone =>
    simp only [readPrompt, htokens, Envelope.ofTokens_noClosing hcommand hopening hnone]
    rfl
  | trailing hquoted =>
    simp only [readPrompt, htokens, Envelope.ofTokens_of_quoted hquoted]
    rfl
  | unbalanced hquoted hfault => rw [s.readPrompt_of_encloses (hts ▸ hquoted), hfault]
  | balanced hquoted hfault => rw [s.readPrompt_of_encloses (hts ▸ hquoted), hfault]

/-- The verdict on the tokens of a text is what the prompt comes to. -/
theorem readPrompt_eq_iff {result : Except Failure Unit} :
    (s.input text).readPrompt.1 = result ↔ Verdict text (tokenize text) result := by
  refine ⟨?_, readPrompt_of_verdict⟩
  rintro rfl
  obtain ⟨result, hresult⟩ := exists_verdict text (tokenize text)
  rwa [readPrompt_of_verdict hresult]

end Session

end PromptCalc
