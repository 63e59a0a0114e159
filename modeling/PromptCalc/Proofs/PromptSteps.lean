import PromptCalc.Proofs.Leftovers
import PromptCalc.Proofs.Lossless
import PromptCalc.Proofs.Misreading
import PromptCalc.Proofs.ReadingExtent
import PromptCalc.Proofs.Verdicts

/-!
# Prompts token by token

A prompt can be read with one look at each of its tokens. A token is taken from the lexer only when
it is asked for, and what it leads to is settled by how much of the envelope has been seen before.
This comes to the same as sorting the tokens of the whole text.
-/
namespace PromptCalc

namespace Session

inductive Stage where
  | start
  | command (command : Token)
  | inside (opening : Token)
  | closed
  deriving DecidableEq, Repr

def checkNesting (s : Session) : Except Failure Unit :=
  match Nesting.fault? s.stream.tokens with
  | some t => s.fail (.equation ⟨.unbalancedBrackets, t.span⟩)
  | none => .ok ()

/-- The result that a token leads to, or the stage. -/
def receive (s : Session) (t : Token) : Stage → (Except Failure Unit ⊕ Stage) × Session
  | .start =>
    if t.kind = .command then (.inr (.command t), s) else (.inl (s.fail (.prompt t.span)), s)
  | .command command =>
    match t.kind with
    | .quote => (.inr (.inside t), s)
    | .eof => (.inl (s.fail (.prompt command.span)), s)
    | _ => (.inl (s.fail (.openingQuote t.span)), s)
  | .inside opening =>
    match t.kind with
    | .quote => (.inr .closed, s.closeAt t)
    | .eof => (.inl (s.fail (.closingQuote opening.span)), s)
    | _ => (.inr (.inside opening), s.collect [t])
  | .closed =>
    if t.kind = .eof then (.inl s.checkNesting, s)
    else (.inl (s.fail (.equation ⟨.trailingInput, t.span⟩)), s)

def step (s : Session) (stage : Stage) : (Except Failure Unit ⊕ Stage) × Session :=
  { s with lexer := s.lexer.next.2 }.receive s.lexer.next.1 stage

/-- Step by step, the session comes from the stage to the result and the session that it leaves. -/
inductive Concludes : Stage → Session → Except Failure Unit × Session → Prop where
  | now {stage : Stage} {s s' : Session} {result : Except Failure Unit} :
      s.step stage = (.inl result, s') → Concludes stage s (result, s')
  | later {stage stage' : Stage} {s s' : Session} {o : Except Failure Unit × Session} :
      s.step stage = (.inr stage', s') → Concludes stage' s' o → Concludes stage s o

variable {s s' : Session} {stage stage' : Stage} {t : Token} {ts : List Token}
  {o o' : Except Failure Unit × Session}

theorem Concludes.unique (h : Concludes stage s o) (h' : Concludes stage s o') : o = o' := by
  induction h with
  | now hstep =>
    cases h' with
    | now hstep' =>
      obtain ⟨hresult, rfl⟩ := Prod.mk.inj (hstep.symm.trans hstep')
      rw [Sum.inl.inj hresult]
    | later hstep' => simp [hstep] at hstep'
  | later hstep _ ih =>
    cases h' with
    | now hstep' => simp [hstep] at hstep'
    | later hstep' hrest =>
      obtain ⟨hstage, rfl⟩ := Prod.mk.inj (hstep.symm.trans hstep')
      exact ih (Sum.inr.inj hstage ▸ hrest)

section Steps

theorem step_of_cons (h : s.lexer.tokens = t :: ts) (stage : Stage) :
    s.step stage = (s.pass (some t)).receive t stage := by
  have hnext : s.lexer.next? = some t := by rw [Lexer.next?_eq_head?_tokens, h, List.head?_cons]
  rw [step, Lexer.next, hnext]
  rfl

theorem step_of_nil (h : s.lexer.tokens = []) (stage : Stage) :
    s.step stage = (s.pass none).receive s.lexer.eof stage := by
  have hnext : s.lexer.next? = none := by rw [Lexer.next?_eq_head?_tokens, h, List.head?_nil]
  rw [step, Lexer.next, hnext]
  rfl

theorem pass_pass (s : Session) (before found : Option Token) :
    (s.pass before).pass found = s.pass found := by
  cases before <;> cases found <;> rfl

theorem tokens_pass (hplaced : s.lexer.IsPlaced) (h : s.lexer.tokens = t :: ts) :
    (s.pass (some t)).lexer.IsPlaced ∧ (s.pass (some t)).lexer.tokens = ts := by
  have hnext : s.lexer.next? = some t := by rw [Lexer.next?_eq_head?_tokens, h, List.head?_cons]
  have hafter : s.lexer.next.2 = (s.pass (some t)).lexer := by rw [Lexer.next, hnext]; rfl
  have htail := hplaced.next
  rwa [hafter, h] at htail

theorem receive_noOpening (s : Session) (command : Token) (hquote : t.kind ≠ .quote)
    (heof : t.kind ≠ .eof) :
    s.receive t (.command command) = (.inl (s.fail (.openingQuote t.span)), s) := by
  cases hkind : t.kind <;> simp_all [receive]

theorem receive_inside (s : Session) (opening : Token) (hquote : t.kind ≠ .quote)
    (heof : t.kind ≠ .eof) :
    s.receive t (.inside opening) = (.inr (.inside opening), s.collect [t]) := by
  cases hkind : t.kind <;> simp_all [receive]

end Steps

section Runs

variable {command opening closing : Token} {inner rest : List Token}

theorem kind_ne_eof (h : s.lexer.tokens = t :: ts) : t.kind ≠ .eof := by
  have hmem : t ∈ s.lexer.tokens := h ▸ List.mem_cons_self
  exact Lexer.kind_ne_eof_of_mem hmem

theorem step_command (h : s.lexer.tokens = command :: ts) (hcommand : command.kind = .command) :
    s.step .start = (.inr (.command command), s.pass (some command)) := by
  rw [step_of_cons h, receive, if_pos hcommand]

theorem concludes_inside (opening : Token) (hplaced : s.lexer.IsPlaced)
    (htokens : s.lexer.tokens = inner ++ rest) (hinner : ∀ t ∈ inner, t.kind ≠ .quote) :
    ∃ s' : Session, s'.lexer.IsPlaced ∧ s'.lexer.tokens = rest ∧
      (∀ found, s'.pass found = (s.pass found).collect inner) ∧
      ∀ o, Concludes (.inside opening) s' o → Concludes (.inside opening) s o := by
  induction inner generalizing s with
  | nil =>
    have hkept (found : Option Token) : s.pass found = (s.pass found).collect [] := by
      simp [collect, TokenStream.append]
    exact ⟨s, hplaced, htokens, hkept, fun _ h => h⟩
  | cons t inner ih =>
    obtain ⟨hquote, hinner⟩ := List.forall_mem_cons.mp hinner
    have hstep : s.step (.inside opening) =
        (.inr (.inside opening), (s.pass (some t)).collect [t]) := by
      rw [step_of_cons htokens, receive_inside _ opening hquote (kind_ne_eof htokens)]
    obtain ⟨hplaced₁, htokens₁⟩ := tokens_pass hplaced htokens
    obtain ⟨s', hplaced', htokens', hpass, hrun⟩ :=
      @ih ((s.pass (some t)).collect [t]) hplaced₁ htokens₁ hinner
    -- Where the lexer stood on the way is lost as soon as it is taken on from there.
    refine ⟨s', hplaced', htokens', fun found => ?_, fun o h => .later hstep (hrun o h)⟩
    calc s'.pass found
        = (((s.pass (some t)).pass found).collect [t]).collect inner := hpass found
      _ = ((s.pass found).collect [t]).collect inner := by rw [pass_pass]
      _ = (s.pass found).collect (t :: inner) := by simp [collect, TokenStream.append]

theorem concludes_opened (hplaced : s.lexer.IsPlaced)
    (htokens : s.lexer.tokens = command :: opening :: (inner ++ rest))
    (hcommand : command.kind = .command) (hopening : opening.kind = .quote)
    (hinner : ∀ t ∈ inner, t.kind ≠ .quote) :
    ∃ s' : Session, s'.lexer.IsPlaced ∧ s'.lexer.tokens = rest ∧
      (∀ found, s'.pass found = (s.pass found).collect inner) ∧
      ∀ o, Concludes (.inside opening) s' o → Concludes .start s o := by
  obtain ⟨hplaced₁, htokens₁⟩ := tokens_pass hplaced htokens
  obtain ⟨hplaced₂, htokens₂⟩ := tokens_pass hplaced₁ htokens₁
  have hopen : (s.pass (some command)).step (.command command) =
      (.inr (.inside opening), (s.pass (some command)).pass (some opening)) := by
    rw [step_of_cons htokens₁]
    simp only [receive, hopening]
  obtain ⟨s', hplaced', htokens', hpass, hrun⟩ := concludes_inside opening hplaced₂ htokens₂ hinner
  refine ⟨s', hplaced', htokens', fun found => ?_,
    fun o h => .later (step_command htokens hcommand) (.later hopen (hrun o h))⟩
  rw [hpass, pass_pass, pass_pass]

theorem readPrompt_complete (h : Envelope.ofTokens s.lexer.tokens = .complete inner closing) :
    s.readPrompt = ((((s.pass none).collect inner).closeAt closing).checkNesting,
      ((s.pass none).collect inner).closeAt closing) := by
  rw [readPrompt, h]
  simp only [checkNesting]
  cases Nesting.fault? (((s.pass none).collect inner).closeAt closing).stream.tokens <;> rfl

theorem concludes_quoted (hplaced : s.lexer.IsPlaced)
    (h : Quoted s.lexer.tokens inner closing rest) : Concludes .start s s.readPrompt := by
  have henvelope := Envelope.ofTokens_of_quoted h
  obtain ⟨command, opening, htokens, hcommand, hopening, hclosing, hinner⟩ := h
  obtain ⟨s₁, hplaced₁, htokens₁, hpass, hrun⟩ :=
    concludes_opened hplaced htokens hcommand hopening hinner
  have hclose : s₁.step (.inside opening) =
      (.inr .closed, (s₁.pass (some closing)).closeAt closing) := by
    rw [step_of_cons htokens₁]
    simp only [receive, hclosing]
  have htokens₂ : ((s₁.pass (some closing)).closeAt closing).lexer.tokens = rest :=
    (tokens_pass hplaced₁ htokens₁).2
  -- Wherever the lexer is taken on to, the session is then the one that sorting the tokens gives.
  have hclosed (found : Option Token) : ((s₁.pass (some closing)).closeAt closing).pass found =
      ((s.pass found).collect inner).closeAt closing := by
    rw [← hpass, ← s₁.pass_pass (some closing)]
    rfl
  refine hrun _ (.later hclose ?_)
  cases rest with
  | nil =>
    rw [readPrompt_complete henvelope]
    refine .now ?_
    rw [step_of_nil htokens₂, hclosed]
    rfl
  | cons found rest =>
    rw [readPrompt, henvelope]
    refine .now ?_
    rw [step_of_cons htokens₂, hclosed, receive, if_neg (kind_ne_eof htokens₂)]
    rfl

theorem concludes_readPrompt (hplaced : s.lexer.IsPlaced) : Concludes .start s s.readPrompt := by
  obtain ⟨result, hverdict⟩ := exists_verdict s.lexer.text s.lexer.tokens
  generalize htokens : s.lexer.tokens = ts at hverdict
  cases hverdict with
  | empty =>
    rw [readPrompt, htokens]
    refine .now ?_
    rw [step_of_nil htokens]
    rfl
  | noCommand hfound =>
    rw [readPrompt, htokens, Envelope.ofTokens_noCommand hfound]
    refine .now ?_
    rw [step_of_cons htokens, receive, if_neg hfound]
    rfl
  | @commandAlone command hcommand =>
    have htokens₁ := (tokens_pass hplaced htokens).2
    rw [readPrompt, htokens, Envelope.ofTokens_alone hcommand]
    refine .later (step_command htokens hcommand) (.now ?_)
    rw [step_of_nil htokens₁, pass_pass]
    rfl
  | noOpening hcommand hfound =>
    have htokens₁ := (tokens_pass hplaced htokens).2
    rw [readPrompt, htokens, Envelope.ofTokens_noOpening hcommand hfound]
    refine .later (step_command htokens hcommand) (.now ?_)
    rw [step_of_cons htokens₁, pass_pass, receive_noOpening _ _ hfound (kind_ne_eof htokens₁)]
    rfl
  | @noClosing command opening ts hcommand hopening hnone =>
    have hall : s.lexer.tokens = command :: opening :: (ts ++ []) := by
      rw [htokens, List.append_nil]
    obtain ⟨s₁, -, htokens₁, hpass, hrun⟩ := concludes_opened hplaced hall hcommand hopening hnone
    rw [readPrompt, htokens, Envelope.ofTokens_noClosing hcommand hopening hnone]
    refine hrun _ (.now ?_)
    rw [step_of_nil htokens₁, hpass]
    rfl
  | trailing hquoted => exact concludes_quoted hplaced (htokens ▸ hquoted)
  | unbalanced hquoted => exact concludes_quoted hplaced (htokens ▸ hquoted)
  | balanced hquoted => exact concludes_quoted hplaced (htokens ▸ hquoted)

/-- From a place in the text, the tokens taken one by one come to one end, the one that sorting them
all comes to. -/
theorem concludes_iff (hplaced : s.lexer.IsPlaced) : Concludes .start s o ↔ s.readPrompt = o := by
  constructor
  · exact (concludes_readPrompt hplaced).unique
  · rintro rfl
    exact concludes_readPrompt hplaced

end Runs

section Later

variable {c : Call} {calls : List Call}

/-- The calls by which an equation is read in the tokens of a prompt. -/
def Stays (c : Call) : Prop := c.text? = none ∧ c ≠ .readPrompt

theorem call_stays (h : Stays c) :
    (s.call c).2.stream.tokens = s.stream.tokens ∧ (s.call c).2.close = s.close := by
  cases c with
  | input | parse | evaluate => cases h.1
  | readPrompt => exact absurd rfl h.2
  | readEquation power =>
    obtain ⟨r, hr⟩ := s.readEquation_snd power
    rw [call, responseOf_snd, hr]
    exact ⟨rfl, rfl⟩
  | tokens | clear => exact ⟨rfl, rfl⟩

theorem run_stays (h : ∀ c ∈ calls, Stays c) :
    (s.run calls).stream.tokens = s.stream.tokens ∧ (s.run calls).close = s.close := by
  induction calls generalizing s with
  | nil => exact ⟨rfl, rfl⟩
  | cons c calls ih =>
    obtain ⟨hc, hcalls⟩ := List.forall_mem_cons.mp h
    obtain ⟨htokens, hclose⟩ := call_stays (s := s) hc
    obtain ⟨htokens', hclose'⟩ := ih (s := (s.call c).2) hcalls
    exact ⟨htokens'.trans htokens, hclose'.trans hclose⟩

/-- A fault of an equation is at one of the tokens collected, or where their end is reported. -/
theorem span_of_readEquation {power : Nat} {e : EquationFault} {source : String}
    (h : (s.readEquation power).1 = .error ⟨.equation e, source⟩) :
    (e.span = .empty s.close ∨ ∃ t ∈ s.stream.tokens, e.span = t.span) ∧
      (e.reason = .missingOperand → e.span = .empty s.close) := by
  have hread : (Equation.read s.setting power s.reader).1 = .error e := by
    unfold readEquation at h
    split at h
    · cases h
    · next fault r hread =>
      rw [hread]
      cases h
      rfl
  have hconfined := Equation.read_confined s.setting power s.reader
  have hhalts : Equation.Halts s.setting ⟨.operand, []⟩ s.reader.ahead e :=
    Equation.climb_traced _ _ power _ _ _ hread
  refine ⟨(hconfined.fault e hread).imp_right ?_, hhalts.span_of_missingOperand⟩
  rintro ⟨t, ht, hspan⟩
  exact ⟨t, List.mem_of_mem_drop ht, hspan⟩

/-- The tokens of a text say what becomes of the prompt, whatever was done in the session before:
taken one by one they come to one end, with the result that is said of them. Behind two quotes the
session has the tokens between them, none of them read, and an equation that is read there and
misses a token fails at the second quote. -/
theorem readPrompt_input_verdict (s : Session) (text : String) :
    (∀ o, Concludes .start (s.input text) o ↔ (s.input text).readPrompt = o) ∧
    (∀ result, (s.input text).readPrompt.1 = result ↔ Verdict text (tokenize text) result) ∧
    ∀ inner closing rest, Quoted (tokenize text) inner closing rest →
      (s.input text).readPrompt.2.stream = ⟨inner, 0⟩ ∧
      (s.input text).readPrompt.2.close = closing.span.start ∧
      ∀ calls, (∀ c ∈ calls, Stays c) → ∀ power e source,
        (((s.input text).readPrompt.2.run calls).readEquation power).1 =
          .error ⟨.equation e, source⟩ →
        (e.span = .empty closing.span.start ∨ ∃ t ∈ inner, e.span = t.span) ∧
          (e.reason = .missingOperand → e.span = .empty closing.span.start) := by
  have hplaced : (s.input text).lexer.IsPlaced := Lexer.isPlaced_ofText text
  refine ⟨fun o => concludes_iff hplaced, fun result => readPrompt_eq_iff, ?_⟩
  intro inner closing rest hquoted
  obtain ⟨hstream, hclose⟩ := readPrompt_snd_of_quoted (s := s) hquoted
  refine ⟨hstream, hclose, fun calls hcalls power e source he => ?_⟩
  obtain ⟨htokens, hclose'⟩ := run_stays (s := (s.input text).readPrompt.2) hcalls
  have hspan := span_of_readEquation he
  rwa [htokens, hclose', hstream, hclose] at hspan

end Later

end Session

end PromptCalc
