import PromptCalc.Proofs.Consistency

/-!
# Safety

No call reads beyond its text or its tokens, leaves a phrase open or points outside of the text,
whatever calls were made before and however they ended.
-/
namespace PromptCalc

open Equation

/-- From the first lexer to the second, tokens are read one after the other, at most once past the
last of them. Wherever such a reading stands, the next token is cut out of the text. -/
structure Lexer.ReadsTo (l l' : Lexer) : Prop where
  steps : ∃ n ≤ l.tokens.length + 1, l' = l.skip n
  inside : ∀ n, (l.skip n).isBeyond = false
  cut : ∀ n t, (l.skip n).next? = some t → t.IsCutFrom l.text

theorem Lexer.IsPlaced.readsTo {l l' : Lexer} (h : l.IsPlaced)
    (hsteps : ∃ n ≤ l.tokens.length + 1, l' = l.skip n) : l.ReadsTo l' where
  steps := hsteps
  inside n := (h.skip n).isBeyond_eq_false
  cut _ _ := h.isCutFrom_of_next?

namespace Session

variable {s : Session} {c : Call}

/-- The lexer that a call starts from: one for the text it starts on, or that of the session. -/
def lexerFor (s : Session) (c : Call) : Lexer := (c.text?.map Lexer.ofText).getD s.lexer

theorem lexer_parse (s : Session) (text : String) :
    (s.parse text).2.lexer = (s.input text).readPrompt.2.lexer := by
  rcases s.parse_snd text with h | ⟨r, h⟩ <;> rw [h]
  rfl

theorem text_parse (s : Session) (text : String) : (s.parse text).2.lexer.text = text := by
  have hplaced : (s.input text).lexer.IsPlaced := Lexer.isPlaced_ofText text
  obtain ⟨n, -, hlexer⟩ := (readPrompt_advances hplaced).lexer
  rw [lexer_parse, hlexer, Lexer.text_skip]
  rfl

theorem lexer_evaluate (s : Session) (text : String) :
    (s.evaluate text).2.lexer = (s.parse text).2.lexer := by
  rcases s.evaluate_cases text with ⟨e, -, h⟩ | ⟨x, -, h⟩ <;> rw [h]

theorem exists_skip_call (h : s.lexer.IsPlaced) (c : Call) :
    ∃ n ≤ (s.lexerFor c).tokens.length + 1, (s.call c).2.lexer = (s.lexerFor c).skip n := by
  have hparse (text : String) : ∃ n ≤ (Lexer.ofText text).tokens.length + 1,
      (s.parse text).2.lexer = (Lexer.ofText text).skip n := by
    rw [lexer_parse]
    exact (readPrompt_advances (s := s.input text) (Lexer.isPlaced_ofText text)).lexer
  cases c with
  | readPrompt =>
    rw [call, responseOf_snd]
    exact (readPrompt_advances h).lexer
  | readEquation power =>
    obtain ⟨r, hr⟩ := s.readEquation_snd power
    rw [call, responseOf_snd, hr]
    exact ⟨0, Nat.zero_le _, rfl⟩
  | parse text =>
    rw [call, responseOf_snd]
    exact hparse text
  | evaluate text =>
    rw [call, responseOf_snd, lexer_evaluate]
    exact hparse text
  | input | tokens | clear => exact ⟨0, Nat.zero_le _, rfl⟩

theorem isPlaced_lexerFor (h : s.lexer.IsPlaced) (c : Call) : (s.lexerFor c).IsPlaced := by
  cases c with
  | input text | parse text | evaluate text => exact Lexer.isPlaced_ofText text
  | readPrompt | readEquation | tokens | clear => exact h

theorem text_call (h : s.lexer.IsPlaced) (c : Call) :
    (s.call c).2.lexer.text = c.text?.getD s.lexer.text := by
  obtain ⟨n, -, hn⟩ := exists_skip_call h c
  rw [hn, Lexer.text_skip]
  cases c <;> rfl

theorem ahead_resume {r : Reader} (h : r.ahead <:+ s.stream.ahead) :
    (s.resume r).stream.ahead = r.ahead := by
  obtain ⟨front, hfront⟩ := h.trans (List.drop_suffix ..)
  exact TokenStream.ahead_withLeft hfront.symm

theorem ahead_readEquation (s : Session) (power : Nat) :
    (s.readEquation power).2.stream.ahead <:+ s.stream.ahead := by
  obtain ⟨r, hr, -, hahead⟩ := s.exists_resume_readEquation power
  rw [hr, ahead_resume hahead]
  exact hahead

/-- A call that fails names the text it has read as its source, and points at a place in it. -/
theorem failure_lies_in_text (h : s.Reachable) {e : Failure} (hcall : (s.call c).1 = .failure e) :
    e.source = (s.call c).2.lexer.text ∧ e.source = c.text?.getD s.lexer.text ∧
      ∀ span ∈ e.fault.span?, span.start + span.size ≤ e.source.utf8ByteSize ∧
        span.LiesIn e.source := by
  obtain ⟨hsource, hspan⟩ := (call_sound h.consistent c).2 e hcall
  refine ⟨hsource, hsource.trans (text_call h.consistent.lexer c), fun span hmem => ?_⟩
  have hlies : span.LiesIn e.source := hsource ▸ hspan span hmem
  exact ⟨hlies.2.le, hlies⟩

/-- A character of two bytes in a bracket, collected by a call that broke off itself. -/
theorem failure_lies_in_text_of_collected :
    ∃ s c e, s = new.run [.input "calc '(é' x", .readPrompt] ∧ c = .readEquation 0 ∧
      (s.call c).1 = .failure e ∧ e.source = "calc '(é' x" ∧ e.fault.span? = some ⟨7, 2⟩ ∧
      (⟨7, 2⟩ : Span).LiesIn "calc '(é' x" := by
  have hcall : ((new.run [.input "calc '(é' x", .readPrompt]).call (.readEquation 0)).1 =
      .failure ⟨.equation ⟨.notANumber, ⟨7, 2⟩⟩, "calc '(é' x"⟩ := by with_unfolding_all rfl
  have hreachable : (new.run [.input "calc '(é' x", .readPrompt]).Reachable := ⟨new, _, .new, rfl⟩
  obtain ⟨-, -, hlies⟩ := failure_lies_in_text hreachable hcall
  exact ⟨_, _, _, rfl, rfl, hcall, rfl, rfl, (hlies _ rfl).2⟩

/-- Between its calls a session is consistent. A call reads tokens of its text one after the other
and goes on in those collected. No phrase is left open, however deep the one is that fails, and
phrases are read by a recursion that needs no bound but the greatest depth. -/
theorem consistent_of_reachable (h : s.Reachable) :
    s.Consistent ∧
    (∀ c, (s.call c).2.Consistent ∧ (s.lexerFor c).ReadsTo (s.call c).2.lexer) ∧
    (∀ power, (s.readEquation power).2.stream.ahead <:+ s.stream.ahead) ∧
    (∀ setting levels power r, (climb setting levels power r).2.ahead <:+ r.ahead ∧
      (climb setting levels power r).2.depth = r.depth ∧
      (phrase setting (climb setting levels) power r.enter).2.depth = r.depth + 1 ∧
      (maxDepth ≤ levels + r.depth → climb setting levels power r = read setting power r)) ∧
    ∀ setting power r, read setting power r =
      if maxDepth ≤ r.depth then failTooDeep setting r
      else
        match phrase setting (read setting) power r.enter with
        | (result, r) => (result, r.leave) := by
  have hlexer := h.consistent.lexer
  refine ⟨h.consistent, fun c => ⟨(call_sound h.consistent c).1, ?_⟩, s.ahead_readEquation, ?_,
    read_eq⟩
  · exact (isPlaced_lexerFor hlexer c).readsTo (exists_skip_call hlexer c)
  · intro setting levels power r
    have hsub := climb_confined setting levels
    exact ⟨(hsub power r).ahead, (hsub power r).depth, (phrase_confined hsub power r.enter).depth,
      fun hlevels => climb_eq_read hlevels power⟩

/-- A session in which a prompt broke off and then a phrase two levels deep was not read. -/
theorem consistent_after_failures :
    ∃ s, s = new.run [.input "calc '(é' x", .readPrompt, .readEquation 0] ∧ s.Consistent ∧
      s.lexer.byte = 12 ∧ s.stream.cursor = 2 ∧ s.close = 9 ∧ s.depth = 0 ∧
      s.stream.tokens = [⟨.opening .round, "(", ⟨6, 1⟩⟩, ⟨.unknown, "é", ⟨7, 2⟩⟩] ∧
      climb s.setting 100 0 s.reader = read s.setting 0 s.reader := by
  have hreachable : (new.run [.input "calc '(é' x", .readPrompt, .readEquation 0]).Reachable :=
    ⟨new, _, .new, rfl⟩
  obtain ⟨hconsistent, -, -, hread, -⟩ := consistent_of_reachable hreachable
  exact ⟨_, rfl, hconsistent, by with_unfolding_all rfl, by with_unfolding_all rfl,
    by with_unfolding_all rfl, by with_unfolding_all rfl, by with_unfolding_all rfl,
    (hread _ 100 0 _).2.2.2 (Nat.le_add_right 100 _)⟩

end Session

end PromptCalc
