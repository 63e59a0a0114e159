import PromptCalc.Proofs.Consistency
import PromptCalc.Proofs.Parsing
import Mathlib.Data.List.Basic


/-!
# The register

The last answer is what the last evaluation gave that succeeded, unless it was cleared since.
Nothing else changes it, and the trees that are read hold it where the equation says `ans`. A call
that starts on a text takes over nothing else from the calls before it. So sessions with the same
last answer, however they came to it, answer every prompt alike.
-/
namespace PromptCalc.Session

def Answers (s : Session) (c : Call) (x : Float) : Prop :=
  ∃ text, c = .evaluate text ∧ (s.evaluate text).1 = .ok x

/-- One of the calls has answered with the number. None after it has answered or cleared the
answer. -/
def LastAnswered (start : Session) (calls : List Call) (x : Float) : Prop :=
  ∃ before c after, calls = before ++ c :: after ∧ (start.run before).Answers c x ∧
    ∀ between d rest, after = between ++ d :: rest →
      d ≠ .clear ∧ ∀ y, ¬ (start.run (before ++ c :: between)).Answers d y

section Steps

variable {s : Session} {c : Call}

theorem answer_readPrompt (s : Session) : s.readPrompt.2.answer = s.answer := by
  unfold readPrompt
  split
  · rfl
  · rfl
  · rfl
  · rfl
  · rfl
  · dsimp only
    split <;> rfl

theorem answer_parse (s : Session) (text : String) : (s.parse text).2.answer = s.answer := by
  have hprompt := (s.input text).answer_readPrompt
  rcases s.parse_snd text with h | ⟨r, h⟩
  · rw [h]
    exact hprompt
  · rw [h]
    exact hprompt

theorem answer_of_answers {x : Float} (h : s.Answers c x) : (s.call c).2.answer = x := by
  obtain ⟨text, rfl, hx⟩ := h
  rw [call, responseOf_snd]
  rcases s.evaluate_cases text with ⟨e, he, -⟩ | ⟨y, hy, hsession⟩
  · cases he.symm.trans hx
  · rw [hsession]
    exact Except.ok.inj (hy.symm.trans hx)

theorem answer_of_not_answers (hclear : c ≠ .clear) (h : ∀ x, ¬ s.Answers c x) :
    (s.call c).2.answer = s.answer := by
  cases c with
  | input | tokens => rfl
  | clear => exact absurd rfl hclear
  | readPrompt =>
    rw [call, responseOf_snd]
    exact s.answer_readPrompt
  | readEquation power =>
    obtain ⟨r, hr⟩ := s.readEquation_snd power
    rw [call, responseOf_snd, hr]
    rfl
  | parse text =>
    rw [call, responseOf_snd]
    exact s.answer_parse text
  | evaluate text =>
    rw [call, responseOf_snd]
    rcases s.evaluate_cases text with ⟨e, -, hsession⟩ | ⟨x, hx, -⟩
    · rw [hsession]
      exact s.answer_parse text
    · exact absurd ⟨text, rfl, hx⟩ (h x)

theorem answer_of_failure {e : Failure} (h : (s.call c).1 = .failure e) :
    (s.call c).2.answer = s.answer := by
  refine answer_of_not_answers ?_ fun x hx => ?_
  · rintro rfl
    cases h
  · obtain ⟨text, rfl, hx⟩ := hx
    rcases hevaluate : s.evaluate text with ⟨e' | y, s'⟩ <;> rw [hevaluate] at hx
    · cases hx
    · simp only [call, hevaluate, responseOf] at h
      cases h

theorem eq_answer_of_mem_leaves {tree : Expr} (h : (s.call c).1 = .tree tree) {x : Float}
    {t : Token} (hleaf : (x, some t) ∈ tree.leaves) (ht : t.kind = .answer) : x = s.answer := by
  have hequation {s₁ s' : Session} {power : Nat} (hanswer : s₁.answer = s.answer)
      (hread : s₁.readEquation power = (.ok tree, s')) : x = s.answer := by
    obtain ⟨c, d, -, rfl⟩ := exists_derivation_of_readEquation hread
    exact (d.eq_answer_of_mem_leaves hleaf ht).trans hanswer
  cases c with
  | readEquation power =>
    rcases hread : s.readEquation power with ⟨e | tree', s'⟩ <;> rw [call, hread] at h
    · cases h
    · obtain rfl := Response.tree.inj h
      exact hequation rfl hread
  | parse text =>
    rcases hparse : s.parse text with ⟨e | tree', s'⟩ <;> rw [call, hparse] at h
    · cases h
    · obtain rfl := Response.tree.inj h
      obtain ⟨s₁, hprompt, hread⟩ := exists_readEquation_of_parse hparse
      refine hequation ?_ hread
      have hanswer := (s.input text).answer_readPrompt
      rwa [hprompt] at hanswer
  | evaluate text =>
    rcases hevaluate : s.evaluate text with ⟨e | y, s'⟩ <;> rw [call, hevaluate] at h <;> cases h
  | readPrompt =>
    rcases hprompt : s.readPrompt with ⟨e | u, s'⟩ <;> rw [call, hprompt] at h <;> cases h
  | input | tokens | clear => cases h

end Steps

section Runs

variable {start : Session} {calls : List Call} {c : Call} {x : Float}

theorem not_lastAnswered_nil : ¬ LastAnswered start [] x := by
  rintro ⟨before, c, after, h, -⟩
  simp at h

/-- After one more call, the number is that of the call, or the call has left it as it was. -/
theorem lastAnswered_snoc_iff :
    LastAnswered start (calls ++ [c]) x ↔
      (start.run calls).Answers c x ∨
        (c ≠ .clear ∧ ∀ y, ¬ (start.run calls).Answers c y) ∧ LastAnswered start calls x := by
  constructor
  · rintro ⟨before, d, after, hcalls, hd, hafter⟩
    rcases List.eq_nil_or_concat' after with rfl | ⟨after, e, rfl⟩
    · obtain ⟨rfl, hlast⟩ := List.append_inj' hcalls rfl
      obtain rfl := (List.cons.inj hlast).1
      exact .inl hd
    · have hsplit : calls ++ [c] = (before ++ d :: after) ++ [e] := by simpa using hcalls
      obtain ⟨rfl, hlast⟩ := List.append_inj' hsplit rfl
      obtain rfl := (List.cons.inj hlast).1
      refine .inr ⟨hafter after c [] rfl, before, d, after, rfl, hd, fun between f rest hrest => ?_⟩
      exact hafter between f (rest ++ [c]) (by rw [hrest]; simp)
  · rintro (hc | ⟨hc, before, d, after, rfl, hd, hafter⟩)
    · exact ⟨calls, c, [], rfl, hc, fun between d rest h => by simp at h⟩
    · refine ⟨before, d, after ++ [c], by simp, hd, fun between f rest hrest => ?_⟩
      rcases List.eq_nil_or_concat' rest with rfl | ⟨rest, g, rfl⟩
      · obtain ⟨rfl, hlast⟩ := List.append_inj' hrest rfl
        obtain rfl := (List.cons.inj hlast).1
        exact hc
      · have hsplit : after ++ [c] = (between ++ f :: rest) ++ [g] := by simpa using hrest
        exact hafter between f rest (List.append_inj' hsplit rfl).1

theorem answer_run_of_lastAnswered (h : LastAnswered start calls x) :
    (start.run calls).answer = x := by
  induction calls using List.reverseRecOn with
  | nil => exact absurd h not_lastAnswered_nil
  | append_singleton calls c ih =>
    rw [run_append]
    rcases lastAnswered_snoc_iff.mp h with hc | ⟨⟨hclear, hc⟩, hbefore⟩
    · exact answer_of_answers hc
    · exact (answer_of_not_answers hclear hc).trans (ih hbefore)

theorem Initial.answer_eq_zero (h : Initial start) : start.answer = 0 := by
  cases h <;> rfl

theorem answer_run_of_not_lastAnswered (hstart : Initial start)
    (h : ∀ x, ¬ LastAnswered start calls x) : (start.run calls).answer = 0 := by
  induction calls using List.reverseRecOn with
  | nil => exact hstart.answer_eq_zero
  | append_singleton calls c ih =>
    rw [run_append]
    by_cases hclear : c = .clear
    · subst hclear
      rfl
    · have hc : ∀ y, ¬ (start.run calls).Answers c y := fun y hy =>
        h y (lastAnswered_snoc_iff.mpr (.inl hy))
      have hbefore : ∀ x, ¬ LastAnswered start calls x := fun x hx =>
        h x (lastAnswered_snoc_iff.mpr (.inr ⟨⟨hclear, hc⟩, hx⟩))
      exact (answer_of_not_answers hclear hc).trans (ih hbefore)

/-- After any calls the last answer is that of the last evaluation that succeeded and was not
cleared since, or zero if there is none. A call that fails leaves it, and trees hold it for
`ans`. -/
theorem answer_run_eq_iff (hstart : Initial start) (calls : List Call) :
    (∀ x, (start.run calls).answer = x ↔
      LastAnswered start calls x ∨ (∀ y, ¬ LastAnswered start calls y) ∧ x = 0) ∧
    ∀ c, (∀ e, ((start.run calls).call c).1 = .failure e →
        ((start.run calls).call c).2.answer = (start.run calls).answer) ∧
      ∀ tree, ((start.run calls).call c).1 = .tree tree → ∀ x t, (x, some t) ∈ tree.leaves →
        t.kind = .answer → x = (start.run calls).answer := by
  refine ⟨fun x => ⟨?_, ?_⟩, fun c => ⟨fun e => answer_of_failure, fun tree h x t =>
    eq_answer_of_mem_leaves h⟩⟩
  · rintro rfl
    by_cases hany : ∃ y, LastAnswered start calls y
    · obtain ⟨y, hy⟩ := hany
      exact .inl (answer_run_of_lastAnswered hy ▸ hy)
    · have hnone := not_exists.mp hany
      exact .inr ⟨hnone, answer_run_of_not_lastAnswered hstart hnone⟩
  · rintro (hlast | ⟨hnone, rfl⟩)
    · exact answer_run_of_lastAnswered hlast
    · exact answer_run_of_not_lastAnswered hstart hnone

theorem exists_call_parse_answer (s : Session) :
    ∃ t : Token, t.kind = .answer ∧
      (s.call (.parse "calc 'ans'")).1 = .tree (.value s.answer (some t)) := by
  let t : Token := ⟨.answer, "ans", ⟨6, 3⟩⟩
  let d : Derivation .sum :=
    .widen .product (.widen .sign (.widen .chain (.widen .atom (.answer t rfl))))
  have hencloses : Encloses "calc 'ans'" d.tokens ⟨.quote, "'", ⟨9, 1⟩⟩ :=
    ⟨⟨.command, "calc", ⟨0, 4⟩⟩, ⟨.quote, "'", ⟨5, 1⟩⟩, by with_unfolding_all rfl, rfl, rfl, rfl,
      by decide⟩
  have hparse : (s.parse "calc 'ans'").1 = .ok (.value s.answer (some t)) :=
    (parse_derivation hencloses).1 ⟨by decide, trivial⟩
  refine ⟨t, rfl, ?_⟩
  rcases hresult : s.parse "calc 'ans'" with ⟨result, s'⟩
  rw [hresult] at hparse
  subst hparse
  rw [call, hresult]
  rfl

/-- A quarter is still the last answer after other calls, one that fails included, and is read for
`ans`. -/
theorem answer_run_of_quarter :
    ∃ (s : Session) (x y : Float) (tree : Expr) (t : Token) (e : Failure),
      s = new.run [.evaluate "calc '1/4'", .input "calc '2'", .readPrompt] ∧ x ≠ 0 ∧
      LastAnswered new [.evaluate "calc '1/4'", .input "calc '2'", .readPrompt] x ∧
      (s.call (.evaluate "calc 'ans/0'")).1 = .failure e ∧
      (s.call (.evaluate "calc 'ans/0'")).2.answer = x ∧
      (s.call (.parse "calc 'ans'")).1 = .tree tree ∧ (y, some t) ∈ tree.leaves ∧
      t.kind = .answer ∧ y = x := by
  let calls : List Call := [.evaluate "calc '1/4'", .input "calc '2'", .readPrompt]
  obtain ⟨hlast, hcalls⟩ := answer_run_eq_iff .new calls
  have hbits : (new.run calls).answer.toBits ≠ (0 : Float).toBits := by decide +kernel
  have hne : (new.run calls).answer ≠ 0 := fun h => hbits (congrArg Float.toBits h)
  have hanswered : LastAnswered new calls (new.run calls).answer :=
    ((hlast _).mp rfl).resolve_right fun hnone => hne hnone.2
  have hok : ((new.run calls).evaluate "calc 'ans/0'").1.isOk = false := by decide +kernel
  obtain ⟨t, ht, htree⟩ := exists_call_parse_answer (new.run calls)
  rcases hevaluate : (new.run calls).evaluate "calc 'ans/0'" with ⟨e | y, s'⟩
  · have hfailure : ((new.run calls).call (.evaluate "calc 'ans/0'")).1 = .failure e := by
      rw [call, hevaluate]
      rfl
    have hkept := (hcalls (.evaluate "calc 'ans/0'")).1 e hfailure
    have hleaf := (hcalls (.parse "calc 'ans'")).2 _ htree _ t List.mem_cons_self ht
    exact ⟨_, _, _, _, t, e, rfl, hne, hanswered, hfailure, hkept, htree, List.mem_cons_self, ht,
      hleaf⟩
  · rw [hevaluate] at hok
    cases hok

end Runs

def responses (s : Session) : List Call → List Response
  | [] => []
  | c :: calls => (s.call c).1 :: (s.call c).2.responses calls

def StartOnText (calls : List Call) : Prop := ∀ c ∈ calls.head?, c.text? ≠ none

variable {s s' : Session} {c : Call} {calls : List Call}

theorem input_congr (h : s.answer = s'.answer) (text : String) : s.input text = s'.input text := by
  rw [input, input, h]

theorem parse_congr (h : s.answer = s'.answer) (text : String) : s.parse text = s'.parse text := by
  rw [parse, parse, input_congr h]

theorem evaluate_congr (h : s.answer = s'.answer) (text : String) :
    s.evaluate text = s'.evaluate text := by
  rw [evaluate, evaluate, parse_congr h]

theorem call_congr (h : s.answer = s'.answer) (htext : c.text? ≠ none) : s.call c = s'.call c := by
  cases c with
  | input text => rw [call, call, input_congr h]
  | parse text => rw [call, call, parse_congr h]
  | evaluate text => rw [call, call, evaluate_congr h]
  | readPrompt | readEquation | tokens | clear => exact absurd rfl htext

theorem responses_congr (h : s.answer = s'.answer) (hcalls : StartOnText calls) :
    s.responses calls = s'.responses calls ∧ (calls ≠ [] → s.run calls = s'.run calls) := by
  cases calls with
  | nil => exact ⟨rfl, fun hne => absurd rfl hne⟩
  | cons c calls =>
    have hfirst : s.call c = s'.call c := call_congr h (hcalls c rfl)
    refine ⟨?_, fun _ => ?_⟩
    · rw [responses, responses, hfirst]
    · rw [run, run, List.foldl_cons, List.foldl_cons, hfirst]

theorem answer_eq_of_responses
    (h : s.responses [.parse "calc 'ans'"] = s'.responses [.parse "calc 'ans'"]) :
    s.answer = s'.answer := by
  obtain ⟨t, -, ht⟩ := exists_call_parse_answer s
  obtain ⟨u, -, hu⟩ := exists_call_parse_answer s'
  have hfirst : (s.call (.parse "calc 'ans'")).1 = (s'.call (.parse "calc 'ans'")).1 :=
    (List.cons.inj h).1
  rw [ht, hu] at hfirst
  exact (Expr.value.inj (Response.tree.inj hfirst)).1

/-- Sessions answer all prompts alike, and are in the same state after each, exactly if their last
answers are the same. From the first text on that is so for calls of any kind, and a session whose
answer is cleared is as good as a new one. -/
theorem parse_eq_iff_answer_eq (s s' : Session) :
    (s.answer = s'.answer ↔
      ∀ text, s.parse text = s'.parse text ∧ s.evaluate text = s'.evaluate text) ∧
    (s.answer = s'.answer ↔
      ∀ calls, StartOnText calls → s.responses calls = s'.responses calls ∧
        (calls ≠ [] → s.run calls = s'.run calls)) ∧
    ∀ calls, StartOnText calls → s.clear.responses calls = new.responses calls ∧
      (calls ≠ [] → s.clear.run calls = new.run calls) := by
  refine ⟨⟨fun h text => ⟨parse_congr h text, evaluate_congr h text⟩, fun h => ?_⟩,
    ⟨fun h calls => responses_congr h, fun h => ?_⟩, fun calls => responses_congr rfl⟩
  · refine answer_eq_of_responses ?_
    simp only [responses, call, (h "calc 'ans'").1]
  · exact answer_eq_of_responses (h [.parse "calc 'ans'"] (by simp [StartOnText, Call.text?])).1

/-- A session in which prompts broke off, and one on a lexer that was read before. -/
theorem parse_eq_of_broken_off :
    ∃ s s', s = new.run [.input "calc '(2' x", .readPrompt, .readEquation 0] ∧
      s' = ofLexer ((Lexer.ofText "calc '1'").next.2) ∧ s.stream.cursor ≠ s'.stream.cursor ∧
      s.close ≠ s'.close ∧ s.lexer ≠ s'.lexer ∧ s.parse "calc '1/ans'" = s'.parse "calc '1/ans'" ∧
      s.responses [.input "calc '4'", .readPrompt, .tokens, .evaluate "calc '1/ans'"] =
        s'.responses [.input "calc '4'", .readPrompt, .tokens, .evaluate "calc '1/ans'"] := by
  have hanswer : (new.run [.input "calc '(2' x", .readPrompt, .readEquation 0]).answer =
      (ofLexer ((Lexer.ofText "calc '1'").next.2)).answer := by with_unfolding_all rfl
  obtain ⟨hprompts, hcalls, -⟩ := parse_eq_iff_answer_eq
    (new.run [.input "calc '(2' x", .readPrompt, .readEquation 0])
    (ofLexer ((Lexer.ofText "calc '1'").next.2))
  have hstart :
      StartOnText [.input "calc '4'", .readPrompt, .tokens, .evaluate "calc '1/ans'"] := by
    simp [StartOnText, Call.text?]
  exact ⟨_, _, rfl, rfl, by decide +kernel, by decide +kernel, by decide +kernel,
    (hprompts.mp hanswer "calc '1/ans'").1, (hcalls.mp hanswer _ hstart).1⟩

end PromptCalc.Session
