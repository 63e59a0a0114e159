import PromptCalc.Proofs.BracketCheck
import PromptCalc.Proofs.Parsing
import PromptCalc.Proofs.Misreading

/-!
# What is wrong with an equation

A prompt points at the first token of its equation with which no equation can begin, or at its
closing quote if the tokens are only the beginning of one. The check of the brackets and the lexer
leave no other fault to the reader, apart from the limits.
-/
namespace PromptCalc

open Equation

theorem Encloses.mem_tokenize {text : String} {inner : List Token} {closing t : Token}
    (h : Encloses text inner closing) (ht : t ∈ inner) : t ∈ tokenize text := by
  obtain ⟨command, opening, htokens, -⟩ := h
  simp [htokens, ht]

theorem Equation.ahead_eq_nil_of_read {setting : Setting} {ts : List Token} {p : Phrase}
    {r : Reader}
    (hfault : Nesting.fault? ts = none) (h : read setting 0 ⟨ts, 0⟩ = (.ok p, r)) :
    r.ahead = [] := by
  obtain ⟨c, d, hd, -, hend, hbelow⟩ := climb_sound _ _ _ _ _ _ h
  have hts : ts = d.tokens ++ r.ahead := hd.ahead
  cases hahead : r.ahead with
  | nil => rfl
  | cons t rest =>
    rw [hahead] at hend hbelow hts
    obtain ⟨shape, hclose⟩ := exists_closing hend hbelow
    have hfound : Nesting.fault? (d.tokens ++ t :: rest) = some t :=
      Nesting.fault?_refused (Frontier.run_phrase d []) rfl hclose
        (by simp [Frontier.step, hclose])
    rw [← hts, hfault] at hfound
    cases hfound

namespace Session

variable {s : Session} {text source : String} {e : EquationFault}

theorem reason_of_not_encloses (hnot : ∀ inner closing, ¬ Encloses text inner closing)
    (h : (s.parse text).1 = .error ⟨.equation e, source⟩) : e.reason = .trailingInput := by
  cases henvelope : Envelope.ofTokens (s.input text).lexer.tokens with
  | complete inner closing => exact absurd (encloses_iff.mpr henvelope) (hnot inner closing)
  | trailing inner closing found =>
    simp only [parse, readPrompt, henvelope, fail, Except.error.injEq, Failure.mk.injEq,
      Fault.equation.injEq] at h
    rw [← h.1]
  | _ => simp [parse, readPrompt, henvelope, fail] at h

/-- What the reader is left to find at the tokens of a prompt: its frontier stops, and the brackets
are balanced. -/
theorem exists_halts_of_parse (h : (s.parse text).1 = .error ⟨.equation e, source⟩) :
    e.reason = .trailingInput ∨ e.reason = .unbalancedBrackets ∨
    ∃ inner closing, Encloses text inner closing ∧ Nesting.fault? inner = none ∧
      Halts (settingOf s.answer closing) .start inner e := by
  by_cases hencloses : ∃ inner closing, Encloses text inner closing
  · obtain ⟨inner, closing, hencloses⟩ := hencloses
    refine .inr ?_
    rw [s.parse_of_encloses hencloses] at h
    cases hfault : Nesting.fault? inner with
    | some t =>
      simp only [hfault, Except.error.injEq, Failure.mk.injEq, Fault.equation.injEq] at h
      exact .inl (by rw [← h.1])
    | none =>
      refine .inr ⟨inner, closing, hencloses, hfault, ?_⟩
      rcases hread : read (settingOf s.answer closing) 0 ⟨inner, 0⟩ with ⟨e' | p, r⟩
      · simp only [hfault, hread, Except.error.injEq, Failure.mk.injEq, Fault.equation.injEq] at h
        obtain ⟨rfl, -⟩ := h
        exact read_halts (by rw [hread])
      · have hahead := ahead_eq_nil_of_read hfault hread
        simp [hfault, hread, hahead] at h
  · refine .inl (reason_of_not_encloses ?_ h)
    exact fun inner closing hinner => hencloses ⟨inner, closing, hinner⟩

/-- Of a token that is refused, the lexer and the check of the brackets leave three things to say.
-/
theorem refusal_of_encloses {inner front back : List Token} {closing t : Token} {g : Frontier}
    (hencloses : Encloses text inner closing) (hfault : Nesting.fault? inner = none)
    (hinner : inner = front ++ t :: back) (hrun : Frontier.start.run front = some g)
    (hstep : g.step t = none) :
    g.refusal t = .notANumber ∨ g.refusal t = .notASign ∨ g.refusal t = .missingOperator := by
  obtain ⟨expected, shapes⟩ := g
  have hmem : t ∈ tokenize text := hencloses.mem_tokenize (by simp [hinner])
  have hnumber : expected = .operand → ¬ t.kind.IsNumber := by
    rintro rfl hkind
    obtain ⟨x, hread⟩ := exists_read_of_mem_tokenize hmem hkind
    rw [(Frontier.Passes.number hkind hread).step_eq] at hstep
    cases hstep
  have hclosing : expected = .operator → ∀ shape, t.kind ≠ .closing shape := by
    rintro rfl shape hclose
    have hfound : Nesting.fault? (front ++ t :: back) = some t :=
      Nesting.fault?_refused hrun rfl hclose hstep
    rw [← hinner, hfault] at hfound
    cases hfound
  cases expected <;> cases hkind : t.kind <;>
    simp_all [Frontier.refusal, TokenKind.IsNumber]

/-- An equation fault of a prompt is found outside the equation or by a check or limit, or the
frontier shows it: at the token it does not pass, or at the end, where it is still before an
operand. -/
theorem parse_fault_cases {reason : Reason} {span : Span}
    (h : (s.parse text).1 = .error ⟨.equation ⟨reason, span⟩, source⟩) :
    (reason = .trailingInput ∨ reason = .unbalancedBrackets ∨ reason = .tooDeep) ∨
    ∃ inner closing, Encloses text inner closing ∧
      ((∃ front t back g, inner = front ++ t :: back ∧ Frontier.start.run front = some g ∧
          g.step t = none ∧ span = t.span ∧
          (reason = .notANumber ∨ reason = .notASign ∨ reason = .missingOperator)) ∨
        ∃ shapes, Frontier.start.run inner = some ⟨.operand, shapes⟩ ∧
          reason = .missingOperand ∧ span = .empty closing.span.start) := by
  rcases exists_halts_of_parse h with htrailing | hunbalanced | hhalts
  · exact .inl (.inl htrailing)
  · exact .inl (.inr (.inl hunbalanced))
  · obtain ⟨inner, closing, hencloses, hfault, hhalts⟩ := hhalts
    cases hhalts with
    | tooDeep => exact .inl (.inr (.inr rfl))
    | @refused front back g t hrun hstep =>
      exact .inr ⟨_, closing, hencloses, .inl ⟨front, t, back, g, rfl, hrun, hstep, rfl,
        refusal_of_encloses hencloses hfault rfl hrun hstep⟩⟩
    | missing hrun => exact .inr ⟨inner, closing, hencloses, .inr ⟨_, hrun, rfl, rfl⟩⟩
    | unclosed span hrun =>
      obtain ⟨t, ht⟩ := Nesting.fault?_unclosed hrun List.mem_cons_self
      rw [hfault] at ht
      cases ht

/-- A prompt points at the first token of its equation with which the tokens can no longer be
continued to an equation, or at the closing quote if an equation could only be completed behind the
last one. -/
theorem viable_before_fault {reason : Reason} {span : Span}
    (h : (s.parse text).1 = .error ⟨.equation ⟨reason, span⟩, source⟩) :
    (reason = .notANumber ∨ reason = .notASign ∨ reason = .missingOperator →
      ∃ inner closing front t back, Encloses text inner closing ∧ inner = front ++ t :: back ∧
        (∀ n, Viable (inner.take n) ↔ n ≤ front.length) ∧ span = t.span) ∧
    (reason = .missingOperand →
      ∃ inner closing, Encloses text inner closing ∧ Viable inner ∧
        (∀ d : Derivation .sum, d.tokens ≠ inner) ∧ span = .empty closing.span.start) := by
  rcases parse_fault_cases h with hother | ⟨inner, closing, hencloses, hfound⟩
  · rcases hother with rfl | rfl | rfl <;> simp
  · rcases hfound with
      ⟨front, t, back, g, rfl, hrun, hstep, rfl, hreason⟩ | ⟨shapes, hrun, rfl, rfl⟩
    · refine ⟨fun _ =>
        ⟨_, closing, front, t, back, hencloses, rfl, viable_take_iff hrun hstep, rfl⟩,
        fun hmissing => ?_⟩
      simp [hmissing] at hreason
    · refine ⟨fun hreason => by simp at hreason, fun _ => ⟨inner, closing, hencloses,
        viable_iff_run.mpr ⟨_, hrun⟩, fun d hd => ?_, rfl⟩⟩
      have hwhole := derivable_iff_run.mp ⟨d, hd⟩
      rw [hrun] at hwhole
      cases hwhole

/-- The sign that is missing after an opening bracket, and the operand after a sign. -/
theorem viable_before_fault_of_product :
    (∃ inner closing front t back, Encloses "calc '2^(*3)'" inner closing ∧
      inner = front ++ t :: back ∧ (∀ n, Viable (inner.take n) ↔ n ≤ front.length) ∧
      (⟨9, 1⟩ : Span) = t.span) ∧
    ∃ inner closing, Encloses "calc '2*-'" inner closing ∧ Viable inner ∧
      (∀ d : Derivation .sum, d.tokens ≠ inner) ∧ (⟨9, 0⟩ : Span) = .empty closing.span.start := by
  have hmisfit : (new.parse "calc '2^(*3)'").1 =
      .error ⟨.equation ⟨.notASign, ⟨9, 1⟩⟩, "calc '2^(*3)'"⟩ := by with_unfolding_all rfl
  have hmissing : (new.parse "calc '2*-'").1 =
      .error ⟨.equation ⟨.missingOperand, ⟨9, 0⟩⟩, "calc '2*-'"⟩ := by with_unfolding_all rfl
  exact ⟨(viable_before_fault hmisfit).1 (.inr (.inl rfl)), (viable_before_fault hmissing).2 rfl⟩

end Session

end PromptCalc
