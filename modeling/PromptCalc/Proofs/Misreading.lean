import PromptCalc.Proofs.Frontier
import PromptCalc.Proofs.ReadingSound

/-!
# Where reading stops

A phrase that is not read breaks off at the first token that its frontier does not pass, or at the
end of the tokens if the frontier passes them all, unless it goes too deep before.
-/
namespace PromptCalc

namespace Frontier

/-- The reason for which a token that is not passed is out of place. -/
def refusal (f : Frontier) (t : Token) : Reason :=
  match f.expected, t.kind with
  | .operand, .int | .operand, .float => .invalidNumber
  | .operand, .operator _ => .notASign
  | .operand, _ => .notANumber
  | .operator, .closing _ => .mismatchedBracket
  | .operator, _ => .missingOperator

theorem run_phrase {c : Category} (d : Derivation c) (shapes : List Bracket) :
    run ⟨.operand, shapes⟩ d.tokens = some ⟨.operator, shapes⟩ := by
  have h := run_derivation d shapes []
  rwa [List.append_nil] at h

end Frontier

namespace Equation

open Frontier

/-- Reading the tokens from the frontier on stops with the fault. -/
inductive Halts (setting : Setting) (f : Frontier) : List Token → EquationFault → Prop where
  | tooDeep (ts : List Token) (span : Span) : Halts setting f ts ⟨.tooDeep, span⟩
  | refused {front back : List Token} {g : Frontier} {t : Token} : f.run front = some g →
      g.step t = none → Halts setting f (front ++ t :: back) ⟨g.refusal t, t.span⟩
  | missing {ts : List Token} {shapes : List Bracket} : f.run ts = some ⟨.operand, shapes⟩ →
      Halts setting f ts ⟨.missingOperand, setting.stop⟩
  | unclosed {ts : List Token} {shape : Bracket} {shapes : List Bracket} (span : Span) :
      f.run ts = some ⟨.operator, shape :: shapes⟩ → Halts setting f ts ⟨.unclosedBracket, span⟩

section

variable {setting : Setting} {f g : Frontier} {t : Token} {ts : List Token} {e : EquationFault}

theorem halts_here {reason : Reason} (hstep : f.step t = none) (hreason : f.refusal t = reason) :
    Halts setting f (t :: ts) ⟨reason, t.span⟩ := by
  subst hreason
  exact .refused (run_nil f) hstep

theorem Halts.after {front : List Token} (h : Halts setting g ts e) (hrun : f.run front = some g) :
    Halts setting f (front ++ ts) e := by
  have hthrough : ∀ us, f.run (front ++ us) = g.run us := by
    intro us
    rw [run_append, hrun, Option.bind_some]
  cases h with
  | tooDeep span => exact .tooDeep ..
  | refused hg hstep =>
    rw [← List.append_assoc]
    exact .refused ((hthrough _).trans hg) hstep
  | missing hg => exact .missing ((hthrough _).trans hg)
  | unclosed span hg => exact .unclosed span ((hthrough _).trans hg)

theorem Halts.after_token (h : Halts setting g ts e) (hpass : Passes t f g) :
    Halts setting f (t :: ts) e := by
  have hrun : f.run [t] = some g := run_cons hpass []
  exact h.after hrun

theorem exists_closing (hend : Ended (t :: ts)) (hbelow : Below 0 (t :: ts)) :
    ∃ shape, t.kind = .closing shape := by
  rcases hend t rfl with h | ⟨op, hop⟩
  · cases hkind : t.kind <;> simp_all [TokenKind.isClosing, TokenKind.opening?]
  · exact absurd (hbelow t rfl op hop) (Nat.not_lt_zero _)

theorem refusal_ne_missingOperand (f : Frontier) (t : Token) : f.refusal t ≠ .missingOperand := by
  unfold Frontier.refusal
  split <;> nofun

/-- A token is missed where there are no more, not at another token. -/
theorem Halts.span_of_missingOperand (h : Halts setting f ts e)
    (hreason : e.reason = .missingOperand) :
    e.span = setting.stop := by
  cases h with
  | tooDeep => cases hreason
  | refused => exact absurd hreason (refusal_ne_missingOperand _ _)
  | missing => rfl
  | unclosed => cases hreason

end

/-- What a reader of phrases is asked to do for the phrases inside another one. -/
def Traced (setting : Setting) (sub : Nat → Reader → Outcome) : Prop :=
  ∀ (power : Nat) (r : Reader) (e : EquationFault) (shapes : List Bracket),
    (sub power r).1 = .error e → Halts setting ⟨.operand, shapes⟩ r.ahead e

section

variable {setting : Setting} {sub : Nat → Reader → Outcome} {shapes : List Bracket} {r : Reader}
  {e : EquationFault}

theorem bracketed_halts (hsound : Sound setting sub) (hsub : Traced setting sub) {opener : Token}
    {shape : Bracket} (h : (bracketed sub opener shape r).1 = .error e) :
    Halts setting ⟨.operand, shape :: shapes⟩ r.ahead e := by
  rcases hinner : sub 0 r with ⟨e' | inner, r₁⟩
  · have herror : (sub 0 r).1 = .error e' := by rw [hinner]
    rw [bracketed_error herror] at h
    obtain rfl := Except.error.inj h
    exact hsub _ _ _ _ herror
  · obtain ⟨c, d, hd, -, hend, hbelow⟩ := hsound _ _ _ _ hinner
    have hphrase := run_phrase d (shape :: shapes)
    rw [hd.ahead]
    cases hahead : r₁.ahead with
    | nil =>
      rw [bracketed_unclosed hinner hahead] at h
      obtain rfl := Except.error.inj h
      rw [List.append_nil]
      exact .unclosed _ hphrase
    | cons t ts =>
      by_cases hclose : t.kind = .closing shape
      · rw [bracketed_ok hinner hahead hclose] at h
        cases h
      · rw [bracketed_mismatched hinner hahead hclose] at h
        obtain rfl := Except.error.inj h
        rw [hahead] at hend hbelow
        obtain ⟨other, hother⟩ := exists_closing hend hbelow
        have hne : shape ≠ other := by
          rintro rfl
          exact hclose hother
        have hhere : Halts setting ⟨.operator, shape :: shapes⟩ (t :: ts)
            ⟨.mismatchedBracket, t.span⟩ :=
          halts_here (by simp [step, hother, hne]) (by simp [refusal, hother])
        exact hhere.after hphrase

theorem signed_halts (hsub : Traced setting sub) {sign : Token} {op : Operator}
    (hop : sign.kind = .operator op) (h : (signed sub sign op r).1 = .error e) :
    Halts setting ⟨.operand, shapes⟩ (sign :: r.ahead) e := by
  cases hsign : op.signPower? with
  | none =>
    simp only [signed, hsign, fail, Except.error.injEq] at h
    subst h
    exact halts_here (by simp [step, hop, hsign]) (by simp [refusal, hop])
  | some power =>
    rcases hoperand : sub power r with ⟨e' | operand, r₁⟩
    · have herror : (sub power r).1 = .error e' := by rw [hoperand]
      rw [signed_error hsign herror] at h
      obtain rfl := Except.error.inj h
      exact (hsub _ _ _ shapes herror).after_token (.sign hop (by simp [hsign]))
    · rw [signed_ok hsign hoperand] at h
      cases h

theorem operand_halts (hsound : Sound setting sub) (hsub : Traced setting sub)
    (h : (operand setting sub r).1 = .error e) : Halts setting ⟨.operand, shapes⟩ r.ahead e := by
  obtain ⟨ahead, depth⟩ := r
  cases ahead with
  | nil =>
    obtain rfl := Except.error.inj h
    exact .missing rfl
  | cons t ts =>
    simp only [operand] at h
    cases hkind : t.kind with
    | opening shape =>
      simp only [hkind] at h
      exact (bracketed_halts hsound hsub h).after_token (.opening hkind)
    | operator op =>
      simp only [hkind] at h
      exact signed_halts hsub hkind h
    | answer => simp [hkind] at h
    | int | float =>
      cases hread : Number.read? t.literal with
      | some x => simp [hkind, hread] at h
      | none =>
        simp only [hkind, hread, fail, Except.error.injEq] at h
        subst h
        exact halts_here (by simp [step, hkind, hread]) (by simp [refusal, hkind])
    | _ =>
      simp only [hkind, fail, Except.error.injEq] at h
      subst h
      exact halts_here (by simp [step, hkind]) (by simp [refusal, hkind])

theorem extend_halts (hsound : Sound setting sub) (hsub : Traced setting sub) {power : Nat}
    {left : Phrase} (h : (extend sub power left r).1 = .error e) :
    Halts setting ⟨.operator, shapes⟩ r.ahead e := by
  fun_induction extend sub power left r with
  | case1 | case2 | case3 => simp at h
  | case4 left r t ts hahead op hkind hle e' r₁ herror =>
    obtain rfl := Except.error.inj h
    have hoperand := hsub op.rightPower { r with ahead := ts } e' shapes (by rw [herror])
    exact hahead ▸ hoperand.after_token (.operator hkind)
  | case5 =>
    obtain rfl := Except.error.inj h
    exact .tooDeep ..
  | case6 left r t ts hahead op hkind hle right r₁ hright height hheight _ =>
    rename_i ih
    obtain ⟨c, d, hd, -⟩ := hsound _ _ _ _ hright
    have hts : ts = d.tokens ++ r₁.ahead := hd.ahead
    rw [hahead, hts]
    exact ((ih h).after (run_phrase d shapes)).after_token (.operator hkind)
  | case7 left r t ts hahead hclosing hoperator =>
    obtain rfl := Except.error.inj h
    rw [hahead]
    cases hkind : t.kind with
    | closing shape => exact absurd hkind (hclosing shape)
    | operator op => exact absurd hkind (hoperator op)
    | _ => exact halts_here (by simp [step, hkind]) (by simp [refusal, hkind])

theorem phrase_halts (hsound : Sound setting sub) (hsub : Traced setting sub) {depth power : Nat}
    {ts : List Token} (hlimit : depth < maxDepth)
    (h : (phrase setting sub power ⟨ts, depth + 1⟩).1 = .error e) :
    Halts setting ⟨.operand, shapes⟩ ts e := by
  rcases hleft : operand setting sub ⟨ts, depth + 1⟩ with ⟨e' | left, r⟩
  · have herror : (operand setting sub ⟨ts, depth + 1⟩).1 = .error e' := by rw [hleft]
    rw [phrase_error herror] at h
    obtain rfl := Except.error.inj h
    exact operand_halts hsound hsub herror
  · rw [phrase_ok hleft] at h
    obtain ⟨c, d, hd, -⟩ := operand_derived hsound hlimit hleft
    have hts : ts = d.tokens ++ r.ahead := hd.ahead
    rw [hts]
    exact (extend_halts hsound hsub h).after (run_phrase d shapes)

end

theorem failTooDeep_halts {setting : Setting} {f : Frontier} {r : Reader} {e : EquationFault}
    (h : (failTooDeep setting r).1 = .error e) : Halts setting f r.ahead e := by
  obtain ⟨span, hspan⟩ := tooDeep_failTooDeep setting r
  obtain rfl := Except.error.inj (hspan.symm.trans h)
  exact .tooDeep ..

/-- At every level, a phrase that is not read breaks off where its frontier does. -/
theorem climb_traced (setting : Setting) (levels : Nat) :
    Traced setting (climb setting levels) := by
  induction levels with
  | zero =>
    intro power r e shapes h
    exact failTooDeep_halts h
  | succ levels ih =>
    intro power r e shapes h
    simp only [climb] at h
    split at h
    · exact failTooDeep_halts h
    · next hdepth =>
      exact phrase_halts (climb_sound setting levels) ih (Nat.lt_of_not_le hdepth) h

theorem read_halts {setting : Setting} {ts : List Token} {e : EquationFault}
    (h : (read setting 0 ⟨ts, 0⟩).1 = .error e) : Halts setting .start ts e :=
  climb_traced setting _ 0 ⟨ts, 0⟩ e [] h

end Equation

end PromptCalc
