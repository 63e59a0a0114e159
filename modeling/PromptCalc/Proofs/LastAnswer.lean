import PromptCalc.Proofs.Parsing
import PromptCalc.Proofs.Substitution

/-!
# The last answer

To ask with `ans` after an equation is to ask once with that equation in place of `ans`. A bracket
is read like the number it stands for, so the two readings go on side by side, up to the limits.
-/
namespace PromptCalc

namespace Equation

/-- How the outcome for substituted tokens agrees with the one for the tokens themselves: with the
same value and the same rest of the tokens, or with the same reason. Only the limits may part them.
-/
inductive Agrees (inner : List Token) (depth : Nat) : Outcome → Outcome → Prop where
  | tooDeep {o o' : Outcome} : TooDeep o' → Agrees inner depth o o'
  | ok {p p' : Phrase} {ts us : List Token} : p'.tree.value? = p.tree.value? →
      p.height ≤ p'.height → Spliced inner ts us →
      Agrees inner depth (.ok p, ⟨ts, depth⟩) (.ok p', ⟨us, depth⟩)
  | error {o o' : Outcome} {f f' : EquationFault} : o.1 = .error f → o'.1 = .error f' →
      f'.reason = f.reason → Agrees inner depth o o'

section Agreement

variable {inner : List Token} {depth : Nat} {sub sub' : Nat → Reader → Outcome}
  {ts us : List Token}

/-- What goes on from agreeing outcomes, and passes on errors, agrees if it does so after phrases.
-/
theorem Agrees.bind {o o' result result' : Outcome} (h : Agrees inner depth o o')
    (herror : ∀ f, o.1 = .error f → result.1 = .error f)
    (herror' : ∀ f, o'.1 = .error f → result'.1 = .error f)
    (hok : ∀ p p' ts us, o = (.ok p, ⟨ts, depth⟩) → o' = (.ok p', ⟨us, depth⟩) →
      p'.tree.value? = p.tree.value? → p.height ≤ p'.height → Spliced inner ts us →
      Agrees inner depth result result') :
    Agrees inner depth result result' := by
  cases h with
  | tooDeep hdeep =>
    obtain ⟨span, hspan⟩ := hdeep
    exact .tooDeep ⟨span, herror' _ hspan⟩
  | ok hvalue hheight hahead => exact hok _ _ _ _ rfl rfl hvalue hheight hahead
  | error hf hf' hreason => exact .error (herror _ hf) (herror' _ hf') hreason

theorem bracketed_agrees {opener opener' : Token} {shape : Bracket}
    (h : Agrees inner depth (sub 0 ⟨ts, depth⟩) (sub' 0 ⟨us, depth⟩)) :
    Agrees inner depth (bracketed sub opener shape ⟨ts, depth⟩)
      (bracketed sub' opener' shape ⟨us, depth⟩) := by
  refine h.bind (fun _ => bracketed_error) (fun _ => bracketed_error) ?_
  intro p p' ts us ho ho' hvalue hheight hahead
  cases hahead with
  | nil =>
    rw [bracketed_unclosed ho rfl, bracketed_unclosed ho' rfl]
    exact .error rfl rfl rfl
  | @keep t u ts us hword _ hrest =>
    have hsame : u.kind = t.kind := (Prod.mk.inj hword).1
    by_cases hclose : t.kind = .closing shape
    · rw [bracketed_ok ho rfl hclose, bracketed_ok ho' rfl (hsame.trans hclose)]
      exact .ok hvalue hheight hrest
    · rw [bracketed_mismatched ho rfl hclose,
        bracketed_mismatched ho' rfl (by rw [hsame]; exact hclose)]
      exact .error rfl rfl rfl
  | answer hanswer hopen =>
    rw [bracketed_mismatched ho rfl (by rw [hanswer]; simp),
      bracketed_mismatched ho' rfl (by rw [hopen]; simp)]
    exact .error rfl rfl rfl

theorem signed_agrees {sign sign' : Token} {op : Operator}
    (h : ∀ power, Agrees inner depth (sub power ⟨ts, depth⟩) (sub' power ⟨us, depth⟩)) :
    Agrees inner depth (signed sub sign op ⟨ts, depth⟩) (signed sub' sign' op ⟨us, depth⟩) := by
  cases hop : op.signPower? with
  | none =>
    simp only [signed, hop]
    exact .error rfl rfl rfl
  | some power =>
    refine (h power).bind (fun _ => signed_error hop) (fun _ => signed_error hop) ?_
    intro p p' ts us ho ho' hvalue hheight hahead
    rw [signed_ok hop ho, signed_ok hop ho']
    refine .ok ?_ (Nat.succ_le_succ hheight) hahead
    simp only [Expr.value?_unary, hvalue]

theorem extend_agrees {power : Nat} {left left' : Phrase}
    (hsub : ∀ power ts us, Spliced inner ts us →
      Agrees inner depth (sub power ⟨ts, depth⟩) (sub' power ⟨us, depth⟩))
    (hvalue : left'.tree.value? = left.tree.value?) (hheight : left.height ≤ left'.height)
    (h : Spliced inner ts us) :
    Agrees inner depth (extend sub power left ⟨ts, depth⟩)
      (extend sub' power left' ⟨us, depth⟩) := by
  -- Every operator adds to the height, so the induction is on what is left up to the greatest one.
  induction hroom : maxHeight - left.height using Nat.strongRecOn generalizing left left' ts us with
  | ind room ih =>
    cases h with
    | nil =>
      rw [extend_of_ended .nil (.nil _), extend_of_ended .nil (.nil _)]
      exact .ok hvalue hheight .nil
    | answer hanswer hopen =>
      rw [extend_missing rfl (by rw [hanswer]; rfl) (by rw [hanswer]; rfl),
        extend_missing rfl (by rw [hopen]; rfl) (by rw [hopen]; rfl)]
      exact .error rfl rfl rfl
    | @keep t u ts us hword hkind hrest =>
      have hsame : u.kind = t.kind := (Prod.mk.inj hword).1
      have hahead : Spliced inner (t :: ts) (u :: us) := .keep hword hkind hrest
      cases htoken : t.kind with
      | closing shape =>
        have hu := hsame.trans htoken
        rw [extend_of_ended (.closing htoken) (.closing htoken _),
          extend_of_ended (.closing hu) (.closing hu _)]
        exact .ok hvalue hheight hahead
      | operator op =>
        have hu := hsame.trans htoken
        by_cases hle : power ≤ op.leftPower
        · refine (hsub op.rightPower ts us hrest).bind
            (fun _ hf => extend_operator_error rfl htoken hle hf)
            (fun _ hf => extend_operator_error rfl hu hle hf) ?_
          intro right right' ts us ho ho' hvalueRight hheightRight hahead
          -- The substituted phrase is the higher one, so it meets the limit first.
          by_cases hlimit : max left'.height right'.height + 1 ≤ maxHeight
          · have hlimitLeft : max left.height right.height + 1 ≤ maxHeight := by omega
            rw [extend_operator rfl htoken hle ho hlimitLeft,
              extend_operator rfl hu hle ho' hlimit]
            refine ih _ ?_ ?_ ?_ hahead rfl
            · dsimp only
              omega
            · simp only [Expr.value?_binary, hvalue, hvalueRight]
            · dsimp only
              omega
          · exact .tooDeep (extend_operator_tooHigh rfl hu hle ho' (by omega))
        · have hlt : op.leftPower < power := Nat.lt_of_not_le hle
          rw [extend_of_ended (.operator htoken) (.operator htoken hlt),
            extend_of_ended (.operator hu) (.operator hu hlt)]
          exact .ok hvalue hheight hahead
      | _ =>
        rw [extend_missing rfl (by rw [htoken]; rfl) (by rw [htoken]; rfl),
          extend_missing rfl (by rw [hsame, htoken]; rfl) (by rw [hsame, htoken]; rfl)]
        exact .error rfl rfl rfl

end Agreement

section Reading

variable {setting setting' : Setting} {d : Derivation .sum} {levels depth : Nat}
  {ts us : List Token}

/-- The bracket for `ans` is read whole and has its value, or the limits are in the way. -/
theorem bracketed_moved {opener closer : Token} {body : List Token} {t : Token} {rest : List Token}
    (hvalue : (d.tree setting'.answer).value? = some setting.answer)
    (hlevels : maxDepth < levels + depth) (hbody : body.map Token.word = d.tokens.map Token.word)
    (hclose : closer.kind = .closing .round) (h : Spliced d.tokens rest us) :
    Agrees d.tokens depth (.ok ⟨.value setting.answer (some t), 1⟩, ⟨rest, depth⟩)
      (bracketed (climb setting' levels) opener .round ⟨body ++ closer :: us, depth⟩) := by
  obtain ⟨e, rfl, hmoved⟩ := d.exists_moved hbody
  obtain ⟨hread, hdeep⟩ := (opens setting' e).climb levels depth 0 (closer :: us) hlevels
    (Nat.zero_le 1) (.closing hclose) (.closing hclose 0) (.closing hclose _)
  by_cases hadmitted : Admitted setting' depth e
  · rw [bracketed_ok (hread hadmitted) rfl hclose]
    refine .ok ?_ (Expr.height_pos _) h
    exact (hmoved setting'.answer).trans hvalue
  · obtain ⟨span, hspan⟩ := hdeep hadmitted
    exact .tooDeep ⟨span, bracketed_error hspan⟩

theorem operand_agrees (hvalue : (d.tree setting'.answer).value? = some setting.answer)
    (hlevels : maxDepth < levels + depth)
    (hsub : ∀ power ts us, Spliced d.tokens ts us → Agrees d.tokens depth
      (climb setting levels power ⟨ts, depth⟩) (climb setting' levels power ⟨us, depth⟩))
    (h : Spliced d.tokens ts us) :
    Agrees d.tokens depth (operand setting (climb setting levels) ⟨ts, depth⟩)
      (operand setting' (climb setting' levels) ⟨us, depth⟩) := by
  cases h with
  | nil => exact .error rfl rfl rfl
  | @answer t opener closer body ts us hanswer hopen hbody hclose hrest =>
    simp only [operand, hanswer, hopen]
    exact bracketed_moved hvalue hlevels hbody hclose hrest
  | @keep t u ts us hword hkind hrest =>
    obtain ⟨hsame, hliteral⟩ := Prod.mk.inj hword
    simp only [operand, hsame, hliteral]
    cases htoken : t.kind with
    | answer => exact absurd htoken hkind
    | opening shape => exact bracketed_agrees (hsub 0 ts us hrest)
    | operator op => exact signed_agrees fun power => hsub power ts us hrest
    | int | float =>
      dsimp only
      cases Number.read? t.literal with
      | some x => exact .ok rfl (Nat.le_refl 1) hrest
      | none => exact .error rfl rfl rfl
    | _ => exact .error rfl rfl rfl

theorem climb_agrees (hvalue : (d.tree setting'.answer).value? = some setting.answer)
    (levels depth power : Nat) (ts us : List Token) (hlevels : maxDepth < levels + depth)
    (h : Spliced d.tokens ts us) :
    Agrees d.tokens depth (climb setting levels power ⟨ts, depth⟩)
      (climb setting' levels power ⟨us, depth⟩) := by
  induction levels generalizing depth power ts us with
  | zero => exact .tooDeep (tooDeep_failTooDeep ..)
  | succ levels ih =>
    by_cases hdepth : maxDepth ≤ depth
    · simp only [climb, if_pos hdepth]
      exact .tooDeep (tooDeep_failTooDeep ..)
    · have hinside : maxDepth < levels + (depth + 1) := by omega
      have hsub := fun power ts us => ih (depth + 1) power ts us hinside
      have hoperand := operand_agrees hvalue hinside hsub h
      have hphrase : Agrees d.tokens (depth + 1)
          (phrase setting (climb setting levels) power ⟨ts, depth + 1⟩)
          (phrase setting' (climb setting' levels) power ⟨us, depth + 1⟩) := by
        refine hoperand.bind (fun _ => phrase_error) (fun _ => phrase_error) ?_
        intro p p' ts us ho ho' hvalue hheight hrest
        rw [phrase_ok ho, phrase_ok ho']
        exact extend_agrees hsub hvalue hheight hrest
      simp only [climb, if_neg hdepth, Reader.enter]
      generalize phrase setting (climb setting levels) power ⟨ts, depth + 1⟩ = o at hphrase
      generalize phrase setting' (climb setting' levels) power ⟨us, depth + 1⟩ = o' at hphrase
      cases hphrase with
      | tooDeep hdeep => exact .tooDeep hdeep
      | error hf hf' hreason => exact .error hf hf' hreason
      | ok hvalue hheight hrest => exact .ok hvalue hheight hrest

end Reading

end Equation

open Equation

namespace Session

section Evaluation

variable {s : Session} {text : String}

theorem evaluate_of_parse_error {e : Failure} (h : (s.parse text).1 = .error e) :
    (s.evaluate text).1 = .error e := by
  rcases hparse : s.parse text with ⟨result, s'⟩
  simp_all [evaluate]

theorem evaluate_of_parse_ok {tree : Expr} {x : Float} (h : (s.parse text).1 = .ok tree)
    (hvalue : tree.value? = some x) :
    (s.evaluate text).1 = .ok x ∧ (s.evaluate text).2.answer = x := by
  rcases hparse : s.parse text with ⟨result, s'⟩
  rcases hevaluate : tree.evaluate with e | y
  · simp [Expr.value?, hevaluate, Except.toOption] at hvalue
  · simp_all [evaluate, Expr.value?, Except.toOption]

theorem evaluate_of_value?_none {tree : Expr} (h : (s.parse text).1 = .ok tree)
    (hvalue : tree.value? = none) :
    ∃ span source, (s.evaluate text).1 = .error ⟨.zeroDivision span, source⟩ := by
  rcases hparse : s.parse text with ⟨result, s'⟩
  rcases hevaluate : tree.evaluate with e | y
  · exact ⟨e.span, s'.lexer.text, by simp_all [evaluate, fail]⟩
  · simp [Expr.value?, hevaluate, Except.toOption] at hvalue

theorem exists_parse_of_evaluate {x : Float} (h : (s.evaluate text).1 = .ok x) :
    ∃ tree, (s.parse text).1 = .ok tree ∧ tree.value? = some x := by
  cases hparse : (s.parse text).1 with
  | error e =>
    rw [evaluate_of_parse_error hparse] at h
    cases h
  | ok tree =>
    refine ⟨tree, rfl, ?_⟩
    cases hvalue : tree.value? with
    | none =>
      obtain ⟨span, source, herror⟩ := evaluate_of_value?_none hparse hvalue
      rw [herror] at h
      cases h
    | some y =>
      rw [(evaluate_of_parse_ok hparse hvalue).1] at h
      rw [Except.ok.inj h]

end Evaluation

/-- The prompts for tokens and for the substituted ones have trees of the same value, or fail for
the same reason, if the substituted ones do not go too deep. -/
theorem parse_spliced {s s' : Session} {text text' : String} {ts us : List Token}
    {closing closing' : Token} {d : Derivation .sum} (hencloses : Encloses text ts closing)
    (hencloses' : Encloses text' us closing') (h : Spliced d.tokens ts us)
    (hvalue : (d.tree s'.answer).value? = some s.answer) :
    (∃ tree tree', (s.parse text).1 = .ok tree ∧ (s'.parse text').1 = .ok tree' ∧
      tree'.value? = tree.value?) ∨
    (∃ reason span span', (s.parse text).1 = .error ⟨.equation ⟨reason, span⟩, text⟩ ∧
      (s'.parse text').1 = .error ⟨.equation ⟨reason, span'⟩, text'⟩) ∨
    ∃ span, (s'.parse text').1 = .error ⟨.equation ⟨.tooDeep, span⟩, text'⟩ := by
  have hnone : (Nesting.fault? us).isNone = (Nesting.fault? ts).isNone :=
    Nesting.isNone_faultAfter_spliced h (fun _ => Iff.rfl) rfl
  rw [s.parse_of_encloses hencloses, s'.parse_of_encloses hencloses']
  cases hfault : Nesting.fault? ts with
  | some t =>
    obtain ⟨u, hu⟩ : ∃ u, Nesting.fault? us = some u := by
      rw [hfault] at hnone
      exact Option.isSome_iff_exists.mp (by simpa using hnone)
    rw [hu]
    exact .inr (.inl ⟨_, _, _, rfl, rfl⟩)
  | none =>
    rw [hfault, Option.isNone_none, Option.isNone_iff_eq_none] at hnone
    rw [hnone]
    have hread : Agrees d.tokens 0 (read (settingOf s.answer closing) 0 ⟨ts, 0⟩)
        (read (settingOf s'.answer closing') 0 ⟨us, 0⟩) :=
      climb_agrees hvalue (maxDepth + 1) 0 0 ts us (Nat.lt_succ_self _) h
    generalize read (settingOf s.answer closing) 0 ⟨ts, 0⟩ = o at hread
    generalize read (settingOf s'.answer closing') 0 ⟨us, 0⟩ = o' at hread
    cases hread with
    | tooDeep hdeep =>
      obtain ⟨span, hspan⟩ := hdeep
      obtain ⟨_, _⟩ := o'
      subst hspan
      exact .inr (.inr ⟨span, rfl⟩)
    | @error _ _ f f' hf hf' hreason =>
      obtain ⟨_, _⟩ := o
      obtain ⟨_, _⟩ := o'
      obtain ⟨_, _⟩ := f
      obtain ⟨_, _⟩ := f'
      subst hf hf' hreason
      exact .inr (.inl ⟨_, _, _, rfl, rfl⟩)
    | ok hphrase _ hrest =>
      cases hrest with
      | nil => exact .inl ⟨_, _, rfl, rfl, hphrase⟩
      | keep | answer => exact .inr (.inl ⟨_, _, _, rfl, rfl⟩)

/-- After an equation, `ans` in a second one is as good as the first in brackets: both ways have
the same answer, divide by zero or fail for the same reason. Only the limits on the combined
equation are reached earlier. -/
theorem evaluate_substitute {s : Session} {first second : String} {x : Float}
    (hfirst : '\'' ∉ first.toList) (hsecond : '\'' ∉ second.toList)
    (h : (s.evaluate (prompt first)).1 = .ok x) :
    let combined := prompt (String.ofList (substitute first.toList second.toList))
    let followed := (s.evaluate (prompt first)).2.evaluate (prompt second)
    let direct := s.evaluate combined
    (∃ y, followed.1 = .ok y ∧ direct.1 = .ok y ∧ followed.2.answer = y ∧ direct.2.answer = y) ∨
    ((∃ span source, followed.1 = .error ⟨.zeroDivision span, source⟩) ∧
      ∃ span source, direct.1 = .error ⟨.zeroDivision span, source⟩) ∨
    (∃ reason span span', followed.1 = .error ⟨.equation ⟨reason, span⟩, prompt second⟩ ∧
      direct.1 = .error ⟨.equation ⟨reason, span'⟩, combined⟩) ∨
    ∃ span, direct.1 = .error ⟨.equation ⟨.tooDeep, span⟩, combined⟩ := by
  dsimp only
  obtain ⟨tree, hparse, hvalue⟩ := exists_parse_of_evaluate h
  have hanswer := (evaluate_of_parse_ok hparse hvalue).2
  obtain ⟨d, closing, hencloses, -, rfl⟩ := exists_derivation_of_parse hparse
  obtain ⟨_, hscan⟩ := encloses_prompt hfirst
  have htokens : d.tokens = Token.scan 6 first.toList :=
    (Envelope.complete.inj ((encloses_iff.mp hencloses).symm.trans (encloses_iff.mp hscan))).1
  have hcombined : '\'' ∉ substitute first.toList second.toList := by
    intro hmem
    rcases mem_substitute hmem with h | h | h | h
    · cases h
    · cases h
    · exact hfirst h
    · exact hsecond h
  obtain ⟨_, hencloses₂⟩ := encloses_prompt hsecond
  obtain ⟨_, hencloses'⟩ := encloses_prompt_ofList hcombined
  have hspliced := spliced_scan_substitute first.toList second.toList 6 6 6
  rw [← htokens] at hspliced
  rw [← hanswer] at hvalue
  rcases parse_spliced hencloses₂ hencloses' hspliced hvalue with
    ⟨tree, tree', hparse, hparse', heq⟩ | ⟨reason, span, span', herror, herror'⟩ | ⟨span, herror'⟩
  · cases hresult : tree.value? with
    | none =>
      exact .inr (.inl ⟨evaluate_of_value?_none hparse hresult,
        evaluate_of_value?_none hparse' (heq.trans hresult)⟩)
    | some y =>
      obtain ⟨hok, hlast⟩ := evaluate_of_parse_ok hparse hresult
      obtain ⟨hok', hlast'⟩ := evaluate_of_parse_ok hparse' (heq.trans hresult)
      exact .inl ⟨y, hok, hok', hlast, hlast'⟩
  · exact .inr (.inr (.inl ⟨reason, span, span', evaluate_of_parse_error herror,
      evaluate_of_parse_error herror'⟩))
  · exact .inr (.inr (.inr ⟨span, evaluate_of_parse_error herror'⟩))

theorem exists_evaluate_square :
    ∃ y, ((new.evaluate (prompt "ans+1")).2.evaluate (prompt "ans * ans")).1 = .ok y ∧
      (new.evaluate (prompt "(ans+1) * (ans+1)")).1 = .ok y := by
  have htext : String.ofList (substitute "ans+1".toList "ans * ans".toList) =
      "(ans+1) * (ans+1)" := by decide +kernel
  have hdirect : (new.evaluate (prompt "(ans+1) * (ans+1)")).1.isOk = true := by decide +kernel
  have hfirst : (new.evaluate (prompt "ans+1")).1.isOk = true := by decide +kernel
  cases hx : (new.evaluate (prompt "ans+1")).1 with
  | error => simp [hx, Except.isOk, Except.toBool] at hfirst
  | ok x =>
    have hquote : '\'' ∉ "ans * ans".toList := by decide
    have h := evaluate_substitute (by decide) hquote hx
    rw [htext] at h
    rcases h with
      ⟨y, hfollowed, hdirect, -⟩ | ⟨-, _, _, herror⟩ | ⟨_, _, _, -, herror⟩ | ⟨_, herror⟩
    · exact ⟨y, hfollowed, hdirect⟩
    · simp [herror, Except.isOk, Except.toBool] at hdirect
    · simp [herror, Except.isOk, Except.toBool] at hdirect
    · simp [herror, Except.isOk, Except.toBool] at hdirect

end Session

end PromptCalc
