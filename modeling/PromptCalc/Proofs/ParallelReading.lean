import PromptCalc.Expr
import PromptCalc.Nesting
import PromptCalc.Proofs.Reading
import PromptCalc.Proofs.Substitution
import Mathlib.Data.List.Forall2

/-!
# Reading two rows of tokens

Where two rows of tokens pair up, token by token, they are read alike, whatever number stands for
`ans` in either of them and wherever the tokens stand: to trees of one shape, or to the same fault
at tokens of one pair. So it is with the check of the brackets.
-/
namespace PromptCalc

/-- Both have results that agree, or both have errors that do. -/
inductive Matched {ε α : Type} (fails : ε → ε → Prop) (gives : α → α → Prop) :
    Except ε α → Except ε α → Prop where
  | ok {a b : α} : gives a b → Matched fails gives (.ok a) (.ok b)
  | error {e f : ε} : fails e f → Matched fails gives (.error e) (.error f)

/-- Trees of one shape with the same operators, whose nodes were read from tokens of one pair each.
The leaves that were read from `ans` hold the two numbers given, all others the same number. -/
inductive Expr.Alike (paired : Token → Token → Prop) (v w : Float) : Expr → Expr → Prop where
  | number {t u : Token} (x : Float) : paired t u → t.kind ≠ .answer →
      Alike paired v w (.value x (some t)) (.value x (some u))
  | answer {t u : Token} : paired t u → t.kind = .answer →
      Alike paired v w (.value v (some t)) (.value w (some u))
  | unary {op : Operator} {t u : Token} {a b : Expr} : paired t u → op.signPower?.isSome →
      Alike paired v w a b → Alike paired v w (.unary op a (some t)) (.unary op b (some u))
  | binary {op : Operator} {t u : Token} {a b c d : Expr} : paired t u → Alike paired v w a b →
      Alike paired v w c d → Alike paired v w (.binary op a c (some t)) (.binary op b d (some u))

theorem Matched.imp {ε α : Type} {fails fails' : ε → ε → Prop} {gives gives' : α → α → Prop}
    {r r' : Except ε α} (h : Matched fails gives r r') (hfails : ∀ e f, fails e f → fails' e f)
    (hgives : ∀ a b, gives a b → gives' a b) : Matched fails' gives' r r' := by
  cases h with
  | ok h => exact .ok (hgives _ _ h)
  | error h => exact .error (hfails _ _ h)

theorem Expr.Alike.imp {paired paired' : Token → Token → Prop} {v w : Float} {e f : Expr}
    (h : e.Alike paired v w f) (hpaired : ∀ t u, paired t u → paired' t u) :
    e.Alike paired' v w f := by
  induction h with
  | number x h hkind => exact .number x (hpaired _ _ h) hkind
  | answer h hkind => exact .answer (hpaired _ _ h) hkind
  | unary h hop _ ih => exact .unary (hpaired _ _ h) hop ih
  | binary h _ _ ihl ihr => exact .binary (hpaired _ _ h) ihl ihr

theorem Operator.exists_result_of_sign {op : Operator} (h : op.signPower?.isSome) (x y : Float) :
    ∃ z, op.apply? x y = some z := by
  cases op <;> simp_all [signPower?, Operator.apply?]

/-- Trees that are alike have the same value, or divide by zero at tokens of one pair. -/
theorem Expr.Alike.evaluate {paired : Token → Token → Prop} {v : Float} {e f : Expr}
    (h : e.Alike paired v v f) :
    Matched (fun z z' => ∃ t u, paired t u ∧ z.span = some t.span ∧ z'.span = some u.span) (· = ·)
      e.evaluate f.evaluate := by
  induction h with
  | number | answer => exact .ok rfl
  | @unary op t u a b _ hop _ ih =>
    simp only [Expr.evaluate]
    generalize a.evaluate = r at ih ⊢
    generalize b.evaluate = r' at ih ⊢
    cases ih with
    | error hspan => exact .error hspan
    | @ok x y hxy =>
      obtain rfl : x = y := hxy
      obtain ⟨z, hz⟩ := Operator.exists_result_of_sign hop 0 x
      simp only [hz]
      exact .ok rfl
  | @binary op t u a b c d hpair _ _ ihl ihr =>
    simp only [Expr.evaluate]
    generalize a.evaluate = l at ihl ⊢
    generalize b.evaluate = l' at ihl ⊢
    cases ihl with
    | error hspan => exact .error hspan
    | @ok x x' hx =>
      obtain rfl : x = x' := hx
      generalize c.evaluate = r at ihr ⊢
      generalize d.evaluate = r' at ihr ⊢
      cases ihr with
      | error hspan => exact .error hspan
      | @ok y y' hy =>
        obtain rfl : y = y' := hy
        dsimp only
        cases op.apply? x y with
        | some z => exact .ok rfl
        | none => exact .error ⟨t, u, hpair, rfl, rfl⟩

/-- The check of the brackets breaks off at tokens of one pair, or at none in either row. -/
theorem Nesting.faultAfter_paired {paired : Token → Token → Prop}
    {ts us openers openers' : List Token} (hkind : ∀ t u, paired t u → u.kind = t.kind)
    (previous : Option TokenKind) (hopeners : List.Forall₂ paired openers openers')
    (h : List.Forall₂ paired ts us) :
    Option.Rel paired (faultAfter previous openers ts) (faultAfter previous openers' us) := by
  induction h generalizing previous openers openers' with
  | nil =>
    cases hopeners with
    | nil => exact .none
    | cons htop => exact .some htop
  | @cons t u ts us htoken hrest ih =>
    rw [faultAfter, faultAfter, hkind t u htoken]
    split
    · exact ih _ (.cons htoken hopeners)
    · split
      · exact .some htoken
      · cases hopeners with
        | nil => exact .some htoken
        | @cons top top' openers openers' htop hopeners =>
          dsimp only
          rw [hkind top top' htop]
          split
          · exact ih _ hopeners
          · exact .some htoken
    · exact ih _ hopeners

namespace Equation

/-- The places of the tokens of a pair, or those where a token is missing. -/
inductive SpansPaired (paired : Token → Token → Prop) (setting setting' : Setting) :
    Span → Span → Prop where
  | token {t u : Token} : paired t u → SpansPaired paired setting setting' t.span u.span
  | stop : SpansPaired paired setting setting' setting.stop setting'.stop

/-- Both outcomes are trees that are alike, of one height, with tokens left that pair up, or they
are faults for one reason. -/
inductive Together (paired : Token → Token → Prop) (setting setting' : Setting) :
    Outcome → Outcome → Prop where
  | ok {p p' : Phrase} {ts us : List Token} {depth : Nat} :
      p.tree.Alike paired setting.answer setting'.answer p'.tree → p'.height = p.height →
      List.Forall₂ paired ts us →
      Together paired setting setting' (.ok p, ⟨ts, depth⟩) (.ok p', ⟨us, depth⟩)
  | error {o o' : Outcome} {reason : Reason} {span span' : Span} :
      o.1 = .error ⟨reason, span⟩ → o'.1 = .error ⟨reason, span'⟩ →
      SpansPaired paired setting setting' span span' → Together paired setting setting' o o'

/-- What is asked of the readers of the phrases inside another one. -/
def Parallel (paired : Token → Token → Prop) (setting setting' : Setting)
    (sub sub' : Nat → Reader → Outcome) : Prop :=
  ∀ (power depth : Nat) (ts us : List Token), List.Forall₂ paired ts us →
    Together paired setting setting' (sub power ⟨ts, depth⟩) (sub' power ⟨us, depth⟩)

section

variable {paired : Token → Token → Prop} {setting setting' : Setting}
  {sub sub' : Nat → Reader → Outcome} {ts us : List Token} {depth : Nat}

/-- What goes on from outcomes that are together, and passes on errors, is together if it is so
after phrases. -/
theorem Together.bind {o o' result result' : Outcome} (h : Together paired setting setting' o o')
    (herror : ∀ e, o.1 = .error e → result.1 = .error e)
    (herror' : ∀ e, o'.1 = .error e → result'.1 = .error e)
    (hok : ∀ p p' ts us depth, o = (.ok p, ⟨ts, depth⟩) → o' = (.ok p', ⟨us, depth⟩) →
      p.tree.Alike paired setting.answer setting'.answer p'.tree → p'.height = p.height →
      List.Forall₂ paired ts us → Together paired setting setting' result result') :
    Together paired setting setting' result result' := by
  cases h with
  | ok htree hheight hahead => exact hok _ _ _ _ _ rfl rfl htree hheight hahead
  | error hf hf' hspan => exact .error (herror _ hf) (herror' _ hf') hspan

theorem failTooDeep_together (h : List.Forall₂ paired ts us) :
    Together paired setting setting' (failTooDeep setting ⟨ts, depth⟩)
      (failTooDeep setting' ⟨us, depth⟩) := by
  cases h with
  | nil => exact .error rfl rfl .stop
  | cons htoken => exact .error rfl rfl (.token htoken)

theorem signed_together (hsub : Parallel paired setting setting' sub sub') {sign sign' : Token}
    (hsign : paired sign sign') (op : Operator) (h : List.Forall₂ paired ts us) :
    Together paired setting setting' (signed sub sign op ⟨ts, depth⟩)
      (signed sub' sign' op ⟨us, depth⟩) := by
  cases hop : op.signPower? with
  | none =>
    simp only [signed, hop]
    exact .error rfl rfl (.token hsign)
  | some power =>
    refine (hsub power depth ts us h).bind (fun _ => signed_error hop)
      (fun _ => signed_error hop) ?_
    intro p p' ts us depth ho ho' htree hheight hahead
    rw [signed_ok hop ho, signed_ok hop ho']
    exact .ok (.unary hsign (by rw [hop]; rfl) htree) (congrArg (· + 1) hheight) hahead

variable (hword : ∀ t u, paired t u → u.word = t.word)

include hword

theorem bracketed_together (hsub : Parallel paired setting setting' sub sub')
    {opener opener' : Token} (hopener : paired opener opener') (shape : Bracket)
    (h : List.Forall₂ paired ts us) :
    Together paired setting setting' (bracketed sub opener shape ⟨ts, depth⟩)
      (bracketed sub' opener' shape ⟨us, depth⟩) := by
  refine (hsub 0 depth ts us h).bind (fun _ => bracketed_error) (fun _ => bracketed_error) ?_
  intro p p' ts us depth ho ho' htree hheight hahead
  cases hahead with
  | nil =>
    rw [bracketed_unclosed ho rfl, bracketed_unclosed ho' rfl]
    exact .error rfl rfl (.token hopener)
  | @cons t u ts us htoken hrest =>
    have hsame : u.kind = t.kind := congrArg Prod.fst (hword t u htoken)
    by_cases hclose : t.kind = .closing shape
    · rw [bracketed_ok ho rfl hclose, bracketed_ok ho' rfl (hsame.trans hclose)]
      exact .ok htree hheight hrest
    · rw [bracketed_mismatched ho rfl hclose, bracketed_mismatched ho' rfl (hsame ▸ hclose)]
      exact .error rfl rfl (.token htoken)

theorem operand_together (hsub : Parallel paired setting setting' sub sub')
    (h : List.Forall₂ paired ts us) :
    Together paired setting setting' (operand setting sub ⟨ts, depth⟩)
      (operand setting' sub' ⟨us, depth⟩) := by
  cases h with
  | nil => exact .error rfl rfl .stop
  | @cons t u ts us htoken hrest =>
    obtain ⟨hsame, hliteral⟩ := Prod.mk.inj (hword t u htoken)
    simp only [operand, hsame, hliteral]
    cases hkind : t.kind with
    | answer => exact .ok (.answer htoken hkind) rfl hrest
    | opening shape => exact bracketed_together hword hsub htoken shape hrest
    | operator op => exact signed_together hsub htoken op hrest
    | int | float =>
      dsimp only
      cases Number.read? t.literal with
      | some x => exact .ok (.number x htoken (by simp [hkind])) rfl hrest
      | none => exact .error rfl rfl (.token htoken)
    | _ => exact .error rfl rfl (.token htoken)

theorem extend_together (hsub : Parallel paired setting setting' sub sub') (power : Nat)
    {left left' : Phrase} (htree : left.tree.Alike paired setting.answer setting'.answer left'.tree)
    (hheight : left'.height = left.height) (h : List.Forall₂ paired ts us) :
    Together paired setting setting' (extend sub power left ⟨ts, depth⟩)
      (extend sub' power left' ⟨us, depth⟩) := by
  -- Every operator adds to the height, so the induction is on what is left up to the greatest one.
  induction hroom : maxHeight - left.height using Nat.strongRecOn
    generalizing left left' depth ts us with
  | ind room ih =>
    cases h with
    | nil =>
      rw [extend_of_ended .nil (.nil _), extend_of_ended .nil (.nil _)]
      exact .ok htree hheight .nil
    | @cons t u ts us htoken hrest =>
      have hsame : u.kind = t.kind := congrArg Prod.fst (hword t u htoken)
      have hahead : List.Forall₂ paired (t :: ts) (u :: us) := .cons htoken hrest
      cases hkind : t.kind with
      | closing shape =>
        have hkind' := hsame.trans hkind
        rw [extend_of_ended (.closing hkind) (.closing hkind _),
          extend_of_ended (.closing hkind') (.closing hkind' _)]
        exact .ok htree hheight hahead
      | operator op =>
        have hkind' := hsame.trans hkind
        by_cases hle : power ≤ op.leftPower
        · refine (hsub op.rightPower depth ts us hrest).bind
            (fun _ he => extend_operator_error rfl hkind hle he)
            (fun _ he => extend_operator_error rfl hkind' hle he) ?_
          intro right right' ts us depth ho ho' hright hsize hrest
          have hboth : max left'.height right'.height + 1 = max left.height right.height + 1 := by
            rw [hheight, hsize]
          by_cases hlimit : max left.height right.height + 1 ≤ maxHeight
          · have hlimit' : max left'.height right'.height + 1 ≤ maxHeight := by rwa [hboth]
            rw [extend_operator rfl hkind hle ho hlimit,
              extend_operator rfl hkind' hle ho' hlimit']
            exact ih _ (by dsimp only; omega) (.binary htoken htree hright) hboth hrest rfl
          · have hover : maxHeight < max left.height right.height + 1 := Nat.lt_of_not_le hlimit
            have hover' : maxHeight < max left'.height right'.height + 1 := by rwa [hboth]
            rw [extend_operator_fails rfl hkind hle ho hover,
              extend_operator_fails rfl hkind' hle ho' hover']
            exact .error rfl rfl (.token htoken)
        · have hlt : op.leftPower < power := Nat.lt_of_not_le hle
          rw [extend_of_ended (.operator hkind) (.operator hkind hlt),
            extend_of_ended (.operator hkind') (.operator hkind' hlt)]
          exact .ok htree hheight hahead
      | _ =>
        rw [extend_missing rfl (by rw [hkind]; rfl) (by rw [hkind]; rfl),
          extend_missing rfl (by rw [hsame, hkind]; rfl) (by rw [hsame, hkind]; rfl)]
        exact .error rfl rfl (.token htoken)

theorem phrase_together (hsub : Parallel paired setting setting' sub sub') (power : Nat)
    (h : List.Forall₂ paired ts us) :
    Together paired setting setting' (phrase setting sub power ⟨ts, depth⟩)
      (phrase setting' sub' power ⟨us, depth⟩) := by
  have hleft : Together paired setting setting' (operand setting sub ⟨ts, depth⟩)
      (operand setting' sub' ⟨us, depth⟩) := operand_together hword hsub h
  refine hleft.bind (fun _ => phrase_error) (fun _ => phrase_error) ?_
  intro p p' ts us depth ho ho' htree hheight hahead
  rw [phrase_ok ho, phrase_ok ho']
  exact extend_together hword hsub power htree hheight hahead

theorem climb_together (levels : Nat) :
    Parallel paired setting setting' (climb setting levels) (climb setting' levels) := by
  induction levels with
  | zero => exact fun power depth ts us h => failTooDeep_together h
  | succ levels ih =>
    intro power depth ts us h
    by_cases hdepth : maxDepth ≤ depth
    · simp only [climb, if_pos hdepth]
      exact failTooDeep_together h
    · have hphrase : Together paired setting setting'
          (phrase setting (climb setting levels) power ⟨ts, depth + 1⟩)
          (phrase setting' (climb setting' levels) power ⟨us, depth + 1⟩) :=
        phrase_together hword ih power h
      simp only [climb, if_neg hdepth, Reader.enter]
      generalize phrase setting (climb setting levels) power ⟨ts, depth + 1⟩ = o at hphrase
      generalize phrase setting' (climb setting' levels) power ⟨us, depth + 1⟩ = o' at hphrase
      cases hphrase with
      | error herror herror' hspan => exact .error herror herror' hspan
      | ok htree hheight hahead => exact .ok htree hheight hahead

end

end Equation

end PromptCalc
