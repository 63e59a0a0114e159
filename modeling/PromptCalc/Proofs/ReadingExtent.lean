import PromptCalc.Proofs.ReadingSound

/-!
# How far reading goes

However the reading of a phrase ends, it has taken tokens from the front only and left no phrase
open, and a fault is at one of those tokens or where one is missing. So the phrases inside a phrase
are all read one level below it, and the bound on the recursion is never what ends it.
-/
namespace PromptCalc.Equation

/-- From the reader on, reading has ended with the outcome within its tokens, and at its depth. -/
structure Confined (setting : Setting) (r : Reader) (o : Outcome) : Prop where
  depth : o.2.depth = r.depth
  ahead : o.2.ahead <:+ r.ahead
  fault : ∀ e, o.1 = .error e → e.span = setting.stop ∨ ∃ t ∈ r.ahead, e.span = t.span

/-- What a reader of phrases is asked to do for the phrases inside another one. -/
def Confines (setting : Setting) (sub : Nat → Reader → Outcome) : Prop :=
  ∀ (power : Nat) (r : Reader), Confined setting r (sub power r)

section

variable {setting : Setting} {sub sub' : Nat → Reader → Outcome} {r r' : Reader} {o : Outcome}

theorem Confined.mono (h : Confined setting r' o) (hdepth : r'.depth = r.depth)
    (hahead : r'.ahead <:+ r.ahead) : Confined setting r o := by
  refine ⟨h.depth.trans hdepth, h.ahead.trans hahead, fun e he => (h.fault e he).imp_right ?_⟩
  rintro ⟨t, ht, hspan⟩
  exact ⟨t, hahead.subset ht, hspan⟩

theorem confined_ok {p : Phrase} (hdepth : r'.depth = r.depth) (hahead : r'.ahead <:+ r.ahead) :
    Confined setting r (.ok p, r') :=
  ⟨hdepth, hahead, nofun⟩

theorem confined_fail {reason : Reason} {t : Token} (ht : t ∈ r.ahead)
    (hdepth : r'.depth = r.depth) (hahead : r'.ahead <:+ r.ahead) :
    Confined setting r (fail reason t.span r') := by
  refine ⟨hdepth, hahead, fun e he => .inr ⟨t, ht, ?_⟩⟩
  rw [← Except.error.inj he]

theorem failTooDeep_confined (setting : Setting) (r : Reader) :
    Confined setting r (failTooDeep setting r) := by
  unfold failTooDeep
  split
  · exact ⟨rfl, List.suffix_rfl, fun e he => .inl (by rw [← Except.error.inj he])⟩
  · next t ts hahead => exact confined_fail (by simp [hahead]) rfl List.suffix_rfl

theorem bracketed_confined (hsub : Confines setting sub) (opener : Token) (shape : Bracket)
    (r : Reader) :
    Confined setting ⟨opener :: r.ahead, r.depth⟩ (bracketed sub opener shape r) := by
  have hinner : Confined setting ⟨opener :: r.ahead, r.depth⟩ (sub 0 r) :=
    (hsub 0 r).mono rfl (List.suffix_cons ..)
  unfold bracketed
  rcases hread : sub 0 r with ⟨e | inner, r₁⟩ <;> rw [hread] at hinner
  · exact hinner
  · dsimp only
    split
    · exact confined_fail List.mem_cons_self hinner.depth hinner.ahead
    · next t ts hahead =>
      have hall : t :: ts <:+ opener :: r.ahead := hahead ▸ hinner.ahead
      have hrest : ts <:+ opener :: r.ahead := (List.suffix_cons t ts).trans hall
      split
      · exact confined_ok hinner.depth hrest
      · exact confined_fail (hall.subset List.mem_cons_self) hinner.depth hrest

theorem signed_confined (hsub : Confines setting sub) (sign : Token) (op : Operator)
    (r : Reader) : Confined setting ⟨sign :: r.ahead, r.depth⟩ (signed sub sign op r) := by
  have hbehind : r.ahead <:+ sign :: r.ahead := List.suffix_cons ..
  unfold signed
  split
  · exact confined_fail List.mem_cons_self rfl hbehind
  · next power _ =>
    have hoperand : Confined setting ⟨sign :: r.ahead, r.depth⟩ (sub power r) :=
      (hsub power r).mono rfl hbehind
    rcases hread : sub power r with ⟨e | operand, r₁⟩ <;> rw [hread] at hoperand
    · exact hoperand
    · exact confined_ok hoperand.depth hoperand.ahead

theorem operand_confined (hsub : Confines setting sub) (r : Reader) :
    Confined setting r (operand setting sub r) := by
  obtain ⟨_ | ⟨t, ts⟩, depth⟩ := r
  · exact ⟨rfl, List.suffix_rfl, fun e he => .inl (by rw [← Except.error.inj he])⟩
  · have hbehind : ts <:+ t :: ts := List.suffix_cons ..
    simp only [operand]
    split
    · split
      · exact confined_ok rfl hbehind
      · exact confined_fail List.mem_cons_self rfl hbehind
    · split
      · exact confined_ok rfl hbehind
      · exact confined_fail List.mem_cons_self rfl hbehind
    · exact confined_ok rfl hbehind
    · exact bracketed_confined hsub t _ ⟨ts, depth⟩
    · exact signed_confined hsub t _ ⟨ts, depth⟩
    · exact confined_fail List.mem_cons_self rfl hbehind

theorem right_confined (hsub : Confines setting sub) {t : Token} {ts : List Token}
    (hahead : r.ahead = t :: ts) (power : Nat) :
    Confined setting r (sub power { r with ahead := ts }) :=
  (hsub power { r with ahead := ts }).mono rfl (hahead ▸ List.suffix_cons t ts)

theorem extend_confined (hsub : Confines setting sub) (power : Nat) (left : Phrase) (r : Reader) :
    Confined setting r (extend sub power left r) := by
  -- Every right operand leaves a reader that is confined by the one before it.
  fun_induction extend sub power left r with
  | case1 | case2 | case3 => exact confined_ok rfl List.suffix_rfl
  | case4 left r t ts hahead op hkind hle e r₁ hread =>
    have hright := right_confined hsub hahead op.rightPower
    rwa [hread] at hright
  | case5 left r t ts hahead op hkind hle right r₁ hread =>
    have hright := right_confined hsub hahead op.rightPower
    rw [hread] at hright
    exact confined_fail (by simp [hahead]) hright.depth hright.ahead
  | case6 left r t ts hahead op hkind hle right r₁ hread height hheight _ ih =>
    have hright := right_confined hsub hahead op.rightPower
    rw [hread] at hright
    exact ih.mono hright.depth hright.ahead
  | case7 left r t ts hahead => exact confined_fail (by simp [hahead]) rfl List.suffix_rfl

theorem phrase_confined (hsub : Confines setting sub) (power : Nat) (r : Reader) :
    Confined setting r (phrase setting sub power r) := by
  have hleft := operand_confined hsub r
  rcases hread : operand setting sub r with ⟨e | left, r₁⟩ <;> rw [hread] at hleft
  · simpa only [phrase, hread] using hleft
  · rw [phrase_ok hread]
    exact (extend_confined hsub power left r₁).mono hleft.depth hleft.ahead

end

theorem climb_confined (setting : Setting) (levels : Nat) :
    Confines setting (climb setting levels) := by
  induction levels with
  | zero => exact fun power r => failTooDeep_confined setting r
  | succ levels ih =>
    intro power r
    simp only [climb]
    split
    · exact failTooDeep_confined setting r
    · have hphrase := phrase_confined ih power r.enter
      exact ⟨Nat.sub_eq_of_eq_add hphrase.depth, hphrase.ahead, hphrase.fault⟩

theorem read_confined (setting : Setting) : Confines setting (read setting) :=
  climb_confined setting (maxDepth + 1)

section Congruence

variable {setting : Setting} {sub sub' : Nat → Reader → Outcome} {depth : Nat} {r : Reader}

def AgreeAt (depth : Nat) (sub sub' : Nat → Reader → Outcome) : Prop :=
  ∀ (power : Nat) (r : Reader), r.depth = depth → sub power r = sub' power r

theorem bracketed_congr (h : AgreeAt depth sub sub') (hr : r.depth = depth) (opener : Token)
    (shape : Bracket) : bracketed sub opener shape r = bracketed sub' opener shape r := by
  simp only [bracketed, h 0 r hr]

theorem signed_congr (h : AgreeAt depth sub sub') (hr : r.depth = depth) (sign : Token)
    (op : Operator) : signed sub sign op r = signed sub' sign op r := by
  simp only [signed, h _ r hr]

theorem operand_congr (h : AgreeAt depth sub sub') (hr : r.depth = depth) :
    operand setting sub r = operand setting sub' r := by
  obtain ⟨_ | ⟨t, ts⟩, d⟩ := r
  · rfl
  · have hbehind : (Reader.mk ts d).depth = depth := hr
    simp only [operand, bracketed_congr h hbehind, signed_congr h hbehind]

theorem extend_congr (hsub : Confines setting sub) (h : AgreeAt depth sub sub')
    (hr : r.depth = depth) (power : Nat) (left : Phrase) :
    extend sub power left r = extend sub' power left r := by
  fun_induction extend sub power left r with
  | case1 left r hahead => rw [extend, hahead]
  | case2 left r t ts hahead shape hkind =>
    rw [extend, hahead]
    simp only [hkind]
  | case3 left r t ts hahead op hkind hlt =>
    rw [extend, hahead]
    simp only [hkind, if_pos hlt]
  | case4 left r t ts hahead op hkind hle e r₁ hread =>
    rw [h op.rightPower { r with ahead := ts } hr] at hread
    rw [extend, hahead]
    simp only [hkind, if_neg hle, hread]
  | case5 left r t ts hahead op hkind hle right r₁ hread height hheight =>
    rw [h op.rightPower { r with ahead := ts } hr] at hread
    rw [extend, hahead]
    simp only [hkind, if_neg hle, hread]
    rw [dif_pos hheight]
  | case6 left r t ts hahead op hkind hle right r₁ hread height hheight _ ih =>
    have hdepth : r₁.depth = r.depth := by
      have hright := (hsub op.rightPower { r with ahead := ts }).depth
      rwa [hread] at hright
    rw [h op.rightPower { r with ahead := ts } hr] at hread
    rw [ih (hdepth.trans hr), extend.eq_def sub' power left r, hahead]
    simp only [hkind, if_neg hle, hread]
    rw [dif_neg hheight]
  | case7 left r t ts hahead hclosing hoperator =>
    rw [extend, hahead]
    dsimp only
    split <;> simp_all

theorem phrase_congr (hsub : Confines setting sub) (h : AgreeAt depth sub sub')
    (hr : r.depth = depth) (power : Nat) :
    phrase setting sub power r = phrase setting sub' power r := by
  have hleft := operand_confined hsub r
  rcases hread : operand setting sub r with ⟨e | left, r₁⟩ <;> rw [hread] at hleft
  · simp only [phrase, hread, ← operand_congr h hr]
  · simp only [phrase, hread, ← operand_congr h hr]
    exact extend_congr hsub h (hleft.depth.trans hr) power left

end Congruence

section Bound

variable {setting : Setting} {levels : Nat}

theorem climb_succ_eq {r : Reader} (h : maxDepth ≤ levels + r.depth) (power : Nat) :
    climb setting (levels + 1) power r = climb setting levels power r := by
  induction levels generalizing power r with
  | zero =>
    have hdepth : maxDepth ≤ r.depth := Nat.zero_add r.depth ▸ h
    simp only [climb, if_pos hdepth]
  | succ levels ih =>
    have hinside : AgreeAt (r.depth + 1) (climb setting (levels + 1)) (climb setting levels) := by
      intro power r' hr'
      exact ih (by omega) power
    rw [climb, climb, phrase_congr (climb_confined setting (levels + 1)) hinside rfl power]

theorem climb_add_eq {r : Reader} (h : maxDepth ≤ levels + r.depth) (more power : Nat) :
    climb setting (levels + more) power r = climb setting levels power r := by
  induction more with
  | zero => rfl
  | succ more ih => rw [← Nat.add_assoc, climb_succ_eq (by omega), ih]

/-- Beyond the levels that are left up to the greatest one, the bound on the recursion is no
matter. -/
theorem climb_eq_read {r : Reader} (h : maxDepth ≤ levels + r.depth) (power : Nat) :
    climb setting levels power r = read setting power r := by
  have hread : maxDepth ≤ maxDepth + 1 + r.depth := by omega
  calc climb setting levels power r
      = climb setting (levels + (maxDepth + 1)) power r := (climb_add_eq h _ power).symm
    _ = climb setting (maxDepth + 1 + levels) power r := by rw [Nat.add_comm]
    _ = read setting power r := climb_add_eq hread levels power

/-- A phrase is read by reading the phrases inside it one level below, with no bound but the
greatest depth. -/
theorem read_eq (setting : Setting) (power : Nat) (r : Reader) :
    read setting power r =
      if maxDepth ≤ r.depth then failTooDeep setting r
      else
        match phrase setting (read setting) power r.enter with
        | (result, r) => (result, r.leave) := by
  have hbound : maxDepth ≤ maxDepth + 2 + r.depth := by omega
  rw [← climb_eq_read hbound power, climb]
  rfl

end Bound

end PromptCalc.Equation
