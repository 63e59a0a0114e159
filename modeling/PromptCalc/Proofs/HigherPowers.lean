import PromptCalc.Proofs.Prompts
import PromptCalc.Proofs.ReadingExtent
import PromptCalc.Session

/-!
# Higher powers

What is read with a higher least power is the beginning of what is read with a lower one: the
operand is the same, and the operators are the same up to the first one that has not enough power.
So the tree is found again by going from the root to the left.
-/
namespace PromptCalc

namespace Expr

/-- The first tree is reached from the second through left operands only. -/
inductive LeftPart (e : Expr) : Expr → Prop where
  | refl : LeftPart e e
  | left {op : Operator} {l r : Expr} {token : Option Token} :
      LeftPart e l → LeftPart e (binary op l r token)

theorem LeftPart.of_binary {op : Operator} {l r e : Expr} {token : Option Token}
    (h : LeftPart (binary op l r token) e) : LeftPart l e := by
  induction h with
  | refl => exact .left .refl
  | left _ ih => exact .left ih

end Expr

namespace Equation

/-- What is read is at the left of the phrase, and leaves the tokens that the phrase does and maybe
some in front of them. -/
def Begins (o : Outcome) (p : Phrase) (r : Reader) : Prop :=
  ∃ q r', o = (.ok q, r') ∧ q.tree.LeftPart p.tree ∧ r.ahead <:+ r'.ahead

section

variable {setting : Setting} {sub : Nat → Reader → Outcome} {least power : Nat} {left p : Phrase}
  {r r' : Reader}

theorem leftPart_extend (h : extend sub power left r = (.ok p, r')) :
    left.tree.LeftPart p.tree := by
  fun_induction extend sub power left r with
  | case1 | case2 | case3 =>
    cases h
    exact .refl
  | case4 => cases h
  | case5 => simp [fail] at h
  | case6 left r t ts hahead op hkind hle right r₁ hright height hheight _ ih =>
    exact (ih h).of_binary
  | case7 => simp [fail] at h

theorem begins_here (hend : Ended r.ahead) (hbelow : Below power r.ahead)
    (hleft : left.tree.LeftPart p.tree) (hrest : r'.ahead <:+ r.ahead) :
    Begins (extend sub power left r) p r' :=
  ⟨left, r, extend_of_ended hend hbelow, hleft, hrest⟩

/-- With a higher power a phrase is extended by some of the same operators, from the first one on.
-/
theorem extend_begins (hsub : Confines setting sub) (hle : least ≤ power)
    (h : extend sub least left r = (.ok p, r')) : Begins (extend sub power left r) p r' := by
  fun_induction extend sub least left r with
  | case1 left r hahead =>
    cases h
    exact begins_here (hahead ▸ .nil) (hahead ▸ .nil power) .refl List.suffix_rfl
  | case2 left r t ts hahead shape hkind =>
    cases h
    exact begins_here (hahead ▸ .closing hkind) (hahead ▸ .closing hkind power) .refl
      List.suffix_rfl
  | case3 left r t ts hahead op hkind hlt =>
    cases h
    exact begins_here (hahead ▸ .operator hkind)
      (hahead ▸ .operator hkind (Nat.lt_of_lt_of_le hlt hle)) .refl List.suffix_rfl
  | case4 => cases h
  | case5 => simp [fail] at h
  | case6 left r t ts hahead op hkind hnot right r₁ hright height hheight _ ih =>
    by_cases hpower : op.leftPower < power
    · -- Here the higher power stops, and the lower one goes on behind the whole phrase so far.
      have hrest : Confined setting r₁ (.ok p, r') := h ▸ extend_confined hsub least _ r₁
      have hbehind : Confined setting r (.ok right, r₁) :=
        hright ▸ right_confined hsub hahead op.rightPower
      exact begins_here (hahead ▸ .operator hkind) (hahead ▸ .operator hkind hpower)
        (leftPart_extend h).of_binary (hrest.ahead.trans hbehind.ahead)
    · rw [extend_operator hahead hkind (Nat.le_of_not_lt hpower) hright (Nat.le_of_not_lt hheight)]
      exact ih h
  | case7 => simp [fail] at h

theorem phrase_begins (hsub : Confines setting sub) (hle : least ≤ power)
    (h : phrase setting sub least r = (.ok p, r')) : Begins (phrase setting sub power r) p r' := by
  rcases hoperand : operand setting sub r with ⟨e | left, r₁⟩
  · simp [phrase, hoperand] at h
  · rw [phrase_ok hoperand] at h ⊢
    exact extend_begins hsub hle h

/-- A phrase that is read with some least power begins with one that is read with a higher one. -/
theorem read_begins (hle : least ≤ power) (h : read setting least r = (.ok p, r')) :
    Begins (read setting power r) p r' := by
  rw [read_eq] at h ⊢
  split at h
  · unfold failTooDeep at h
    split at h <;> cases h
  · next hdepth =>
    obtain ⟨hphrase, rfl⟩ := Prod.mk.inj h
    obtain ⟨q, r₁, hq, hleft, hahead⟩ :=
      phrase_begins (read_confined setting) hle (Prod.ext hphrase rfl)
    rw [if_neg hdepth, hq]
    exact ⟨q, r₁.leave, rfl, hleft, hahead⟩

end

end Equation

namespace Session

variable {s s' : Session}

/-- With a higher least power an equation is read too, in no more tokens, and the tree is the same
or on the left of the one that is read with the lower power. -/
theorem readEquation_of_le {least power : Nat} {tree : Expr} (hle : least ≤ power)
    (h : s.readEquation least = (.ok tree, s')) :
    ∃ tree' s'', s.readEquation power = (.ok tree', s'') ∧
      s''.stream.cursor ≤ s'.stream.cursor ∧ tree'.LeftPart tree := by
  obtain ⟨p, r, hread, rfl, rfl⟩ := exists_phrase_of_readEquation h
  obtain ⟨q, r', hbegins, hleft, hahead⟩ := Equation.read_begins hle hread
  refine ⟨q.tree, s.resume r', ?_, Nat.sub_le_sub_left hahead.length_le _, hleft⟩
  rw [readEquation, hbegins]

/-- A product of three tokens stands at the beginning of a sum of five. -/
theorem readEquation_of_product_of_sum :
    ∃ s tree s' tree' s'', s = new.run [.input "calc '2*3+4'", .readPrompt] ∧ 0 ≤ 2 ∧
      s.readEquation 0 = (.ok tree, s') ∧ s'.stream.cursor = 5 ∧
      s.readEquation 2 = (.ok tree', s'') ∧ s''.stream.cursor = 3 ∧
      s''.stream.cursor ≤ s'.stream.cursor ∧ tree'.LeftPart tree := by
  obtain ⟨tree, s', hsum, hfive⟩ : ∃ tree s',
      (new.run [.input "calc '2*3+4'", .readPrompt]).readEquation 0 = (.ok tree, s') ∧
        s'.stream.cursor = 5 := ⟨_, _, by with_unfolding_all rfl, by with_unfolding_all rfl⟩
  obtain ⟨tree', s'', hproduct, hcursor, hleft⟩ := readEquation_of_le (Nat.zero_le 2) hsum
  have hthree : s''.stream.cursor = 3 := by
    have hcall := congrArg (fun o => o.2.stream.cursor) hproduct
    exact hcall.symm.trans (by with_unfolding_all rfl)
  exact ⟨_, tree, s', tree', s'', rfl, Nat.zero_le 2, hsum, hfive, hproduct, hthree, hcursor, hleft⟩

end Session

end PromptCalc
