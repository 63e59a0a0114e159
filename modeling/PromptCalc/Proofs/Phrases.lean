import PromptCalc.Proofs.Safety

/-!
# The phrase that is read

With each least power an equation is read as a phrase of one category, wherever the reading starts.
The phrase takes the tokens that are passed, and in front of the tokens left it is the only one that
goes up to an operator of less power. A session in which no phrase is found has only passed tokens.
-/
namespace PromptCalc

open Equation

namespace Category

/-- With the least power, what is read is a phrase of the category. -/
def ReadWith (power : Nat) : Category → Prop
  | sum => power ≤ 1
  | product => 2 ≤ power ∧ power ≤ 3
  | sign => 4 ≤ power ∧ power ≤ 6
  | signed | atom => 7 ≤ power
  | chain => False

theorem ReadWith.fits {c : Category} {power : Nat} (h : c.ReadWith power) : c.Fits power := by
  cases c with
  | sum => exact h
  | product | sign => exact h.2
  | signed | atom => trivial
  | chain => exact h.elim

/-- What is read can be taken as a phrase of the category that belongs to the power, and operators
of less power that do not extend its last operand do not extend it then. -/
theorem Fits.exists_readWith {c : Category} {power : Nat} (h : c.Fits power) :
    ∃ d, c.Widens d ∧ d.ReadWith power ∧
      ∀ op : Operator, op.leftPower < power → op.leftPower < c.stop → op.leftPower < d.stop := by
  have hcases : power ≤ 1 ∨ (2 ≤ power ∧ power ≤ 3) ∨ (4 ≤ power ∧ power ≤ 6) ∨ 7 ≤ power := by
    omega
  rcases hcases with hsum | hproduct | hsign | hatom
  · exact ⟨sum, c.widens_sum, hsum, fun op hlt _ => Nat.lt_of_lt_of_le hlt (hsum.trans (by decide))⟩
  · have hc : c ≠ sum := by
      rintro rfl
      exact absurd h (Nat.not_le_of_lt hproduct.1)
    exact ⟨product, widens_product hc, hproduct,
      fun op hlt _ => Nat.lt_of_lt_of_le hlt (hproduct.2.trans (by decide))⟩
  · refine ⟨sign, widens_sign (h.mono hsign.1), hsign, fun op hlt _ => ?_⟩
    -- No operator has the power of a sign, so below that of `^` all are below that of the sign.
    have hsix : op.leftPower < 6 := Nat.lt_of_lt_of_le hlt hsign.2
    cases op <;> simp_all [Operator.leftPower, stop]
  · refine ⟨c, .refl, ?_, fun op _ hstop => hstop⟩
    cases c <;> simp only [Fits, ReadWith] at * <;> omega

end Category

namespace Session

/-- The second session has passed tokens that are ahead in the first, and is like it otherwise. -/
structure Proceeds (s s' : Session) : Prop where
  onward : s.stream.cursor ≤ s'.stream.cursor
  inside : s'.stream.cursor ≤ s.stream.size
  rest : s' = { s with stream := { s.stream with cursor := s'.stream.cursor } }

/-- From the first session to the second, the tokens of the phrase have been passed. It keeps within
the limits, and nothing follows that would extend it or its last operand. -/
structure Takes (s : Session) (power : Nat) {c : Category} (d : Derivation c) (s' : Session) :
    Prop where
  category : c.ReadWith power
  proceeds : s.Proceeds s'
  moves : s.stream.cursor < s'.stream.cursor
  tokens : s.stream.tokens.extract s.stream.cursor s'.stream.cursor = d.tokens
  levels : d.levels ≤ maxDepth
  height : (d.tree s.answer).BinaryWithin maxHeight
  ended : Ended s'.stream.ahead
  below : Below power s'.stream.ahead
  stop : Below c.stop s'.stream.ahead

variable {s s' : Session} {power : Nat}

theorem Proceeds.tokens (h : s.Proceeds s') : s'.stream.tokens = s.stream.tokens := by
  rw [h.rest]

theorem Proceeds.length_ahead (h : s.Proceeds s') :
    s'.stream.ahead.length = s.stream.size - s'.stream.cursor := by
  rw [TokenStream.ahead, h.tokens, List.length_drop]
  rfl

theorem Proceeds.ahead (h : s.Proceeds s') :
    s.stream.ahead =
      s.stream.tokens.extract s.stream.cursor s'.stream.cursor ++ s'.stream.ahead := by
  have hcursor : s.stream.cursor + (s'.stream.cursor - s.stream.cursor) = s'.stream.cursor :=
    Nat.add_sub_cancel' h.onward
  have hleft : s'.stream.ahead =
      s.stream.ahead.drop (s'.stream.cursor - s.stream.cursor) := by
    rw [TokenStream.ahead, TokenStream.ahead, List.drop_drop, hcursor, h.tokens]
  rw [hleft]
  exact (List.take_append_drop ..).symm

theorem Proceeds.resume (h : s.Proceeds s') : s.resume ⟨s'.stream.ahead, s.depth⟩ = s' := by
  have hcursor : s.stream.size - s'.stream.ahead.length = s'.stream.cursor := by
    rw [h.length_ahead]
    exact Nat.sub_sub_self h.inside
  rw [Session.resume, TokenStream.withLeft, hcursor]
  exact h.rest.symm

theorem Consistent.proceeds (h : s.Consistent) {r : Reader} (hdepth : r.depth = s.depth)
    (hahead : r.ahead <:+ s.stream.ahead) : s.Proceeds (s.resume r) := by
  have hlength : r.ahead.length ≤ s.stream.size - s.stream.cursor :=
    s.stream.length_ahead ▸ hahead.length_le
  refine ⟨?_, Nat.sub_le .., ?_⟩
  · have hcursor := h.cursor
    show s.stream.cursor ≤ s.stream.size - r.ahead.length
    omega
  · rw [Session.resume, hdepth]
    rfl

theorem Consistent.proceeds_readEquation (h : s.Consistent) (power : Nat) :
    s.Proceeds (s.readEquation power).2 := by
  obtain ⟨r, hr, hdepth, hahead⟩ := s.exists_resume_readEquation power
  rw [hr]
  exact h.proceeds hdepth hahead

theorem Consistent.exists_takes (h : s.Consistent) {tree : Expr}
    (hread : s.readEquation power = (.ok tree, s')) :
    ∃ (c : Category) (d : Derivation c), s.Takes power d s' ∧ d.tree s.answer = tree := by
  have hproceeds : s.Proceeds s' := by
    have hcall := h.proceeds_readEquation power
    rwa [hread] at hcall
  obtain ⟨p, r, hphrase, rfl, rfl⟩ := exists_phrase_of_readEquation hread
  obtain ⟨c, d, hd, hfit, hended, hbelow⟩ := climb_sound _ _ _ _ _ _ hphrase
  obtain ⟨k, hwiden, hcategory, hstop⟩ := hfit.exists_readWith
  obtain ⟨e, he⟩ := d.exists_recast hwiden
  have hahead : s.stream.ahead = e.tokens ++ r.ahead := he.tokens ▸ hd.ahead
  have hleft : (s.resume r).stream.ahead = r.ahead :=
    ahead_resume (hahead ▸ List.suffix_append ..)
  have htokens : s.stream.tokens.extract s.stream.cursor (s.resume r).stream.cursor = e.tokens := by
    have hboth := hproceeds.ahead
    rw [hleft, hahead] at hboth
    exact (List.append_cancel_right hboth).symm
  have hadmitted : Admitted s.setting s.depth e := hd.admitted.recast he
  refine ⟨k, e, ⟨hcategory, hproceeds, ?_, htokens, ?_, hadmitted.2, hleft ▸ hended, hleft ▸ hbelow,
    ?_⟩, ?_⟩
  · by_contra hle
    refine e.tokens_ne_nil ?_
    rw [← htokens, List.extract_eq_take_drop, Nat.sub_eq_zero_of_le (Nat.le_of_not_lt hle)]
    rfl
  · exact Nat.le_trans (Nat.le_add_left ..) hadmitted.1
  · rw [hleft]
    exact fun t ht op hop => hstop op (hbelow t ht op hop) (hd.stop t ht op hop)
  · rw [he.tree, hd.phrase]
    rfl

theorem Consistent.readEquation_of_takes (h : s.Consistent) {c : Category} {d : Derivation c}
    (htakes : s.Takes power d s') : s.readEquation power = (.ok (d.tree s.answer), s') := by
  have hreader : s.reader = ⟨d.tokens ++ s'.stream.ahead, s.depth⟩ := by
    rw [reader, htakes.proceeds.ahead, htakes.tokens]
  have hadmitted : Admitted s.setting s.depth d := by
    refine ⟨?_, htakes.height⟩
    rw [h.depth, Nat.zero_add]
    exact htakes.levels
  have hread : read s.setting power s.reader =
      (.ok (.ofDerivation s.setting d), ⟨s'.stream.ahead, s.depth⟩) := by
    rw [hreader]
    exact ((opens s.setting d).climb (maxDepth + 1) s.depth power s'.stream.ahead (by omega)
      htakes.category.fits htakes.ended htakes.below htakes.stop).1 hadmitted
  rw [readEquation, hread]
  dsimp only
  rw [htakes.proceeds.resume]
  rfl

/-- In every session that calls may lead to, and with every least power, an equation is read exactly
as the phrase of the grammar that can be taken from the tokens ahead. If there is none, nothing but
the place among the tokens has changed, and it has not gone back. -/
theorem readEquation_eq_ok_iff (h : s.Reachable) (power : Nat) :
    (∀ tree s', s.readEquation power = (.ok tree, s') ↔
      ∃ (c : Category) (d : Derivation c), s.Takes power d s' ∧ d.tree s.answer = tree) ∧
    ∀ e s', s.readEquation power = (.error e, s') → s.Proceeds s' := by
  refine ⟨fun tree s' => ⟨h.consistent.exists_takes, ?_⟩, fun e s' hread => ?_⟩
  · rintro ⟨c, d, htakes, rfl⟩
    exact h.consistent.readEquation_of_takes htakes
  · have hcall := h.consistent.proceeds_readEquation power
    rwa [hread] at hcall

/-- Among tokens with an unmatched bracket, a product is read up to the bracket, and then nothing.
-/
theorem readEquation_of_unmatched :
    ∃ s tree s', s = new.run [.input "calc '2*-1^3)+4'", .readPrompt] ∧
      Nesting.fault? s.stream.tokens = some ⟨.closing .round, ")", ⟨12, 1⟩⟩ ∧
      s.readEquation 2 = (.ok tree, s') ∧ s'.stream.cursor = 6 ∧
      (∃ (c : Category) (d : Derivation c), s.Takes 2 d s' ∧ d.tree s.answer = tree) ∧
      s'.Proceeds (s'.readEquation 0).2 ∧ (s'.readEquation 0).2.stream.cursor = 7 := by
  have hreachable : (new.run [.input "calc '2*-1^3)+4'", .readPrompt]).Reachable :=
    ⟨new, _, .new, rfl⟩
  have hafter : (new.run [.input "calc '2*-1^3)+4'", .readPrompt, .readEquation 2]).Reachable :=
    ⟨new, _, .new, rfl⟩
  exact ⟨_, _, _, rfl, by with_unfolding_all rfl, by with_unfolding_all rfl,
    by with_unfolding_all rfl,
    ((readEquation_eq_ok_iff hreachable 2).1 _ _).mp (by with_unfolding_all rfl),
    (readEquation_eq_ok_iff hafter 0).2 _ _ (by with_unfolding_all rfl), by with_unfolding_all rfl⟩

end Session

end PromptCalc
