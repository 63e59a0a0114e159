import PromptCalc.Proofs.ReadingExtent
import Mathlib.Logic.Relation

/-!
# Reading step by step

A phrase is read in pieces, from one phrase inside it to the next. While a phrase inside is read,
the phrases around it wait, the innermost one first. Taking one piece at a time comes to the same
as reading.
-/
namespace PromptCalc.Equation

/-- Where a phrase has another one inside it. -/
inductive Gap where
  | bracket (opener : Token) (shape : Bracket)
  | sign (sign : Token) (op : Operator)
  | right (left : Phrase) (op : Operator) (t : Token)

/-- A gap that has been reached, and the least power of the phrase that is wanted there. -/
structure Wanted where
  gap : Gap
  power : Nat
  reader : Reader

/-- The first operand of a phrase, or the gap in it. -/
def firstPiece (setting : Setting) (r : Reader) : Outcome ⊕ Wanted :=
  match r.ahead with
  | [] => .inl (fail .missingOperand setting.stop r)
  | t :: ts =>
    let r := { r with ahead := ts }
    match t.kind with
    | .int | .float =>
      match Number.read? t.literal with
      | some number => .inl (.ok ⟨.value number (some t), 1⟩, r)
      | none => .inl (fail .invalidNumber t.span r)
    | .answer => .inl (.ok ⟨.value setting.answer (some t), 1⟩, r)
    | .opening shape => .inr ⟨.bracket t shape, 0, r⟩
    | .operator op =>
      match op.signPower? with
      | none => .inl (fail .notASign t.span r)
      | some power => .inr ⟨.sign t op, power, r⟩
    | _ => .inl (fail .notANumber t.span r)

inductive FirstPiece (r : Reader) : Outcome ⊕ Wanted → Prop where
  | fault (e : EquationFault) (ts : List Token) : FirstPiece r (.inl (.error e, ⟨ts, r.depth⟩))
  | value (x : Float) (t : Token) (ts : List Token) :
      FirstPiece r (.inl (.ok ⟨.value x (some t), 1⟩, ⟨ts, r.depth⟩))
  | bracket (opener : Token) (shape : Bracket) (ts : List Token) :
      FirstPiece r (.inr ⟨.bracket opener shape, 0, ⟨ts, r.depth⟩⟩)
  | sign (sign : Token) (op : Operator) (power : Nat) (ts : List Token) :
      FirstPiece r (.inr ⟨.sign sign op, power, ⟨ts, r.depth⟩⟩)

/-- The end of a phrase behind its left part, or the gap behind the next operator. -/
def nextPiece (minPower : Nat) (left : Phrase) (r : Reader) : Outcome ⊕ Wanted :=
  match r.ahead with
  | [] => .inl (.ok left, r)
  | t :: ts =>
    match t.kind with
    | .closing _ => .inl (.ok left, r)
    | .operator op =>
      if op.leftPower < minPower then .inl (.ok left, r)
      else .inr ⟨.right left op t, op.rightPower, { r with ahead := ts }⟩
    | _ => .inl (fail .missingOperator t.span r)

inductive NextPiece (left : Phrase) (r : Reader) : Outcome ⊕ Wanted → Prop where
  | fault (e : EquationFault) : NextPiece left r (.inl (.error e, r))
  | whole : NextPiece left r (.inl (.ok left, r))
  | right (op : Operator) (t : Token) (power : Nat) (ts : List Token) :
      NextPiece left r (.inr ⟨.right left op t, power, ⟨ts, r.depth⟩⟩)

/-- What a phrase comes to with another one in its gap. -/
def fill (gap : Gap) (inner : Phrase) (r : Reader) : Outcome :=
  match gap with
  | .bracket opener shape =>
    match r.ahead with
    | [] => fail .unclosedBracket opener.span r
    | t :: ts =>
      let r := { r with ahead := ts }
      if t.kind = .closing shape then (.ok inner, r) else fail .mismatchedBracket t.span r
  | .sign sign op => (.ok ⟨.unary op inner.tree (some sign), inner.height + 1⟩, r)
  | .right left op t =>
    let height := max left.height inner.height + 1
    if maxHeight < height then fail .tooDeep t.span r
    else (.ok ⟨.binary op left.tree inner.tree (some t), height⟩, r)

inductive Fills (inner : Phrase) : Gap → Phrase → Prop where
  | bracket (opener : Token) (shape : Bracket) : Fills inner (.bracket opener shape) inner
  | sign (sign : Token) (op : Operator) :
      Fills inner (.sign sign op) ⟨.unary op inner.tree (some sign), inner.height + 1⟩
  | right (left : Phrase) (op : Operator) (t : Token) :
      max left.height inner.height + 1 ≤ maxHeight →
      Fills inner (.right left op t)
        ⟨.binary op left.tree inner.tree (some t), max left.height inner.height + 1⟩

def Outcome.andThen (o : Outcome) (more : Phrase → Reader → Outcome) : Outcome :=
  match o with
  | (.error e, r) => (.error e, r)
  | (.ok p, r) => more p r

def filled (sub : Nat → Reader → Outcome) (w : Wanted) : Outcome :=
  (sub w.power w.reader).andThen (fill w.gap)

section Pieces

variable {setting : Setting} {sub : Nat → Reader → Outcome} {power : Nat} {left : Phrase}
  {r : Reader} {w : Wanted} {piece : Outcome ⊕ Wanted}

theorem operand_eq (setting : Setting) (sub : Nat → Reader → Outcome) (r : Reader) :
    operand setting sub r = (firstPiece setting r).elim id (filled sub) := by
  obtain ⟨_ | ⟨t, ts⟩, depth⟩ := r
  · rfl
  · cases hkind : t.kind with
    | int | float =>
      simp only [operand, firstPiece, hkind]
      cases Number.read? t.literal <;> rfl
    | opening shape =>
      simp only [operand, firstPiece, hkind, bracketed, Sum.elim_inr, filled]
      rcases sub 0 ⟨ts, depth⟩ with ⟨e | inner, r⟩ <;> rfl
    | operator op =>
      simp only [operand, firstPiece, hkind, signed]
      cases op.signPower? with
      | none => rfl
      | some power =>
        simp only [Sum.elim_inr, filled]
        rcases sub power ⟨ts, depth⟩ with ⟨e | inner, r⟩ <;> rfl
    | _ => simp only [operand, firstPiece, hkind, Sum.elim_inl, id]

theorem extend_eq (sub : Nat → Reader → Outcome) (power : Nat) (left : Phrase) (r : Reader) :
    extend sub power left r =
      (nextPiece power left r).elim id fun w => (filled sub w).andThen (extend sub power) := by
  obtain ⟨_ | ⟨t, ts⟩, depth⟩ := r
  · rw [extend]
    rfl
  · cases hkind : t.kind with
    | operator op =>
      rw [extend]
      simp only [nextPiece, hkind]
      by_cases hlt : op.leftPower < power
      · rw [if_pos hlt, if_pos hlt]
        rfl
      · rw [if_neg hlt, if_neg hlt]
        simp only [Sum.elim_inr, filled]
        rcases sub op.rightPower ⟨ts, depth⟩ with ⟨e | right, r⟩
        · rfl
        · by_cases hheight : maxHeight < max left.height right.height + 1
          · simp only [Outcome.andThen, fill, dif_pos hheight, if_pos hheight]
            rfl
          · simp only [Outcome.andThen, fill, dif_neg hheight, if_neg hheight]
    | _ =>
      rw [extend]
      simp only [nextPiece, hkind, Sum.elim_inl, id]

theorem phrase_eq (setting : Setting) (sub : Nat → Reader → Outcome) (power : Nat) (r : Reader) :
    phrase setting sub power r = (operand setting sub r).andThen (extend sub power) := by
  unfold phrase
  rcases operand setting sub r with ⟨e | left, r₁⟩ <;> rfl

theorem firstPiece_cases (setting : Setting) (r : Reader) :
    FirstPiece r (firstPiece setting r) := by
  unfold firstPiece
  split
  · exact .fault _ r.ahead
  · dsimp only
    split
    · split
      · exact .value ..
      · exact .fault ..
    · split
      · exact .value ..
      · exact .fault ..
    · exact .value ..
    · exact .bracket ..
    · split
      · exact .fault ..
      · exact .sign ..
    · exact .fault ..

theorem nextPiece_cases (power : Nat) (left : Phrase) (r : Reader) :
    NextPiece left r (nextPiece power left r) := by
  unfold nextPiece
  split
  · exact .whole
  · split
    · exact .whole
    · split
      · exact .whole
      · exact .right ..
    · exact .fault _

theorem fill_cases (gap : Gap) (inner : Phrase) (r : Reader) :
    (∃ e ts, fill gap inner r = (.error e, ⟨ts, r.depth⟩)) ∨
      ∃ p ts, fill gap inner r = (.ok p, ⟨ts, r.depth⟩) ∧ Fills inner gap p := by
  cases gap with
  | bracket opener shape =>
    simp only [fill]
    split
    · exact .inl ⟨_, r.ahead, rfl⟩
    · split
      · exact .inr ⟨_, _, rfl, .bracket opener shape⟩
      · exact .inl ⟨_, _, rfl⟩
  | sign sign op => exact .inr ⟨_, _, rfl, .sign sign op⟩
  | right left op t =>
    simp only [fill]
    split
    · exact .inl ⟨_, r.ahead, rfl⟩
    · next hle => exact .inr ⟨_, _, rfl, .right left op t (Nat.le_of_not_lt hle)⟩

theorem FirstPiece.depth (h : FirstPiece r piece) :
    piece.elim (·.2.depth = r.depth) (·.reader.depth = r.depth) := by
  cases h <;> rfl

theorem NextPiece.depth (h : NextPiece left r piece) :
    piece.elim (·.2.depth = r.depth) (·.reader.depth = r.depth) := by
  cases h <;> rfl

theorem andThen_fill_depth (o : Outcome) (gap : Gap) :
    (o.andThen (fill gap)).2.depth = o.2.depth := by
  rcases o with ⟨e | inner, r⟩
  · rfl
  · simp only [Outcome.andThen]
    rcases fill_cases gap inner r with ⟨e, ts, hfill⟩ | ⟨p, ts, hfill, -⟩ <;> rw [hfill]

theorem filled_depth (hsub : Confines setting sub) (w : Wanted) :
    (filled sub w).2.depth = w.reader.depth :=
  (andThen_fill_depth ..).trans (hsub w.power w.reader).depth

theorem height_of_filled {p : Phrase} {r' : Reader} (hpiece : nextPiece power left r = .inr w)
    (h : filled sub w = (.ok p, r')) : left.height < p.height ∧ p.height ≤ maxHeight := by
  have hcases := nextPiece_cases power left r
  rw [hpiece] at hcases
  cases hcases with
  | right op t least ts =>
    rcases hread : sub least ⟨ts, r.depth⟩ with ⟨e | right, r₁⟩
    · simp [filled, hread, Outcome.andThen] at h
    · simp only [filled, hread, Outcome.andThen] at h
      rcases fill_cases (.right left op t) right r₁ with ⟨e, us, hfill⟩ | ⟨q, us, hfill, hfills⟩
      · cases hfill.symm.trans h
      · cases hfill.symm.trans h
        cases hfills with
        | right _ _ _ hle =>
          dsimp only
          omega

end Pieces

structure Pending where
  power : Nat
  gap : Gap

/-- What is next for a phrase: to be asked for, to be started, to be extended from its left part, or
to be handed over. -/
inductive Task where
  | ask (power : Nat)
  | start (power : Nat)
  | extend (power : Nat) (left : Phrase)
  | ended (result : Except EquationFault Phrase)

/-- Where reading stands: the phrases that wait, the innermost one first, and the task of the phrase
inside them. -/
structure Moment where
  waiting : List Pending
  task : Task
  reader : Reader

namespace Moment

def ended (waiting : List Pending) (o : Outcome) : Moment := ⟨waiting, .ended o.1, o.2⟩

def leave (waiting : List Pending) (o : Outcome) : Moment := ended waiting (o.1, o.2.leave)

def resume (waiting : List Pending) (power : Nat) : Outcome → Moment
  | (.error e, r) => leave waiting (.error e, r)
  | (.ok left, r) => ⟨waiting, .extend power left, r⟩

def wait (waiting : List Pending) (power : Nat) (w : Wanted) : Moment :=
  ⟨⟨power, w.gap⟩ :: waiting, .ask w.power, w.reader⟩

/-- The number of phrases that are being read. One that is asked for is not yet among them and may
be turned down, and one that is handed over no longer is. -/
def active (m : Moment) : Nat :=
  match m.task with
  | .ask _ | .ended _ => m.waiting.length
  | .start _ | .extend .. => m.waiting.length + 1

def next? (setting : Setting) (m : Moment) : Option Moment :=
  match m.task with
  | .ask power =>
    if maxDepth ≤ m.reader.depth then some (ended m.waiting (failTooDeep setting m.reader))
    else some ⟨m.waiting, .start power, m.reader.enter⟩
  | .start power =>
    some ((firstPiece setting m.reader).elim (resume m.waiting power) (wait m.waiting power))
  | .extend power left =>
    some ((nextPiece power left m.reader).elim (leave m.waiting) (wait m.waiting power))
  | .ended result =>
    match m.waiting with
    | [] => none
    | p :: waiting =>
      some (resume waiting p.power (Outcome.andThen (result, m.reader) (fill p.gap)))

def Reaches (setting : Setting) : Moment → Moment → Prop :=
  Relation.ReflTransGen fun m m' => m.next? setting = some m'

end Moment

open Moment

section Runs

variable {setting : Setting} {sub : Nat → Reader → Outcome} {depth power : Nat}
  {waiting : List Pending} {left : Phrase} {r : Reader} {o : Outcome} {m m' : Moment}

/-- At the depth, asking for a phrase leads to what the reader of phrases gives. -/
def Walks (setting : Setting) (depth : Nat) (sub : Nat → Reader → Outcome) : Prop :=
  ∀ (waiting : List Pending) (power : Nat) (r : Reader), r.depth = depth →
    Reaches setting ⟨waiting, .ask power, r⟩ (ended waiting (sub power r))

theorem reaches_filled (hwalk : Walks setting depth sub) (waiting : List Pending) (power : Nat)
    (w : Wanted) (hdepth : w.reader.depth = depth) :
    Reaches setting (wait waiting power w) (resume waiting power (filled sub w)) :=
  (hwalk _ w.power w.reader hdepth).tail rfl

theorem reaches_operand (hwalk : Walks setting depth sub) (waiting : List Pending) (power : Nat)
    (hr : r.depth = depth) :
    Reaches setting ⟨waiting, .start power, r⟩
      (resume waiting power (operand setting sub r)) := by
  have hdepth := (firstPiece_cases setting r).depth
  have hstep : next? setting ⟨waiting, .start power, r⟩ =
      some ((firstPiece setting r).elim (resume waiting power) (wait waiting power)) := rfl
  rw [operand_eq]
  cases hpiece : firstPiece setting r with
  | inl o =>
    rw [hpiece] at hstep
    exact .single hstep
  | inr w =>
    rw [hpiece] at hstep hdepth
    exact .head hstep (reaches_filled hwalk waiting power w (hdepth.trans hr))

theorem reaches_extend (hsub : Confines setting sub) (hwalk : Walks setting depth sub)
    (waiting : List Pending) (power : Nat) (left : Phrase) (hr : r.depth = depth) :
    Reaches setting ⟨waiting, .extend power left, r⟩
      (leave waiting (extend sub power left r)) := by
  -- Every operator makes the left part higher, so the induction is on what is left up to the limit.
  induction hroom : maxHeight - left.height using Nat.strongRecOn generalizing left r with
  | ind room ih =>
    have hdepth := (nextPiece_cases power left r).depth
    have hstep : next? setting ⟨waiting, .extend power left, r⟩ =
        some ((nextPiece power left r).elim (leave waiting) (wait waiting power)) := rfl
    rw [extend_eq]
    cases hpiece : nextPiece power left r with
    | inl o =>
      rw [hpiece] at hstep
      exact .single hstep
    | inr w =>
      rw [hpiece] at hstep hdepth
      have hw : w.reader.depth = depth := hdepth.trans hr
      have hfilled := reaches_filled hwalk waiting power w hw
      have hafter := (filled_depth hsub w).trans hw
      refine .head hstep (hfilled.trans ?_)
      simp only [Sum.elim_inr]
      rcases hp : filled sub w with ⟨e | p, r'⟩
      · exact .refl
      · obtain ⟨hlt, hle⟩ := height_of_filled hpiece hp
        rw [hp] at hafter
        exact ih (maxHeight - p.height) (by omega) p hafter rfl

theorem reaches_phrase (hsub : Confines setting sub) (hwalk : Walks setting depth sub)
    (waiting : List Pending) (power : Nat) (hr : r.depth = depth) :
    Reaches setting ⟨waiting, .start power, r⟩ (leave waiting (phrase setting sub power r)) := by
  have hoperand := reaches_operand hwalk waiting power hr
  have hdepth := (operand_confined hsub r).depth.trans hr
  rw [phrase_eq]
  refine hoperand.trans ?_
  rcases hleft : operand setting sub r with ⟨e | left, r₁⟩
  · exact .refl
  · rw [hleft] at hdepth
    exact reaches_extend hsub hwalk waiting power left hdepth

/-- Where the bound on the recursion does not end it, asking for a phrase leads to what is read. -/
theorem walks_climb (setting : Setting) (levels depth : Nat) (h : maxDepth ≤ levels + depth) :
    Walks setting depth (climb setting levels) := by
  induction levels generalizing depth with
  | zero =>
    intro waiting power r hr
    have hfull : maxDepth ≤ r.depth := by omega
    exact .single (if_pos hfull)
  | succ levels ih =>
    intro waiting power r hr
    rw [climb]
    by_cases hfull : maxDepth ≤ r.depth
    · rw [if_pos hfull]
      exact .single (if_pos hfull)
    · rw [if_neg hfull]
      have hstart : next? setting ⟨waiting, .ask power, r⟩ =
          some ⟨waiting, .start power, r.enter⟩ := if_neg hfull
      have hinside := ih (r.depth + 1) (by omega)
      exact .head hstart (reaches_phrase (climb_confined setting levels) hinside waiting power rfl)

/-- Asking for a phrase leads to what is read, whatever phrases wait. -/
theorem reaches_read (setting : Setting) (waiting : List Pending) (power : Nat) (r : Reader) :
    Reaches setting ⟨waiting, .ask power, r⟩ (ended waiting (read setting power r)) :=
  walks_climb setting (maxDepth + 1) r.depth (by omega) waiting power r rfl

/-- Every moment that is reached is on the way to the end. -/
theorem reaches_end (h : Reaches setting m m') (hend : Reaches setting m (ended [] o)) :
    Reaches setting m' (ended [] o) := by
  have hunique : Relator.RightUnique fun m m' => next? setting m = some m' := by
    intro a b c hb hc
    exact Option.some.inj (hb.symm.trans hc)
  rcases Relation.ReflTransGen.total_of_right_unique hunique h hend with hto | hfrom
  · exact hto
  · rcases hfrom.cases_head with rfl | ⟨_, hstep, -⟩
    · exact .refl
    · cases hstep

end Runs

end PromptCalc.Equation
