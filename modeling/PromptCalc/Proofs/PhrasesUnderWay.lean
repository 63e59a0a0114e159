import PromptCalc.Proofs.Parsing
import PromptCalc.Proofs.Phrases
import PromptCalc.Proofs.ReadingSteps

/-!
# Phrases under way

At every moment of reading an equation, the phrases that are being read are counted, and there are
never more of them than the greatest depth. Every phrase that is handed over, at whatever depth, has
the height of its tree.
-/
namespace PromptCalc

namespace Equation

/-- The phrase has the height of its tree, and the binary nodes of the tree keep to the limit. -/
structure Phrase.Exact (p : Phrase) : Prop where
  height : p.height = p.tree.height
  within : p.tree.BinaryWithin maxHeight

def Gap.Exact : Gap → Prop
  | .right left _ _ => left.Exact
  | _ => True

def Outcome.Exact (o : Outcome) : Prop := ∀ p, o.1 = .ok p → p.Exact

def Task.Exact : Task → Prop
  | .extend _ left => left.Exact
  | .ended result => ∀ p, result = .ok p → p.Exact
  | _ => True

/-- What holds at every moment of reading. -/
structure Moment.WithinLimits (m : Moment) : Prop where
  counted : m.active = m.reader.depth
  bounded : m.active ≤ maxDepth
  waiting : ∀ p ∈ m.waiting, p.gap.Exact
  task : m.task.Exact

section Pieces

variable {left inner p : Phrase} {gap : Gap} {r : Reader} {piece : Outcome ⊕ Wanted} {o : Outcome}

theorem ok_exact (h : p.Exact) (r : Reader) : Outcome.Exact (.ok p, r) := by
  intro q hq
  exact Except.ok.inj hq ▸ h

theorem error_exact (e : EquationFault) (r : Reader) : Outcome.Exact (.error e, r) := nofun

theorem failTooDeep_exact (setting : Setting) (r : Reader) :
    Outcome.Exact (failTooDeep setting r) := by
  unfold failTooDeep
  split
  · exact error_exact _ r
  · exact error_exact _ r

theorem tooDeep_read {setting : Setting} (power : Nat) (h : maxDepth ≤ r.depth) :
    TooDeep (read setting power r) := by
  rw [read_eq, if_pos h]
  exact tooDeep_failTooDeep setting r

theorem FirstPiece.exact (h : FirstPiece r piece) : piece.elim Outcome.Exact (·.gap.Exact) := by
  cases h with
  | fault e ts => exact error_exact e _
  | value x t ts =>
    have hvalue : Phrase.Exact ⟨.value x (some t), 1⟩ := ⟨rfl, trivial⟩
    exact ok_exact hvalue _
  | bracket | sign => trivial

theorem NextPiece.exact (h : NextPiece left r piece) (hleft : left.Exact) :
    piece.elim Outcome.Exact (·.gap.Exact) := by
  cases h with
  | fault e => exact error_exact e r
  | whole => exact ok_exact hleft r
  | right => exact hleft

/-- The height grows by one behind a sign, and is checked behind an operator. -/
theorem Fills.exact (h : Fills inner gap p) (hgap : gap.Exact) (hinner : inner.Exact) :
    p.Exact := by
  cases h with
  | bracket => exact hinner
  | sign sign op => exact ⟨congrArg (· + 1) hinner.height, hinner.within⟩
  | right left op t hle =>
    have hheight : max left.height inner.height + 1 =
        (Expr.binary op left.tree inner.tree (some t)).height := by
      rw [hgap.height, hinner.height]
      rfl
    exact ⟨hheight, hheight ▸ hle, hgap.within, hinner.within⟩

theorem Outcome.Exact.andThen (h : o.Exact) (hgap : gap.Exact) :
    Outcome.Exact (o.andThen (fill gap)) := by
  rcases o with ⟨e | inner, r⟩
  · exact error_exact e r
  · simp only [Outcome.andThen]
    rcases fill_cases gap inner r with ⟨e, ts, hfill⟩ | ⟨p, ts, hfill, hfills⟩ <;> rw [hfill]
    · exact error_exact e _
    · exact ok_exact (hfills.exact hgap (h inner rfl)) _

end Pieces

namespace Moment

section Steps

variable {setting : Setting} {waiting : List Pending} {power : Nat} {o : Outcome} {w : Wanted}
  {m m' : Moment}

theorem leave_withinLimits (hwaiting : ∀ p ∈ waiting, p.gap.Exact)
    (hlimit : waiting.length < maxDepth) (hdepth : o.2.depth = waiting.length + 1)
    (ho : o.Exact) : (leave waiting o).WithinLimits where
  counted := by
    show waiting.length = o.2.depth - 1
    omega
  bounded := Nat.le_of_lt hlimit
  waiting := hwaiting
  task := ho

theorem resume_withinLimits (hwaiting : ∀ p ∈ waiting, p.gap.Exact)
    (hlimit : waiting.length < maxDepth) (hdepth : o.2.depth = waiting.length + 1)
    (ho : o.Exact) (power : Nat) : (resume waiting power o).WithinLimits := by
  rcases o with ⟨e | left, r⟩
  · exact leave_withinLimits hwaiting hlimit hdepth nofun
  · exact ⟨hdepth.symm, hlimit, hwaiting, ho left rfl⟩

theorem wait_withinLimits (hwaiting : ∀ p ∈ waiting, p.gap.Exact)
    (hlimit : waiting.length < maxDepth) (hdepth : w.reader.depth = waiting.length + 1)
    (hw : w.gap.Exact) (power : Nat) : (wait waiting power w).WithinLimits where
  counted := hdepth.symm
  bounded := hlimit
  waiting := List.forall_mem_cons.mpr ⟨hw, hwaiting⟩
  task := trivial

/-- One step keeps the number of phrases within the limit, and the heights exact. -/
theorem WithinLimits.next (h : m.WithinLimits) (hnext : m.next? setting = some m') :
    m'.WithinLimits := by
  obtain ⟨waiting, task, r⟩ := m
  obtain ⟨hcounted, hbounded, hwaiting, htask⟩ := h
  cases task with
  | ask power =>
    have hdepth : waiting.length = r.depth := hcounted
    simp only [next?] at hnext
    split at hnext
    · obtain rfl := Option.some.inj hnext
      exact ⟨hdepth.trans (failTooDeep_confined setting r).depth.symm, hbounded, hwaiting,
        failTooDeep_exact setting r⟩
    · next hfull =>
      obtain rfl := Option.some.inj hnext
      have hlimit : waiting.length < maxDepth := hdepth ▸ Nat.lt_of_not_le hfull
      exact ⟨congrArg (· + 1) hdepth, hlimit, hwaiting, trivial⟩
  | start power =>
    have hdepth := (firstPiece_cases setting r).depth
    have hexact := (firstPiece_cases setting r).exact
    obtain rfl := Option.some.inj hnext
    cases hpiece : firstPiece setting r with
    | inl o =>
      rw [hpiece] at hdepth hexact
      exact resume_withinLimits hwaiting hbounded (hdepth.trans hcounted.symm) hexact power
    | inr w =>
      rw [hpiece] at hdepth hexact
      exact wait_withinLimits hwaiting hbounded (hdepth.trans hcounted.symm) hexact power
  | extend power left =>
    have hdepth := (nextPiece_cases power left r).depth
    have hexact := (nextPiece_cases power left r).exact htask
    obtain rfl := Option.some.inj hnext
    cases hpiece : nextPiece power left r with
    | inl o =>
      rw [hpiece] at hdepth hexact
      exact leave_withinLimits hwaiting hbounded (hdepth.trans hcounted.symm) hexact
    | inr w =>
      rw [hpiece] at hdepth hexact
      exact wait_withinLimits hwaiting hbounded (hdepth.trans hcounted.symm) hexact power
  | ended result =>
    cases waiting with
    | nil => cases hnext
    | cons p waiting =>
      obtain ⟨hgap, hwaiting⟩ := List.forall_mem_cons.mp hwaiting
      obtain rfl := Option.some.inj hnext
      have hexact : Outcome.Exact (result, r) := htask
      exact resume_withinLimits hwaiting hbounded ((andThen_fill_depth ..).trans hcounted.symm)
        (hexact.andThen hgap) p.power

theorem WithinLimits.reaches (h : m.WithinLimits) (hreaches : Reaches setting m m') :
    m'.WithinLimits := by
  induction hreaches with
  | refl => exact h
  | tail _ hnext ih => exact ih.next hnext

end Steps

end Moment

end Equation

namespace Session

open Equation Moment

variable {s : Session}

def asking (s : Session) (power : Nat) : Moment := ⟨[], .ask power, s.reader⟩

theorem Consistent.withinLimits (h : s.Consistent) (power : Nat) :
    (s.asking power).WithinLimits where
  counted := h.depth.symm
  bounded := Nat.zero_le _
  waiting := nofun
  task := trivial

theorem Consistent.height_le_of_readEquation (h : s.Consistent) {power : Nat} {tree : Expr}
    {s' : Session} (hread : s.readEquation power = (.ok tree, s')) :
    tree.height ≤ maxHeight + 98 := by
  obtain ⟨c, d, htakes, rfl⟩ := h.exists_takes hread
  exact (d.height_le htakes.levels htakes.height).2

/-- While an equation is read, the depth is at every moment the number of phrases that are being
read, and these are at most as many as the greatest depth: one more goes too deep. Wherever a
phrase is asked for, it is handed over as it is read there, with the height of its tree, the binary
nodes of which keep to the limit. So a tree exceeds the limit by 98 at most. -/
theorem moments_of_readEquation (h : s.Reachable) (power : Nat) :
    (∀ m, Reaches s.setting (s.asking power) m →
      Reaches s.setting m (ended [] (read s.setting power s.reader)) ∧
      m.active = m.reader.depth ∧ m.active ≤ maxDepth ∧
      (∀ inner, m.task = .ask inner →
        Reaches s.setting m (ended m.waiting (read s.setting inner m.reader)) ∧
        (m.active = maxDepth → TooDeep (read s.setting inner m.reader))) ∧
      ∀ p, m.task = .ended (.ok p) →
        p.height = p.tree.height ∧ p.tree.BinaryWithin maxHeight) ∧
    (∀ tree s', s.readEquation power = (.ok tree, s') → tree.height ≤ maxHeight + 98) ∧
    ∀ text tree, (s.parse text).1 = .ok tree → tree.height ≤ maxHeight + 98 := by
  refine ⟨fun m hm => ?_, fun tree s' => h.consistent.height_le_of_readEquation,
    fun text tree hparse => (s.height_le_of_parse hparse).2⟩
  have hlimits := (h.consistent.withinLimits power).reaches hm
  refine ⟨reaches_end hm (reaches_read ..), hlimits.counted, hlimits.bounded, ?_, ?_⟩
  · intro inner htask
    obtain ⟨waiting, task, r⟩ := m
    obtain rfl : task = .ask inner := htask
    exact ⟨reaches_read .., fun hfull => tooDeep_read inner (hfull.symm.trans hlimits.counted).le⟩
  · intro p htask
    have hexact := hlimits.task
    rw [htask] at hexact
    exact ⟨(hexact p rfl).height, (hexact p rfl).within⟩

/-- A sum in a bracket behind a sign, of a prompt that breaks off. The bracket is not closed, but
the sum in it has been read and handed over. -/
theorem moments_of_unclosed_sum :
    ∃ s m p, s = new.run [.input "calc '-(1^2+3' x", .readPrompt] ∧ s.Reachable ∧
      Reaches s.setting (s.asking 0) m ∧ m.waiting.length = 2 ∧ m.task = .ended (.ok p) ∧
      p.height = 3 ∧ m.active = m.reader.depth ∧ m.active ≤ maxDepth ∧
      p.height = p.tree.height ∧ p.tree.BinaryWithin maxHeight ∧
      (s.readEquation 0).1 =
        .error ⟨.equation ⟨.unclosedBracket, ⟨7, 1⟩⟩, "calc '-(1^2+3' x"⟩ := by
  have hreachable : (new.run [.input "calc '-(1^2+3' x", .readPrompt]).Reachable :=
    ⟨new, _, .new, rfl⟩
  obtain ⟨hmoments, -, -⟩ := moments_of_readEquation hreachable 0
  -- The sign is met first, then the bracket; both wait when the sum is asked for.
  obtain ⟨asked, hasked, hwaiting, htask, p, r, hsum, hthree⟩ : ∃ asked,
      Reaches (new.run [.input "calc '-(1^2+3' x", .readPrompt]).setting
        ((new.run [.input "calc '-(1^2+3' x", .readPrompt]).asking 0) asked ∧
      asked.waiting.length = 2 ∧ asked.task = .ask 0 ∧
      ∃ p r, read (new.run [.input "calc '-(1^2+3' x", .readPrompt]).setting 0 asked.reader =
        (.ok p, r) ∧ p.height = 3 :=
    ⟨_, .head (by with_unfolding_all rfl) (.head (by with_unfolding_all rfl)
        (.head (by with_unfolding_all rfl) (.single (by with_unfolding_all rfl)))),
      by with_unfolding_all rfl, by with_unfolding_all rfl, _, _, by with_unfolding_all rfl,
      by with_unfolding_all rfl⟩
  have hended := hasked.trans ((hmoments asked hasked).2.2.2.1 0 htask).1
  rw [hsum] at hended
  obtain ⟨-, hactive, hbound, -, hexact⟩ := hmoments _ hended
  obtain ⟨hheight, hwithin⟩ := hexact p rfl
  exact ⟨_, _, p, rfl, hreachable, hended, hwaiting, rfl, hthree, hactive, hbound, hheight, hwithin,
    by with_unfolding_all rfl⟩

end Session

end PromptCalc
