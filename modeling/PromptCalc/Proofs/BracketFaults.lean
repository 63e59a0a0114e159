import PromptCalc.Nesting
import PromptCalc.Proofs.BracketCheck
import Mathlib.Data.List.Chain
import Mathlib.Data.List.Induction

/-!
# Where the nesting breaks

The check of the brackets passes exactly the tokens that are balanced and hold no empty pair. In all
others it finds the first closing bracket behind which they cannot be continued to such tokens, or,
if there is none, the last opening bracket that is not closed.
-/
namespace PromptCalc.Nesting

def Extendable (ts : List Token) : Prop := ∃ more, Accepted (ts ++ more)

/-- A bracket of the shape, opened right before the tokens, is closed among them. -/
def Closes (shape : Bracket) (ts : List Token) : Prop :=
  ∃ inner closer rest, ts = inner ++ closer :: rest ∧ Balanced inner ∧ closer.kind = .closing shape

/-- Up to this closing bracket the tokens can be continued, and no longer with it. -/
def FirstRefused (ts : List Token) (t : Token) : Prop :=
  ∃ front back, ts = front ++ t :: back ∧ t.kind.isClosing = true ∧
    ∀ n, Extendable (ts.take n) ↔ n ≤ front.length

/-- This opening bracket is not closed behind it, and all that are opened behind it are. -/
def LastOpen (ts : List Token) (t : Token) : Prop :=
  ∃ front back shape, ts = front ++ t :: back ∧ t.kind = .opening shape ∧ ¬ Closes shape back ∧
    ∀ front' opener shape' back', back = front' ++ opener :: back' →
      opener.kind = .opening shape' → Closes shape' back'

/-- The token that breaks the nesting: the closing bracket up to which the tokens can be continued,
or, if they can be continued wherever they are cut off, the last bracket that is left open. -/
def Breaks (ts : List Token) (t : Token) : Prop :=
  FirstRefused ts t ∨ (∀ n, Extendable (ts.take n)) ∧ LastOpen ts t

section Pairs

variable {ts : List Token} {a b t : Token}

def Apart (a b : Token) : Prop := ∀ shape, a.kind = .opening shape → b.kind ≠ .closing shape

theorem not_hasEmptyPair_iff : ¬ HasEmptyPair ts ↔ ts.IsChain Apart := by
  rw [List.isChain_iff_forall_rel_of_append_cons_cons]
  constructor
  · intro h a b front back hts shape hopen hclose
    exact h ⟨front, back, shape, a, b, hopen, hclose, hts⟩
  · rintro h ⟨front, back, shape, a, b, hopen, hclose, hts⟩
    exact h hts shape hopen hclose

theorem apart_of_not_opening (h : a.kind.isOpening = false) : Apart a b := by
  intro shape hopen
  simp [hopen, TokenKind.isOpening, TokenKind.closing?] at h

theorem apart_of_not_closing (h : b.kind.isClosing = false) : Apart a b := by
  intro shape _ hclose
  simp [hclose, TokenKind.isClosing, TokenKind.opening?] at h

theorem faultAfter_pair {previous : Option TokenKind} {openers : List Token} {shape : Bracket}
    (hprevious : previous = some (.opening shape)) (hclose : t.kind = .closing shape) :
    faultAfter previous openers (t :: ts) = some t := by
  rw [faultAfter]
  simp only [hclose, if_pos hprevious]

end Pairs

section Acceptance

variable {ts : List Token}

/-- Over balanced tokens the check goes on as after the last of them, which opens no bracket. -/
theorem Balanced.exists_faultAfter (h : Balanced ts) (hpairs : ts.IsChain Apart) (hne : ts ≠ []) :
    ∃ kind : TokenKind, kind.isOpening = false ∧
      ∀ (previous : Option TokenKind) (openers rest : List Token),
        faultAfter previous openers (ts ++ rest) = faultAfter (some kind) openers rest := by
  induction h with
  | nil => exact absurd rfl hne
  | @other t ts ht _ ih =>
    obtain ⟨hopen, hclose⟩ := Bool.or_eq_false_iff.mp ht
    rcases eq_or_ne ts [] with rfl | hts
    · exact ⟨t.kind, hopen, fun _ _ _ => faultAfter_other hopen hclose⟩
    · obtain ⟨kind, hkind, hrest⟩ := ih hpairs.tail hts
      refine ⟨kind, hkind, fun previous openers rest => ?_⟩
      rw [List.cons_append, faultAfter_other hopen hclose, hrest]
  | @pair shape opener closer inner ts hopen hclose _ _ ihinner ihrest =>
    have hinner : inner ≠ [] := by
      rintro rfl
      exact hpairs.rel shape hopen hclose
    have hparts := List.isChain_append.mp hpairs
    obtain ⟨kind, hkind, hinside⟩ := ihinner hparts.1.tail hinner
    have hprevious : some kind ≠ some (.opening shape) := by
      rintro ⟨⟩
      simp [TokenKind.isOpening, TokenKind.closing?] at hkind
    have hpair (previous : Option TokenKind) (openers rest : List Token) :
        faultAfter previous openers ((opener :: inner ++ closer :: ts) ++ rest) =
          faultAfter (some closer.kind) openers (ts ++ rest) := by
      rw [List.append_assoc, List.cons_append, List.cons_append, faultAfter_opening hopen, hinside,
        faultAfter_closing hprevious hopen hclose]
    rcases eq_or_ne ts [] with rfl | hts
    · exact ⟨closer.kind, by rw [hclose]; rfl, hpair⟩
    · obtain ⟨kind', hkind', hrest⟩ := ihrest hparts.2.1.tail hts
      exact ⟨kind', hkind', fun previous openers rest => (hpair _ _ _).trans (hrest _ _ _)⟩

theorem fault?_append_of_balanced (h : Balanced ts) (hpairs : ts.IsChain Apart)
    (rest : List Token) : ∃ previous, fault? (ts ++ rest) = faultAfter previous [] rest := by
  rcases eq_or_ne ts [] with rfl | hne
  · exact ⟨none, rfl⟩
  · obtain ⟨kind, -, hfault⟩ := h.exists_faultAfter hpairs hne
    exact ⟨some kind, hfault none [] rest⟩

theorem fault?_of_accepted (h : Accepted ts) : fault? ts = none := by
  obtain ⟨previous, hfault⟩ := fault?_append_of_balanced h.1 (not_hasEmptyPair_iff.mp h.2) []
  rw [List.append_nil] at hfault
  rw [hfault]
  rfl

theorem Extendable.of_append {as bs : List Token} (h : Extendable (as ++ bs)) : Extendable as := by
  obtain ⟨more, hmore⟩ := h
  exact ⟨bs ++ more, List.append_assoc .. ▸ hmore⟩

theorem Extendable.take (h : Extendable ts) (n : Nat) : Extendable (ts.take n) := by
  rw [← List.take_append_drop n ts] at h
  exact h.of_append

theorem not_extendable_of_fault? {front : List Token} {t : Token}
    (h : ∀ rest, fault? (front ++ t :: rest) = some t) : ¬ Extendable (front ++ [t]) := by
  rintro ⟨more, hmore⟩
  have hnone := fault?_of_accepted hmore
  rw [List.append_assoc, List.singleton_append, h] at hnone
  cases hnone

end Acceptance

/-- The tokens leave the given brackets open, the innermost first. -/
inductive LeavesOpen : List Token → List Token → Prop where
  | nil {ts : List Token} : Balanced ts → LeavesOpen [] ts
  | opening {shape : Bracket} {opener : Token} {openers outer inner : List Token} :
      LeavesOpen openers outer → opener.kind = .opening shape → Balanced inner →
      LeavesOpen (opener :: openers) (outer ++ opener :: inner)

section Stack

variable {ts openers : List Token} {t : Token}

theorem LeavesOpen.append {inner : List Token} (h : LeavesOpen openers ts)
    (hinner : Balanced inner) : LeavesOpen openers (ts ++ inner) := by
  cases h with
  | nil hts => exact .nil (hts.append hinner)
  | opening houter hopen hlast =>
    rw [List.append_assoc]
    exact .opening houter hopen (hlast.append hinner)

theorem LeavesOpen.exists_closers (h : LeavesOpen openers ts) :
    ∃ closers : List Token, closers.IsChain Apart ∧
      ∀ inner, Balanced inner → Balanced (ts ++ (inner ++ closers)) := by
  induction h with
  | nil hts =>
    refine ⟨[], .nil, fun inner hinner => ?_⟩
    rw [List.append_nil]
    exact hts.append hinner
  | @opening shape opener openers outer last houter hopen hlast ih =>
    obtain ⟨closers, hclosers, hbalanced⟩ := ih
    refine ⟨shape.closingToken :: closers, hclosers.cons fun _ _ => apart_of_not_opening rfl,
      fun inner hinner => ?_⟩
    have hpair : Balanced (opener :: (last ++ inner) ++ shape.closingToken :: []) :=
      .pair hopen rfl (hlast.append hinner) .nil
    simpa using hbalanced _ hpair

/-- The check has come over the tokens without a fault, and holds the brackets that they leave
open. -/
structure Passed (ts openers : List Token) : Prop where
  leaves : LeavesOpen openers ts
  pairs : ts.IsChain Apart
  fault : ∀ rest, fault? (ts ++ rest) = faultAfter (ts.getLast?.map Token.kind) openers rest

theorem passed_nil : Passed [] [] := ⟨.nil .nil, .nil, fun _ => rfl⟩

theorem Passed.fault?_eq (h : Passed ts openers) : fault? ts = openers.head? := by
  have hend := h.fault []
  rw [List.append_nil] at hend
  rw [hend]
  rfl

theorem Passed.snoc {openers' : List Token} (h : Passed ts openers)
    (hleaves : LeavesOpen openers' (ts ++ [t])) (hlast : ∀ last ∈ ts.getLast?, Apart last t)
    (hfault : ∀ rest, faultAfter (ts.getLast?.map Token.kind) openers (t :: rest) =
      faultAfter (some t.kind) openers' rest) : Passed (ts ++ [t]) openers' where
  leaves := hleaves
  pairs := h.pairs.append (.singleton t) (by simpa using hlast)
  fault rest := by
    rw [List.append_assoc, List.singleton_append, h.fault, hfault]
    simp

/-- A token is passed, or it is a closing bracket that breaks the nesting, whatever follows. -/
theorem Passed.step (h : Passed ts openers) (t : Token) :
    (∃ openers', Passed (ts ++ [t]) openers') ∨
      t.kind.isClosing = true ∧ ∀ rest, fault? (ts ++ t :: rest) = some t := by
  have hother (hbracket : isBracket t = false) : Passed (ts ++ [t]) openers := by
    obtain ⟨hopen, hclose⟩ := Bool.or_eq_false_iff.mp hbracket
    exact h.snoc (h.leaves.append (.other hbracket .nil)) (fun _ _ => apart_of_not_closing hclose)
      fun _ => faultAfter_other hopen hclose
  cases hkind : t.kind with
  | opening shape =>
    exact .inl ⟨t :: openers, h.snoc (.opening h.leaves hkind .nil)
      (fun _ _ => apart_of_not_closing (by rw [hkind]; rfl)) fun _ => faultAfter_opening hkind⟩
  | closing shape =>
    by_cases hpair : ts.getLast?.map Token.kind = some (.opening shape)
    · exact .inr ⟨rfl, fun rest => (h.fault _).trans (faultAfter_pair hpair hkind)⟩
    by_cases htop : ∀ top ∈ openers.head?, top.kind ≠ .opening shape
    · exact .inr ⟨rfl, fun rest => (h.fault _).trans (faultAfter_unmatched hkind htop)⟩
    · obtain ⟨hleaves, hpairs, hfault⟩ := h
      cases hleaves with
      | nil => simp at htop
      | @opening shape' opener openers outer inner houter hopen hinner =>
        have hshape : opener.kind = .opening shape := by simpa using htop
        have hclosed : Balanced (opener :: inner ++ [t]) := .pair hshape hkind hinner .nil
        refine .inl ⟨openers, Passed.snoc ⟨.opening houter hopen hinner, hpairs, hfault⟩ ?_ ?_
          fun _ => faultAfter_closing hpair hshape hkind⟩
        · rw [List.append_assoc]
          exact houter.append hclosed
        · intro last hlast shape'' hopen' hclose
          obtain rfl := TokenKind.closing.inj (hkind.symm.trans hclose)
          exact hpair (by rw [Option.mem_def.mp hlast, Option.map_some, hopen'])
  | _ => exact .inl ⟨openers, hother (by simp [isBracket, hkind, TokenKind.isOpening,
      TokenKind.closing?, TokenKind.isClosing, TokenKind.opening?])⟩

theorem passed_or_refused (ts : List Token) :
    (∃ openers, Passed ts openers) ∨
      ∃ front t back openers, ts = front ++ t :: back ∧ Passed front openers ∧
        t.kind.isClosing = true ∧ ∀ rest, fault? (front ++ t :: rest) = some t := by
  induction ts using List.reverseRecOn with
  | nil => exact .inl ⟨[], passed_nil⟩
  | append_singleton ts u ih =>
    rcases ih with ⟨openers, hpassed⟩ | ⟨front, t, back, openers, rfl, hfront, hclose, hfault⟩
    · refine (hpassed.step u).imp_right ?_
      rintro ⟨hclose, hfault⟩
      exact ⟨ts, u, [], openers, rfl, hpassed, hclose, hfault⟩
    · exact .inr ⟨front, t, back ++ [u], openers, by simp, hfront, hclose, hfault⟩

/-- What is passed can be continued: by a token that is no bracket, and what closes those open. -/
theorem Passed.extendable (h : Passed ts openers) : Extendable ts := by
  obtain ⟨closers, hclosers, hbalanced⟩ := h.leaves.exists_closers
  let filler : Token := ⟨.answer, "ans", .empty 0⟩
  refine ⟨filler :: closers, hbalanced [filler] (.other rfl .nil), not_hasEmptyPair_iff.mpr ?_⟩
  have hchain : (filler :: closers).IsChain Apart :=
    hclosers.cons fun _ _ => apart_of_not_opening rfl
  refine h.pairs.append hchain fun last _ next hnext => ?_
  obtain rfl := Option.some.inj hnext
  exact apart_of_not_closing rfl

end Stack

section Matching

variable {front back ts : List Token} {opener t : Token} {shape : Bracket}

theorem Closes.append (h : Closes shape ts) (rest : List Token) : Closes shape (ts ++ rest) := by
  obtain ⟨inner, closer, back, rfl, hinner, hclose⟩ := h
  exact ⟨inner, closer, back ++ rest, by simp, hinner, hclose⟩

theorem Balanced.closes (h : Balanced ts) (hts : ts = front ++ opener :: back)
    (hopen : opener.kind = .opening shape) : Closes shape back := by
  induction h generalizing front back with
  | nil => simp at hts
  | @other t ts ht _ ih =>
    rcases List.cons_eq_append_iff.mp hts with ⟨rfl, hhead⟩ | ⟨front', rfl, hrest⟩
    · obtain ⟨rfl, rfl⟩ := List.cons.inj hhead
      simp [isBracket_opening hopen] at ht
    · exact ih hrest
  | @pair shape' first closer inner ts hfirst hclose hinner _ ihinner ihrest =>
    have hne : opener ≠ closer := by
      rintro rfl
      rw [hopen] at hclose
      cases hclose
    rcases List.cons_eq_append_iff.mp hts with ⟨rfl, hhead⟩ | ⟨front', rfl, hrest⟩
    · obtain ⟨rfl, rfl⟩ := List.cons.inj hhead
      obtain rfl := TokenKind.opening.inj (hopen.symm.trans hfirst)
      exact ⟨inner, closer, ts, rfl, hinner, hclose⟩
    · -- The bracket stands inside the first pair or behind it.
      rcases List.append_eq_append_iff.mp hrest with ⟨mid, rfl, hmid⟩ | ⟨mid, rfl, hmid⟩
      · rcases List.cons_eq_append_iff.mp hmid with ⟨rfl, hhead⟩ | ⟨front'', rfl, hafter⟩
        · exact absurd (List.cons.inj hhead).1 hne
        · exact ihrest hafter
      · rcases List.cons_eq_append_iff.mp hmid with ⟨rfl, hhead⟩ | ⟨within, rfl, rfl⟩
        · exact absurd (List.cons.inj hhead).1.symm hne
        · exact (ihinner rfl).append (closer :: ts)

theorem Balanced.not_closes (h : Balanced ts) (hpairs : ts.IsChain Apart) : ¬ Closes shape ts := by
  rintro ⟨inner, closer, rest, rfl, hinner, hclose⟩
  have hpairs' := List.isChain_append.mp hpairs
  obtain ⟨previous, hfault⟩ := fault?_append_of_balanced hinner hpairs'.1 (closer :: rest)
  have hnone := fault?_of_accepted ⟨h, not_hasEmptyPair_iff.mpr hpairs⟩
  rw [hfault, faultAfter_unmatched hclose (by simp)] at hnone
  cases hnone

theorem Passed.lastOpen {openers : List Token} (h : Passed ts (t :: openers)) : LastOpen ts t := by
  obtain ⟨hleaves, hpairs, -⟩ := h
  cases hleaves with
  | opening houter hopen hinner =>
    have hchain := (List.isChain_append.mp hpairs).2.1.tail
    exact ⟨_, _, _, rfl, hopen, hinner.not_closes hchain,
      fun front' opener shape' back' hsplit => hinner.closes hsplit⟩

/-- Of the two places the one behind would be a bracket that is closed. -/
theorem LastOpen.unique {u : Token} (h : LastOpen ts t) (h' : LastOpen ts u) : t = u := by
  obtain ⟨front, back, shape, rfl, hopen, hnot, hlast⟩ := h
  obtain ⟨front', back', shape', hts, hopen', hnot', hlast'⟩ := h'
  rcases List.append_eq_append_iff.mp hts with ⟨mid, rfl, hmid⟩ | ⟨mid, rfl, hmid⟩
  · rcases List.cons_eq_append_iff.mp hmid with ⟨rfl, hhead⟩ | ⟨between, rfl, hback⟩
    · exact (List.cons.inj hhead).1.symm
    · exact absurd (hlast _ _ _ _ hback hopen') hnot'
  · rcases List.cons_eq_append_iff.mp hmid with ⟨rfl, hhead⟩ | ⟨between, rfl, hback⟩
    · exact (List.cons.inj hhead).1
    · exact absurd (hlast' _ _ _ _ hback hopen) hnot

theorem FirstRefused.unique {u : Token} (h : FirstRefused ts t) (h' : FirstRefused ts u) :
    t = u := by
  obtain ⟨front, back, hts, -, hfirst⟩ := h
  obtain ⟨front', back', hts', -, hfirst'⟩ := h'
  have hle : front.length ≤ front'.length := (hfirst' _).mp ((hfirst _).mpr (Nat.le_refl _))
  have hge : front'.length ≤ front.length := (hfirst _).mp ((hfirst' _).mpr (Nat.le_refl _))
  obtain ⟨-, htail⟩ := List.append_inj (hts.symm.trans hts') (Nat.le_antisymm hle hge)
  exact (List.cons.inj htail).1

end Matching

section Verdict

variable {ts : List Token} {t u : Token}

theorem FirstRefused.not_extendable (h : FirstRefused ts t) : ¬ Extendable ts := by
  obtain ⟨front, back, rfl, -, hfirst⟩ := h
  intro hall
  have hlong := (hfirst _).mp (hall.take (front.length + 1))
  omega

theorem Breaks.unique (h : Breaks ts t) (h' : Breaks ts u) : t = u := by
  have hwhole (hall : ∀ n, Extendable (ts.take n)) : Extendable ts := by
    have h := hall ts.length
    rwa [List.take_length] at h
  rcases h with hrefused | ⟨hall, hopen⟩ <;> rcases h' with hrefused' | ⟨hall', hopen'⟩
  · exact hrefused.unique hrefused'
  · exact absurd (hwhole hall') hrefused.not_extendable
  · exact absurd (hwhole hall) hrefused'.not_extendable
  · exact hopen.unique hopen'

theorem Breaks.not_accepted (h : Breaks ts t) : ¬ Accepted ts := by
  intro haccepted
  rcases h with hrefused | ⟨-, front, back, shape, hts, hopen, hnot, -⟩
  · exact hrefused.not_extendable ⟨[], (List.append_nil ts).symm ▸ haccepted⟩
  · exact hnot (haccepted.1.closes hts hopen)

theorem accepted_or_breaks (ts : List Token) :
    fault? ts = none ∧ Accepted ts ∨ ∃ t, fault? ts = some t ∧ Breaks ts t := by
  rcases passed_or_refused ts with
    ⟨openers, hpassed⟩ | ⟨front, t, back, openers, rfl, hfront, hclose, hfault⟩
  · have hhead := hpassed.fault?_eq
    cases openers with
    | nil =>
      have hnone : fault? ts = none := hhead
      cases hpassed.leaves with
      | nil hbalanced => exact .inl ⟨hnone, hbalanced, not_hasEmptyPair_iff.mpr hpassed.pairs⟩
    | cons top openers =>
      exact .inr ⟨top, hhead, .inr ⟨hpassed.extendable.take, hpassed.lastOpen⟩⟩
  · refine .inr ⟨t, hfault back, .inl ⟨front, back, rfl, hclose, ?_⟩⟩
    exact take_iff_of_append (fun _ _ => Extendable.of_append) hfront.extendable
      (not_extendable_of_fault? hfault)

/-- The check finds nothing exactly in balanced tokens without an empty pair. In all others it finds
the token that breaks their nesting, and there is one such token. -/
theorem fault?_eq_iff (ts : List Token) :
    (fault? ts = none ↔ Accepted ts) ∧ ∀ t, fault? ts = some t ↔ Breaks ts t := by
  rcases accepted_or_breaks ts with ⟨hnone, haccepted⟩ | ⟨t, hfault, hbreaks⟩
  · refine ⟨⟨fun _ => haccepted, fun _ => hnone⟩, fun u => ⟨fun h => ?_, fun h => ?_⟩⟩
    · rw [hnone] at h
      cases h
    · exact absurd haccepted h.not_accepted
  · refine ⟨⟨fun h => ?_, fun h => absurd h hbreaks.not_accepted⟩,
      fun u => ⟨fun h => ?_, fun h => ?_⟩⟩
    · rw [hfault] at h
      cases h
    · obtain rfl := Option.some.inj (hfault.symm.trans h)
      exact hbreaks
    · rw [hfault, hbreaks.unique h]

end Verdict

end PromptCalc.Nesting
