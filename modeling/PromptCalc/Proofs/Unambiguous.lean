import PromptCalc.Proofs.Reading

/-!
# The grammar is unambiguous

Tokens have at most one derivation of a category. Reading without limits is a relation that finds
the outline of every derivation, it is deterministic, and a derivation is determined by its
outline.
-/
namespace PromptCalc

open Equation

inductive Outline where
  | number (t : Token) (x : Float)
  | answer (t : Token)
  | bracket (shape : Bracket) (opener closer : Token) (inner : Outline)
  | sign (op : Operator) (t : Token) (operand : Outline)
  | join (op : Operator) (t : Token) (left right : Outline)

namespace Category

/-- Grows from a category to those that include it. -/
def rank : Category → Nat
  | atom => 0
  | chain | signed => 1
  | sign => 2
  | product => 3
  | sum => 4

theorem Joins.operands_unique {l c r l' r' : Category} {op : Operator} (h : l.Joins c op r)
    (h' : l'.Joins c op r') : l = l' ∧ r = r' := by
  cases h <;> cases h' <;> exact ⟨rfl, rfl⟩

theorem rank_lt_of_includes {c d : Category} (h : c.Includes d) : c.rank < d.rank := by
  cases h <;> decide

theorem rank_le_of_widens {c d : Category} (h : c.Widens d) : c.rank ≤ d.rank := by
  induction h with
  | refl => exact Nat.le_refl _
  | tail _ hlast ih =>
    have := rank_lt_of_includes hlast
    omega

theorem eq_signed_of_widens {c : Category} (h : c.Widens signed) : c = signed := by
  cases h with
  | refl => rfl
  | tail _ hlast => cases hlast

theorem not_signed_widens_chain : ¬ signed.Widens chain := by
  intro h
  cases h with
  | tail hfirst hlast =>
    cases hlast
    have := rank_le_of_widens hfirst
    simp [rank] at this

end Category

namespace Outline

def category : Outline → Category
  | number .. | answer _ | bracket .. => .atom
  | sign .. => .signed
  | join .plus .. | join .minus .. => .sum
  | join .times .. | join .divide .. => .product
  | join .power _ _ (sign ..) => .sign
  | join .power .. => .chain

theorem eq_sign_of_category {o : Outline} (h : o.category = .signed) :
    ∃ op t operand, o = sign op t operand := by
  cases o with
  | sign op t operand => exact ⟨op, t, operand, rfl⟩
  | join op t left right => cases op <;> cases right <;> simp [category] at h
  | _ => simp [category] at h

theorem category_join {l c r : Category} {op : Operator} (joins : l.Joins c op r) (t : Token)
    (left : Outline) {right : Outline} (h : right.category.Widens r) :
    (join op t left right).category = c := by
  cases joins with
  | plus | minus | times | divide => rfl
  | power =>
    cases right with
    | sign =>
      have := Category.rank_le_of_widens h
      simp [category, Category.rank] at this
    | _ => rfl
  | signedPower =>
    obtain ⟨op, s, operand, rfl⟩ := eq_sign_of_category (Category.eq_signed_of_widens h)
    rfl

end Outline

namespace Derivation

variable {c : Category}

def outline {c : Category} : Derivation c → Outline
  | number t x .. => .number t x
  | answer t _ => .answer t
  | bracket shape opener closer _ _ inner => .bracket shape opener closer inner.outline
  | sign op t _ _ operand => .sign op t operand.outline
  | widen _ phrase => phrase.outline
  | join op t _ _ left right => .join op t left.outline right.outline

theorem category_widens (d : Derivation c) : d.outline.category.Widens c := by
  induction d with
  | number | answer | bracket | sign => exact .refl
  | widen included phrase ih => exact ih.tail included
  | join op t names joins left right _ ihr =>
    rw [outline, Outline.category_join joins t left.outline ihr]

theorem category_ne_of_widen {c d : Category} (included : c.Includes d) (phrase : Derivation c) :
    phrase.outline.category ≠ d := by
  have hle := Category.rank_le_of_widens phrase.category_widens
  have hlt := Category.rank_lt_of_includes included
  intro h
  rw [h] at hle
  omega

theorem eq_of_includes {b c d : Category} (hb : b.Includes d) (hc : c.Includes d)
    {phrase : Derivation b} {other : Derivation c} (h : phrase.outline = other.outline) :
    b = c := by
  have hbw := phrase.category_widens
  have hcw := other.category_widens
  rw [h] at hbw
  cases hb <;> cases hc <;> try rfl
  · rw [Category.eq_signed_of_widens hbw] at hcw
    exact absurd hcw Category.not_signed_widens_chain
  · rw [Category.eq_signed_of_widens hcw] at hbw
    exact absurd hbw Category.not_signed_widens_chain

theorem outline_injective {d e : Derivation c} (h : d.outline = e.outline) : d = e := by
  induction d with
  | number t x numeral reads =>
    cases e with
    | number => simp_all [outline]
    | widen included => cases included
    | join _ _ _ joins => cases joins
    | _ => simp [outline] at h
  | answer t named =>
    cases e with
    | answer => simp_all [outline]
    | widen included => cases included
    | join _ _ _ joins => cases joins
    | _ => simp [outline] at h
  | bracket shape opener closer opens closes inner ih =>
    cases e with
    | bracket =>
      simp only [outline, Outline.bracket.injEq] at h
      obtain ⟨rfl, rfl, rfl, hinner⟩ := h
      rw [ih hinner]
    | widen included => cases included
    | join _ _ _ joins => cases joins
    | _ => simp [outline] at h
  | sign op t names signs operand ih =>
    cases e with
    | sign =>
      simp only [outline, Outline.sign.injEq] at h
      obtain ⟨rfl, rfl, hoperand⟩ := h
      rw [ih hoperand]
    | widen included => cases included
    | join _ _ _ joins => cases joins
  | widen included phrase ih =>
    have hne := category_ne_of_widen included phrase
    rw [outline] at h
    cases e with
    | widen included' other =>
      rw [outline] at h
      obtain rfl := eq_of_includes included included' h
      rw [ih h]
    | join op t names joins left right =>
      rw [h, outline, Outline.category_join joins t _ right.category_widens] at hne
      exact absurd rfl hne
    | _ => simp [h, outline, Outline.category] at hne
  | join op t names joins left right ihl ihr =>
    have hown := Outline.category_join joins t left.outline right.category_widens
    cases e with
    | widen included other =>
      have hne := category_ne_of_widen included other
      rw [outline, outline] at h
      rw [← h] at hne
      exact absurd hown hne
    | join op' t' names' joins' left' right' =>
      simp only [outline, Outline.join.injEq] at h
      obtain ⟨rfl, rfl, hleft, hright⟩ := h
      obtain ⟨rfl, rfl⟩ := joins.operands_unique joins'
      rw [ihl hleft, ihr hright]
    | _ => simp [outline] at h

end Derivation

/-- What is to be read next: an operand, a phrase with operators of at least some power, or what
follows the left part of such a phrase. -/
inductive Stage where
  | operand
  | phrase (power : Nat)
  | rest (power : Nat) (left : Outline)

/-- Reading without limits: at a stage, an outline is read from the first tokens and the second ones
are left. -/
inductive Reads : Stage → List Token → Outline → List Token → Prop where
  | number {t : Token} {ts : List Token} {x : Float} : t.kind = .int ∨ t.kind = .float →
      Number.read? t.literal = some x → Reads .operand (t :: ts) (.number t x) ts
  | answer {t : Token} {ts : List Token} : t.kind = .answer →
      Reads .operand (t :: ts) (.answer t) ts
  | bracket {shape : Bracket} {opener closer : Token} {ts rest : List Token} {inner : Outline} :
      opener.kind = .opening shape → closer.kind = .closing shape →
      Reads (.phrase 0) ts inner (closer :: rest) →
      Reads .operand (opener :: ts) (.bracket shape opener closer inner) rest
  | sign {op : Operator} {t : Token} {ts rest : List Token} {operand : Outline} :
      t.kind = .operator op → Reads (.phrase 5) ts operand rest →
      Reads .operand (t :: ts) (.sign op t operand) rest
  | phrase {power : Nat} {ts mid rest : List Token} {left o : Outline} :
      Reads .operand ts left mid → Reads (.rest power left) mid o rest →
      Reads (.phrase power) ts o rest
  | stop {power : Nat} {left : Outline} {ts : List Token} : Ended ts → Below power ts →
      Reads (.rest power left) ts left ts
  | operator {power : Nat} {op : Operator} {t : Token} {ts mid rest : List Token}
      {left right o : Outline} : t.kind = .operator op → power ≤ op.leftPower →
      Reads (.phrase op.rightPower) ts right mid →
      Reads (.rest power (.join op t left right)) mid o rest →
      Reads (.rest power left) (t :: ts) o rest

namespace Reads

theorem not_stop_of_operator {power : Nat} {op : Operator} {t : Token} {ts : List Token}
    (hop : t.kind = .operator op) (hle : power ≤ op.leftPower) : ¬ Below power (t :: ts) := by
  intro h
  have := h t rfl op hop
  omega

theorem deterministic {stage : Stage} {ts rest rest' : List Token} {o o' : Outline}
    (h : Reads stage ts o rest) (h' : Reads stage ts o' rest') : o = o' ∧ rest = rest' := by
  induction h generalizing o' rest' with
  | number hkind hread =>
    cases h' with
    | number _ hread' =>
      obtain rfl := Option.some.inj (hread.symm.trans hread')
      exact ⟨rfl, rfl⟩
    | _ => simp_all
  | answer hkind =>
    cases h' with
    | answer => exact ⟨rfl, rfl⟩
    | _ => simp_all
  | bracket hopen hclose _ ih =>
    cases h' with
    | bracket hopen' _ hinner' =>
      obtain ⟨rfl, hrest⟩ := ih hinner'
      obtain ⟨rfl, rfl⟩ := List.cons.inj hrest
      obtain rfl := TokenKind.opening.inj (hopen.symm.trans hopen')
      exact ⟨rfl, rfl⟩
    | _ => simp_all
  | sign hop _ ih =>
    cases h' with
    | sign hop' hoperand' =>
      obtain ⟨rfl, rfl⟩ := ih hoperand'
      obtain rfl := TokenKind.operator.inj (hop.symm.trans hop')
      exact ⟨rfl, rfl⟩
    | _ => simp_all
  | phrase _ _ ihleft ihrest =>
    cases h' with
    | phrase hleft' hrest' =>
      obtain ⟨rfl, rfl⟩ := ihleft hleft'
      exact ihrest hrest'
  | stop _ hbelow =>
    cases h' with
    | stop => exact ⟨rfl, rfl⟩
    | operator hop hle => exact absurd hbelow (not_stop_of_operator hop hle)
  | operator hop hle _ _ ihright ihrest =>
    cases h' with
    | stop _ hbelow => exact absurd hbelow (not_stop_of_operator hop hle)
    | operator hop' _ hright' hrest' =>
      obtain rfl := TokenKind.operator.inj (hop.symm.trans hop')
      obtain ⟨rfl, rfl⟩ := ihright hright'
      exact ihrest hrest'

end Reads

namespace Derivation

/-- The outline of a derivation is read from its tokens, and what follows them goes on from there.
-/
theorem reads {c : Category} (d : Derivation c) (power : Nat) (ts rest : List Token) (o : Outline)
    (hfit : c.Fits power) (hend : Ended ts) (hstop : Below c.stop ts)
    (h : Reads (.rest power d.outline) ts o rest) :
    Reads (.phrase power) (d.tokens ++ ts) o rest := by
  induction d generalizing power ts rest o with
  | number t x numeral reads => exact .phrase (.number numeral reads) h
  | answer t named => exact .phrase (.answer named) h
  | bracket shape opener closer opens closes inner ih =>
    have hinner := ih 0 (closer :: ts) _ _ (Nat.zero_le 1) (.closing closes) (.closing closes _)
      (.stop (.closing closes) (.closing closes 0))
    simp only [tokens, List.append_assoc, List.cons_append, List.nil_append]
    exact .phrase (.bracket opens closes hinner) h
  | sign op t names signs operand ih =>
    have hoperand := ih 5 ts _ _ (by simp [Category.Fits]) hend hstop (.stop hend hstop)
    exact .phrase (.sign names hoperand) h
  | widen included phrase ih =>
    exact ih power ts rest o (included.fits hfit) hend (hstop.mono included.stop_le) h
  | join op t names joins left right ihl ihr =>
    have hbelow := hstop.mono joins.stop_le_rightPower
    have hright := ihr op.rightPower ts _ _ joins.fits_right hend (hstop.mono joins.stop_le_right)
      (.stop hend hbelow)
    rw [tokens, List.append_assoc, List.cons_append]
    exact ihl power _ rest o (joins.fits_left hfit) (.operator names)
      (.operator names joins.leftPower_lt_stop)
      (.operator names (joins.le_leftPower hfit) hright h)

theorem tokens_injective {c : Category} {d e : Derivation c} (h : d.tokens = e.tokens) : d = e := by
  have hfit : c.Fits 0 := by cases c <;> simp [Category.Fits]
  have hd := d.reads 0 [] _ _ hfit .nil (.nil _) (.stop .nil (.nil 0))
  have he := e.reads 0 [] _ _ hfit .nil (.nil _) (.stop .nil (.nil 0))
  rw [h] at hd
  exact outline_injective (hd.deterministic he).1

end Derivation

end PromptCalc
