import PromptCalc.Grammar
import Mathlib.Logic.Relation

/-!
# Precedence

How the powers of the operators and the categories of the grammar belong together: which phrases are
read whole with a given least power, and which operators may follow a phrase without becoming part
of it.
-/
namespace PromptCalc

namespace Category

/-- With operators of at least the given power, a phrase of the category is read to its end. -/
def Fits (power : Nat) : Category → Prop
  | sum => power ≤ 1
  | product => power ≤ 3
  | sign | chain => power ≤ 6
  | signed | atom => True

/-- The least power of the operators that would extend the last operand of a phrase. -/
def stop : Category → Nat
  | sum => 2
  | product => 4
  | sign | signed => 5
  | chain | atom => 7

theorem Fits.mono {c : Category} {power least : Nat} (h : c.Fits power) (hle : least ≤ power) :
    c.Fits least := by
  cases c <;> simp only [Fits] at * <;> omega

theorem leftPower_lt_atom_stop (op : Operator) : op.leftPower < atom.stop := by
  cases op <;> decide

abbrev Widens : Category → Category → Prop := Relation.ReflTransGen Includes

namespace Includes

variable {c d : Category}

theorem fits (h : c.Includes d) {power : Nat} (hfit : d.Fits power) : c.Fits power := by
  cases h <;> simp only [Fits] at * <;> omega

theorem stop_le (h : c.Includes d) : d.stop ≤ c.stop := by
  cases h <;> decide

end Includes

namespace Joins

variable {l c r : Category} {op : Operator}

theorem leftPower_lt_stop (h : l.Joins c op r) : op.leftPower < l.stop := by
  cases h <;> decide

theorem stop_le_rightPower (h : l.Joins c op r) : c.stop ≤ op.rightPower := by
  cases h <;> decide

theorem stop_le_right (h : l.Joins c op r) : c.stop ≤ r.stop := by
  cases h <;> decide

theorem fits_left (h : l.Joins c op r) {power : Nat} (hfit : c.Fits power) : l.Fits power := by
  cases h <;> exact hfit

theorem le_leftPower (h : l.Joins c op r) {power : Nat} (hfit : c.Fits power) :
    power ≤ op.leftPower := by
  cases h <;> exact hfit

theorem fits_right (h : l.Joins c op r) : r.Fits op.rightPower := by
  cases h <;> simp [Fits, Operator.rightPower]

/-- An operator that does not take a joined phrase as its left operand may go on in the right
operand of that phrase. -/
theorem rightPower_le {other : Operator} (h : l.Joins c op r) (hstop : ¬ other.leftPower < c.stop) :
    op.rightPower ≤ other.leftPower ∨ r = signed ∧ other = .power := by
  cases h <;> cases other <;> simp_all [stop, Operator.leftPower, Operator.rightPower]

end Joins

theorem widens_sum (c : Category) : c.Widens sum := by
  have hproduct : product.Widens sum := .single .product
  have hsign : sign.Widens sum := .head .sign hproduct
  have hchain : chain.Widens sum := .head .chain hsign
  cases c with
  | sum => exact .refl
  | product => exact hproduct
  | sign => exact hsign
  | signed => exact .head .signed hsign
  | chain => exact hchain
  | atom => exact .head .atom hchain

theorem widens_sign {c : Category} (h : c.Fits 4) : c.Widens sign := by
  have hchain : chain.Widens sign := .single .chain
  cases c with
  | sum => simp [Fits] at h
  | product => simp [Fits] at h
  | sign => exact .refl
  | signed => exact .single .signed
  | chain => exact hchain
  | atom => exact .head .atom hchain

theorem widens_product {c : Category} (h : c ≠ sum) : c.Widens product := by
  have hsign : sign.Widens product := .single .sign
  cases c with
  | sum => exact absurd rfl h
  | product => exact .refl
  | sign => exact hsign
  | signed => exact (widens_sign (by simp [Fits])).trans hsign
  | chain => exact (widens_sign (by simp [Fits])).trans hsign
  | atom => exact (widens_sign (by simp [Fits])).trans hsign

theorem widens_chain {c : Category} (h : 6 < c.stop) : c.Widens chain := by
  cases c with
  | chain => exact .refl
  | atom => exact .single .atom
  | _ => simp [stop] at h

/-- A phrase that an operator may follow and an operand read for that operator can be joined, and
nothing that may follow the operand would extend the whole otherwise than at its end. -/
theorem exists_joins {c r : Category} {op : Operator} {power : Nat}
    (hstop : op.leftPower < c.stop) (hpower : power ≤ op.leftPower)
    (hfit : r.Fits op.rightPower) :
    ∃ l d r', c.Widens l ∧ r.Widens r' ∧ l.Joins d op r' ∧ d.Fits power ∧
      (d.stop = op.rightPower ∨ d.stop = r.stop) := by
  cases op with
  | plus =>
    have hr : r ≠ sum := by rintro rfl; simp [Fits, Operator.rightPower] at hfit
    exact ⟨sum, sum, product, c.widens_sum, widens_product hr, .plus, hpower, .inl rfl⟩
  | minus =>
    have hr : r ≠ sum := by rintro rfl; simp [Fits, Operator.rightPower] at hfit
    exact ⟨sum, sum, product, c.widens_sum, widens_product hr, .minus, hpower, .inl rfl⟩
  | times =>
    have hc : c ≠ sum := by rintro rfl; simp [stop, Operator.leftPower] at hstop
    exact ⟨product, product, sign, widens_product hc, widens_sign hfit, .times, hpower, .inl rfl⟩
  | divide =>
    have hc : c ≠ sum := by rintro rfl; simp [stop, Operator.leftPower] at hstop
    exact ⟨product, product, sign, widens_product hc, widens_sign hfit, .divide, hpower, .inl rfl⟩
  | power =>
    have hc := widens_chain hstop
    cases r with
    | signed => exact ⟨chain, sign, signed, hc, .refl, .signedPower, hpower, .inr rfl⟩
    | atom => exact ⟨chain, chain, atom, hc, .refl, .power, hpower, .inl rfl⟩
    | _ => simp [Fits, Operator.rightPower] at hfit

end Category

/-- Apart from their categories, two derivations are the same phrase. -/
structure Derivation.Recasts {c d : Category} (phrase : Derivation c) (other : Derivation d) :
    Prop where
  tokens : other.tokens = phrase.tokens
  tree : ∀ ans, other.tree ans = phrase.tree ans
  levels : other.levels = phrase.levels
  nesting : other.nesting = phrase.nesting

theorem Derivation.exists_recast {c d : Category} (h : c.Widens d) (phrase : Derivation c) :
    ∃ other : Derivation d, phrase.Recasts other := by
  induction h with
  | refl => exact ⟨phrase, rfl, fun _ => rfl, rfl, rfl⟩
  | tail _ hlast ih =>
    obtain ⟨other, htokens, htree, hlevels, hnesting⟩ := ih
    exact ⟨.widen hlast other, htokens, htree, hlevels, hnesting⟩

end PromptCalc
