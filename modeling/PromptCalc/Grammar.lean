import PromptCalc.Expr

/-!
# Grammar

The phrases of an equation, without regard to how they are found. A sum is made of products, a
product of signed or unsigned chains of powers, and a chain of atoms; all of them group to the
left. A derivation says how tokens form a phrase, and so which tree the phrase stands for.
-/
namespace PromptCalc

inductive Category where
  | sum
  | product
  /-- A phrase with signs before it, or a chain, the last exponent of which may have signs. -/
  | sign
  /-- A phrase with at least one sign before it. -/
  | signed
  | chain
  | atom
  deriving DecidableEq, Repr

namespace Category

/-- A phrase of the first category is one of the second as it stands. -/
inductive Includes : Category → Category → Prop where
  | product : Includes product sum
  | sign : Includes sign product
  | signed : Includes signed sign
  | chain : Includes chain sign
  | atom : Includes atom chain

/-- Phrases of the first and the last category, joined by the operator, are one of the second. -/
inductive Joins : Category → Category → Operator → Category → Prop where
  | plus : Joins sum sum .plus product
  | minus : Joins sum sum .minus product
  | times : Joins product product .times sign
  | divide : Joins product product .divide sign
  | power : Joins chain chain .power atom
  | signedPower : Joins chain sign .power signed

end Category

inductive Derivation : Category → Type where
  | number (t : Token) (x : Float) (numeral : t.kind = .int ∨ t.kind = .float)
      (reads : Number.read? t.literal = some x) : Derivation .atom
  | answer (t : Token) (named : t.kind = .answer) : Derivation .atom
  | bracket (shape : Bracket) (opener closer : Token) (opens : opener.kind = .opening shape)
      (closes : closer.kind = .closing shape) (inner : Derivation .sum) : Derivation .atom
  | sign (op : Operator) (t : Token) (names : t.kind = .operator op)
      (signs : op.signPower?.isSome) (operand : Derivation .sign) : Derivation .signed
  | widen {c d : Category} (included : c.Includes d) (phrase : Derivation c) : Derivation d
  | join {l c r : Category} (op : Operator) (t : Token) (names : t.kind = .operator op)
      (joins : l.Joins c op r) (left : Derivation l) (right : Derivation r) : Derivation c

namespace Derivation

def tokens {c : Category} : Derivation c → List Token
  | number t .. => [t]
  | answer t _ => [t]
  | bracket _ opener closer _ _ inner => opener :: inner.tokens ++ [closer]
  | sign _ t _ _ operand => t :: operand.tokens
  | widen _ phrase => phrase.tokens
  | join _ t _ _ left right => left.tokens ++ t :: right.tokens

/-- The tree of the phrase, where `ans` stands for the given number. Brackets leave no trace. -/
def tree {c : Category} (ans : Float) : Derivation c → Expr
  | number t x .. => .value x (some t)
  | answer t _ => .value ans (some t)
  | bracket _ _ _ _ _ inner => inner.tree ans
  | sign op t _ _ operand => .unary op (operand.tree ans) (some t)
  | widen _ phrase => phrase.tree ans
  | join op t _ _ left right => .binary op (left.tree ans) (right.tree ans) (some t)

/-- The levels of the phrase. What stands in a bracket, behind a sign or to the right of an operator
is one level below the phrase it stands in. -/
def levels {c : Category} : Derivation c → Nat
  | number .. => 1
  | answer .. => 1
  | bracket _ _ _ _ _ inner => inner.levels + 1
  | sign _ _ _ _ operand => operand.levels + 1
  | widen _ phrase => phrase.levels
  | join _ _ _ _ left right => max left.levels (right.levels + 1)

/-- The most signs and brackets that one token of the phrase stands in. -/
def nesting {c : Category} : Derivation c → Nat
  | number .. => 0
  | answer .. => 0
  | bracket _ _ _ _ _ inner => inner.nesting + 1
  | sign _ _ _ _ operand => operand.nesting + 1
  | widen _ phrase => phrase.nesting
  | join _ _ _ _ left right => max left.nesting right.nesting

theorem tokens_ne_nil {c : Category} (d : Derivation c) : d.tokens ≠ [] := by
  induction d with
  | widen _ _ ih => exact ih
  | _ => simp [tokens]

theorem nesting_lt_levels {c : Category} (d : Derivation c) : d.nesting < d.levels := by
  induction d <;> simp only [nesting, levels] <;> omega

end Derivation

end PromptCalc
