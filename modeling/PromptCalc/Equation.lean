import PromptCalc.Expr
import PromptCalc.Fault

/-!
# Equations

Tokens are read into a tree by precedence climbing: an operand, then every operator of at least the
power asked for, each with its right operand. What stands in a bracket, behind a sign or to the
right of an operator is a phrase of its own, one level below. The number of levels and the height of
a tree are bounded, so that a tree can be evaluated and written by plain recursion.
-/
namespace PromptCalc.Equation

/-- The most levels that an equation may have. -/
def maxDepth : Nat := 100

/-- The greatest height that an infix operator may give to a tree. -/
def maxHeight : Nat := 1000

structure Phrase where
  tree : Expr
  height : Nat

/-- What an equation takes from its surroundings: the number that `ans` stands for, and the place to
point at where a token is missing. -/
structure Setting where
  answer : Float
  stop : Span

/-- The tokens not read yet and the number of phrases that are being read. -/
structure Reader where
  ahead : List Token
  depth : Nat

namespace Reader

def enter (r : Reader) : Reader := { r with depth := r.depth + 1 }

def leave (r : Reader) : Reader := { r with depth := r.depth - 1 }

end Reader

/-- The phrase that was read, or why none was, and what was left of the tokens then. -/
abbrev Outcome := Except EquationFault Phrase × Reader

def fail (reason : Reason) (span : Span) (r : Reader) : Outcome := (.error ⟨reason, span⟩, r)

def failTooDeep (setting : Setting) (r : Reader) : Outcome :=
  match r.ahead with
  | [] => fail .tooDeep setting.stop r
  | t :: _ => fail .tooDeep t.span r

/-- The rest of a bracket, after its opening token. -/
def bracketed (sub : Nat → Reader → Outcome) (opener : Token) (shape : Bracket) (r : Reader) :
    Outcome :=
  match sub 0 r with
  | (.error e, r) => (.error e, r)
  | (.ok inner, r) =>
    match r.ahead with
    | [] => fail .unclosedBracket opener.span r
    | t :: ts =>
      let r := { r with ahead := ts }
      if t.kind = .closing shape then (.ok inner, r) else fail .mismatchedBracket t.span r

/-- The operand of a sign, after the sign. -/
def signed (sub : Nat → Reader → Outcome) (sign : Token) (op : Operator) (r : Reader) : Outcome :=
  match op.signPower? with
  | none => fail .notASign sign.span r
  | some power =>
    match sub power r with
    | (.error e, r) => (.error e, r)
    | (.ok operand, r) => (.ok ⟨.unary op operand.tree (some sign), operand.height + 1⟩, r)

/-- A number, `ans`, a bracket or a sign with its operand. -/
def operand (setting : Setting) (sub : Nat → Reader → Outcome) (r : Reader) : Outcome :=
  match r.ahead with
  | [] => fail .missingOperand setting.stop r
  | t :: ts =>
    let r := { r with ahead := ts }
    match t.kind with
    | .int | .float =>
      match Number.read? t.literal with
      | some number => (.ok ⟨.value number (some t), 1⟩, r)
      | none => fail .invalidNumber t.span r
    | .answer => (.ok ⟨.value setting.answer (some t), 1⟩, r)
    | .opening shape => bracketed sub t shape r
    | .operator op => signed sub t op r
    | _ => fail .notANumber t.span r

/-- Extends a phrase to the right by operators whose power is at least `minPower`. -/
def extend (sub : Nat → Reader → Outcome) (minPower : Nat) (left : Phrase) (r : Reader) :
    Outcome :=
  match r.ahead with
  | [] => (.ok left, r)
  | t :: ts =>
    match t.kind with
    | .closing _ => (.ok left, r)
    | .operator op =>
      if op.leftPower < minPower then (.ok left, r)
      else
        match sub op.rightPower { r with ahead := ts } with
        | (.error e, r) => (.error e, r)
        | (.ok right, r) =>
          let height := max left.height right.height + 1
          if h : maxHeight < height then fail .tooDeep t.span r
          else
            have : maxHeight - height < maxHeight - left.height := by omega
            extend sub minPower ⟨.binary op left.tree right.tree (some t), height⟩ r
    | _ => fail .missingOperator t.span r
termination_by maxHeight - left.height

def phrase (setting : Setting) (sub : Nat → Reader → Outcome) (minPower : Nat) (r : Reader) :
    Outcome :=
  match operand setting sub r with
  | (.error e, r) => (.error e, r)
  | (.ok left, r) => extend sub minPower left r

/-- Reads a phrase one level below those being read. The first argument bounds the recursion. If it
is above the levels left up to `maxDepth`, those run out first. -/
def climb (setting : Setting) : Nat → Nat → Reader → Outcome
  | 0, _, r => failTooDeep setting r
  | levels + 1, minPower, r =>
    if maxDepth ≤ r.depth then failTooDeep setting r
    else
      match phrase setting (climb setting levels) minPower r.enter with
      | (result, r) => (result, r.leave)

/-- The longest phrase at the front of the tokens whose operators have at least the given power. -/
def read (setting : Setting) (minPower : Nat) (r : Reader) : Outcome :=
  climb setting (maxDepth + 1) minPower r

end PromptCalc.Equation
