import PromptCalc.Token
import PromptCalc.Number

/-!
# Expressions

The tree of an equation, its text and its value. A node that was read from a text keeps the token it
was read from, a node built by hand has none.
-/
namespace PromptCalc

inductive Expr where
  | value (number : Float) (token : Option Token)
  | unary (op : Operator) (operand : Expr) (token : Option Token)
  | binary (op : Operator) (left right : Expr) (token : Option Token)
  deriving Repr

namespace Expr

def token? : Expr → Option Token
  | value _ token => token
  | unary _ _ token => token
  | binary _ _ _ token => token

/-- The number of nodes on the longest way down from the root. -/
def height : Expr → Nat
  | value .. => 1
  | unary _ operand _ => operand.height + 1
  | binary _ left right _ => max left.height right.height + 1

/-- The text of a tree, every operator before its operands. -/
def text : Expr → String
  | value number _ => Number.text number
  | unary op operand _ => "(" ++ op.symbol.toString ++ " " ++ operand.text ++ ")"
  | binary op left right _ =>
    "(" ++ op.symbol.toString ++ " " ++ left.text ++ " " ++ right.text ++ ")"

end Expr

/-! ## Evaluation

Both operands are evaluated, the left one first, before their operator is applied, and a division by
zero of either sign ends the evaluation. A unary operator is applied to zero and its operand. -/

/-- A division by zero, at the place of its operator if that is known. -/
structure ZeroDivision where
  span : Option Span
  deriving DecidableEq, Repr

def ZeroDivision.message : String := "division by zero"

def ZeroDivision.label : String := "this division"

/-- The result of an operator. A division by zero has none. -/
def Operator.apply? (op : Operator) (x y : Float) : Option Float :=
  match op with
  | plus => some (x + y)
  | minus => some (x - y)
  | times => some (x * y)
  | divide => if y == 0 then none else some (x / y)
  | power => some (x.pow y)

namespace Expr

def evaluate : Expr → Except ZeroDivision Float
  | value number _ => .ok number
  | unary op operand _ =>
    match operand.evaluate with
    | .error e => .error e
    | .ok x =>
      match op.apply? 0 x with
      | some result => .ok result
      | none => .error ⟨none⟩
  | binary op left right token =>
    match left.evaluate with
    | .error e => .error e
    | .ok x =>
      match right.evaluate with
      | .error e => .error e
      | .ok y =>
        match op.apply? x y with
        | some result => .ok result
        | none => .error ⟨token.map Token.span⟩

end Expr

end PromptCalc
