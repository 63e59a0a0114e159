import PromptCalc.Token

/-!
# Faults

Why a prompt has no answer, and where. The causes are kept apart from their wording: each fault has
a message, a code to look it up by, a label for the place it points at, and most have a hint.
-/
namespace PromptCalc

inductive Reason where
  | trailingInput
  | unbalancedBrackets
  | tooDeep
  | missingOperand
  | invalidNumber
  | mismatchedBracket
  | unclosedBracket
  | notANumber
  | notASign
  | missingOperator
  | trailingToken
  deriving DecidableEq, Repr

def Reason.text : Reason → String
  | trailingInput => "unexpected input after closing quote"
  | unbalancedBrackets => "unbalanced brackets"
  | tooDeep => "equation nested too deeply"
  | missingOperand => "missing operand"
  | invalidNumber => "invalid number"
  | mismatchedBracket => "mismatched closing bracket"
  | unclosedBracket => "bracket is never closed"
  | notANumber => "expected a number"
  | notASign => "not a prefix operator"
  | missingOperator => "missing operator"
  | trailingToken => "unexpected token after equation"

structure EquationFault where
  reason : Reason
  span : Span
  deriving DecidableEq, Repr

inductive Fault where
  | prompt (span : Span)
  | openingQuote (span : Span)
  | closingQuote (span : Span)
  | equation (fault : EquationFault)
  | zeroDivision (span : Option Span)
  deriving DecidableEq, Repr

namespace Fault

def span? : Fault → Option Span
  | prompt span | openingQuote span | closingQuote span => some span
  | equation fault => some fault.span
  | zeroDivision span => span

def message : Fault → String
  | prompt _ => "incorrect prompt"
  | openingQuote _ => "missing prompt opening quote"
  | closingQuote _ => "missing prompt closing quote"
  | equation fault => "incorrect equation format: " ++ fault.reason.text
  | zeroDivision _ => "division by zero"

def code : Fault → String
  | prompt _ => "calc::prompt"
  | openingQuote _ => "calc::opening_quote"
  | closingQuote _ => "calc::closing_quote"
  | equation _ => "calc::equation"
  | zeroDivision _ => "calc::zero_division"

def hint? : Fault → Option String
  | prompt _ => some "prompts look like `calc '<equation>'`"
  | openingQuote _ => some "wrap the equation in single quotes: `calc '1 + 1'`"
  | closingQuote _ => some "add a trailing `'` to terminate the equation"
  | equation _ =>
    some "equations use numbers, `ans`, `+ - * / ^` and balanced `()`, `[]`, `\x7b\x7d`"
  | zeroDivision _ => none

def label : Fault → String
  | prompt _ => "expected `calc '<equation>'`"
  | openingQuote _ => "expected `'` here"
  | closingQuote _ => "this quote is never closed"
  | equation _ => "here"
  | zeroDivision _ => "the right operand of this division is zero"

end Fault

/-- A fault with the whole text that its place refers to. -/
structure Failure where
  fault : Fault
  source : String
  deriving DecidableEq, Repr

/-- The name under which the text of a prompt is quoted. -/
def Failure.sourceName : String := "<prompt>"

end PromptCalc
