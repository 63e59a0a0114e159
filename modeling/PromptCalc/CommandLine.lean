import PromptCalc.Console

/-!
# Command line

The arguments name one of four actions, after an option for the places of a result. `run` gives
what a call prints and the code it exits with. What `-h`, `--help`, `-V`, `--version` and the action
`help` print about the program itself, with exit code 0, is left out: arguments that ask for it are
refused here.
-/
namespace PromptCalc

def TokenKind.name : TokenKind → String
  | command => "CALC"
  | answer => "ANS"
  | quote => "SINGLEQUOTE"
  | opening .round => "LPAREN"
  | closing .round => "RPAREN"
  | opening .square => "LSQBRACK"
  | closing .square => "RSQBRACK"
  | opening .curly => "LCURBRACK"
  | closing .curly => "RCURBRACK"
  | operator .plus => "PLUS"
  | operator .minus => "MINUS"
  | operator .times => "ASTERISK"
  | operator .divide => "SLASH"
  | operator .power => "CIRCUMFLEX"
  | int => "INT"
  | float => "FLOAT"
  | unknown => "UNKNOWN"
  | eof => "EOF"

namespace Token

/-- Only a numeral has a value. -/
def valueText (t : Token) : String :=
  match t.kind with
  | .int | .float => ((Number.read? t.literal).map Number.text).getD "null"
  | _ => "null"

def listing (t : Token) : String := t.kind.name ++ " " ++ t.literal ++ " " ++ t.valueText

end Token

namespace CommandLine

inductive Action where
  /-- Holds a conversation over standard input. -/
  | converse
  /-- Lists the tokens of a prompt. -/
  | tokenize (text : String)
  /-- Writes the tree of a prompt. -/
  | parse (text : String)
  /-- Writes the answer to a prompt. -/
  | evaluate (text : String)
  deriving DecidableEq, Repr

structure Invocation where
  places : Nat
  action : Action
  deriving DecidableEq, Repr

def defaultPlaces : Nat := 2

/-- Digits, after a plus sign or without one, for a number below `2 ^ 64`. -/
def places? (text : String) : Option Nat :=
  let digits :=
    match text.toList with
    | '+' :: cs => cs
    | cs => cs
  let n := Nat.ofDigitChars 10 digits 0
  if Decimal.isDigits digits ∧ n < Nat.pow 2 64 then some n else none

/-- A dash alone is no option. -/
def isOption (arg : String) : Bool :=
  match arg.toList with
  | '-' :: _ :: _ => true
  | _ => false

/-- The operands among arguments. Options are refused, but nothing after `--` is an option. -/
def operands? : List String → Option (List String)
  | [] => some []
  | arg :: args =>
    if arg = "--" then some args
    else if isOption arg then none
    else (operands? args).map (arg :: ·)

def action? : List String → Option Action
  | [] => some .converse
  | ["--"] => some .converse
  | name :: args =>
    match name, operands? args with
    | "repl", some [] => some .converse
    | "tokenize", some [text] => some (.tokenize text)
    | "parse", some [text] => some (.parse text)
    | "eval", some [text] => some (.evaluate text)
    | _, _ => none

/-- The value that the option carries in the same argument. -/
def attached? (arg : String) : Option String :=
  match arg.toList with
  | '-' :: 'p' :: '=' :: value => some (String.ofList value)
  | '-' :: 'p' :: c :: value => some (String.ofList (c :: value))
  | cs => ("--precision=".toList.isPrefixOf? cs).map String.ofList

/-- The value of the option, if it is given, and the arguments after it. -/
def option? : List String → Option (String × List String)
  | "-p" :: value :: args => some (value, args)
  | "--precision" :: value :: args => some (value, args)
  | arg :: args => (attached? arg).map fun value => (value, args)
  | [] => none

/-- What the arguments ask for. The option may be given once. There is nothing for arguments that
are refused, and nothing for those that ask for a text about the program. -/
def invocation? (args : List String) : Option Invocation :=
  match option? args with
  | none => (action? args).map (Invocation.mk defaultPlaces)
  | some (value, args) =>
    match places? value, action? args with
    | some places, some action => some ⟨places, action⟩
    | _, _ => none

/-- What a call prints, its exit code, and why its prompt was refused, if one was. -/
structure Report where
  output : String
  exit : Nat
  failure : Option Failure
  deriving DecidableEq, Repr

namespace Report

def success (output : String) : Report := ⟨output, 0, none⟩

def refused (failure : Failure) : Report := ⟨"", 1, some failure⟩

def ended (output : String) (ending : Console.Ending) : Report := ⟨output, ending.exit, none⟩

/-- The arguments were refused, unless they ask for a text about the program. -/
def misuse : Report := ⟨"", 2, none⟩

end Report

def listing (text : String) : String :=
  let l := Lexer.ofText text
  String.join ((l.tokens ++ [l.eof]).map fun t => t.listing ++ "\n")

def Invocation.run (i : Invocation) (input : ByteArray) : Report :=
  match i.action with
  | .converse =>
    let lines := (Console.lines input.toList).map Console.decode
    let (output, ending) := Console.converse i.places .new lines
    .ended (Console.greeting ++ output) ending
  | .tokenize text => .success (listing text)
  | .parse text =>
    match (Session.new.parse text).1 with
    | .ok tree => .success (tree.text ++ "\n")
    | .error e => .refused e
  | .evaluate text =>
    match (Session.new.evaluate text).1 with
    | .error e => .refused e
    | .ok answer =>
      match Number.rounded? i.places answer with
      | some text => .success (text ++ "\n")
      | none => .ended "" .tooManyPlaces

def run (args : List String) (input : ByteArray) : Report :=
  match invocation? args with
  | some i => i.run input
  | none => .misuse

end CommandLine

end PromptCalc
