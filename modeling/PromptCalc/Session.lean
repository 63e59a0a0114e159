import PromptCalc.Lexer
import PromptCalc.Nesting
import PromptCalc.Equation

/-!
# Sessions

A session answers prompts one after the other and remembers the last answer, which an equation can
refer to as `ans`. A prompt is the word `calc` and an equation between quotes, its envelope. It may
be given whole, to `parse` or `evaluate`, or step by step: `input` hands over the text,
`readPrompt` takes off the envelope and `readEquation` reads a tree from the tokens inside it. What
a step has consumed stays consumed, also when it fails.
-/
namespace PromptCalc

inductive Envelope where
  /-- The text does not start with `calc` but with the given token, or it is empty. -/
  | noCommand (found : Option Token)
  /-- Nothing follows `calc`. -/
  | commandAlone (command : Token)
  /-- Another token stands where the opening quote should. -/
  | noOpening (found : Token)
  /-- No quote closes the opening one. -/
  | noClosing (opening : Token) (inner : List Token)
  /-- The given token follows the closing quote. -/
  | trailing (inner : List Token) (closing found : Token)
  | complete (inner : List Token) (closing : Token)
  deriving DecidableEq, Repr

namespace Envelope

def isQuote (t : Token) : Bool := t.kind == .quote

def afterOpening (opening : Token) (ts : List Token) : Envelope :=
  let inner := ts.takeWhile (!isQuote ·)
  match ts.dropWhile (!isQuote ·) with
  | [] => noClosing opening inner
  | [closing] => complete inner closing
  | closing :: found :: _ => trailing inner closing found

def ofTokens : List Token → Envelope
  | [] => noCommand none
  | command :: ts =>
    if command.kind ≠ .command then noCommand (some command)
    else
      match ts with
      | [] => commandAlone command
      | opening :: ts => if isQuote opening then afterOpening opening ts else noOpening opening

end Envelope

structure Session where
  lexer : Lexer
  /-- The tokens between the quotes. -/
  stream : TokenStream
  /-- Where a missing token is reported: at the closing quote, once there is one. -/
  close : Nat
  /-- The number of phrases that are being read. -/
  depth : Nat
  answer : Float

namespace Session

def ofLexer (lexer : Lexer) : Session := ⟨lexer, .empty, 0, 0, 0⟩

def new : Session := .ofLexer (.ofText "")

def fail {α : Type} (s : Session) (fault : Fault) : Except Failure α :=
  .error ⟨fault, s.lexer.text⟩

/-- Starts on a new text. The last answer is kept. -/
def input (s : Session) (text : String) : Session :=
  { s with lexer := .ofText text, stream := .empty, close := text.utf8ByteSize, depth := 0 }

/-- The session with the lexer behind a token, or at the end of its text if there is none. -/
def pass (s : Session) (found : Option Token) : Session := { s with lexer := s.lexer.after found }

def collect (s : Session) (inner : List Token) : Session :=
  { s with stream := s.stream.append inner }

def closeAt (s : Session) (closing : Token) : Session := { s with close := closing.span.start }

/-- Takes off the envelope of a prompt and collects the tokens inside it. -/
def readPrompt (s : Session) : Except Failure Unit × Session :=
  match Envelope.ofTokens s.lexer.tokens with
  | .noCommand found => (s.fail (.prompt (found.getD s.lexer.eof).span), s.pass found)
  | .commandAlone command => (s.fail (.prompt command.span), s.pass none)
  | .noOpening found => (s.fail (.openingQuote found.span), s.pass (some found))
  | .noClosing opening inner =>
    (s.fail (.closingQuote opening.span), (s.pass none).collect inner)
  | .trailing inner closing found =>
    (s.fail (.equation ⟨.trailingInput, found.span⟩),
      ((s.pass (some found)).collect inner).closeAt closing)
  | .complete inner closing =>
    let s := ((s.pass none).collect inner).closeAt closing
    match Nesting.fault? s.stream.tokens with
    | some t => (s.fail (.equation ⟨.unbalancedBrackets, t.span⟩), s)
    | none => (.ok (), s)

def setting (s : Session) : Equation.Setting := ⟨s.answer, .empty s.close⟩

def reader (s : Session) : Equation.Reader := ⟨s.stream.ahead, s.depth⟩

/-- The session with its tokens read as far as the reader has come. -/
def resume (s : Session) (r : Equation.Reader) : Session :=
  { s with stream := s.stream.withLeft r.ahead.length, depth := r.depth }

/-- Reads a tree from the tokens collected, with operators of at least the given power. -/
def readEquation (s : Session) (minPower : Nat) : Except Failure Expr × Session :=
  match Equation.read s.setting minPower s.reader with
  | (.ok phrase, r) => (.ok phrase.tree, s.resume r)
  | (.error fault, r) => (s.fail (.equation fault), s.resume r)

/-- Reads a tree that takes up all the tokens collected. -/
def readWhole (s : Session) : Except Failure Expr × Session :=
  match s.readEquation 0 with
  | (.error e, s) => (.error e, s)
  | (.ok tree, s) =>
    match s.stream.peek? with
    | some t => (s.fail (.equation ⟨.trailingToken, t.span⟩), s)
    | none => (.ok tree, s)

def parse (s : Session) (text : String) : Except Failure Expr × Session :=
  match (s.input text).readPrompt with
  | (.error e, s) => (.error e, s)
  | (.ok _, s) => s.readWhole

/-- The answer to a prompt. It becomes the last answer. -/
def evaluate (s : Session) (text : String) : Except Failure Float × Session :=
  match s.parse text with
  | (.error e, s) => (.error e, s)
  | (.ok tree, s) =>
    match tree.evaluate with
    | .error e => (s.fail (.zeroDivision e.span), s)
    | .ok answer => (.ok answer, { s with answer })

def clear (s : Session) : Session := { s with answer := 0 }

end Session

/-! ## Histories

The calls that may be made on a session, in any order, and the states that they lead to. A session
starts new or on a lexer that has already been read to some point. -/

inductive Call where
  | input (text : String)
  | readPrompt
  | readEquation (minPower : Nat)
  | parse (text : String)
  | evaluate (text : String)
  | tokens
  | clear
  deriving DecidableEq, Repr

inductive Response where
  | none
  | tree (e : Expr)
  | number (x : Float)
  | tokens (ts : List Token)
  | failure (e : Failure)

namespace Session

def responseOf {α : Type} (ok : α → Response) : Except Failure α × Session → Response × Session
  | (.ok a, s) => (ok a, s)
  | (.error e, s) => (.failure e, s)

def call (s : Session) : Call → Response × Session
  | .input text => (.none, s.input text)
  | .readPrompt => responseOf (fun _ => .none) s.readPrompt
  | .readEquation minPower => responseOf .tree (s.readEquation minPower)
  | .parse text => responseOf .tree (s.parse text)
  | .evaluate text => responseOf .number (s.evaluate text)
  | .tokens => (.tokens s.stream.tokens, s)
  | .clear => (.none, s.clear)

def run (s : Session) (calls : List Call) : Session := calls.foldl (fun s c => (s.call c).2) s

inductive Initial : Session → Prop where
  | new : Initial .new
  | ofLexer (text : String) (n : Nat) : Initial (.ofLexer ((Lexer.ofText text).skip n))

def Reachable (s : Session) : Prop := ∃ start calls, Initial start ∧ s = start.run calls

theorem run_append (s : Session) (as bs : List Call) : s.run (as ++ bs) = (s.run as).run bs :=
  List.foldl_append

end Session

end PromptCalc
