import PromptCalc.Session

/-!
# Console

A session held line by line. A line is one of three commands or else a prompt. A prompt without an
answer adds nothing to the output, and the session goes on. The conversation ends with the lines,
at the command to quit, at a line that is not text, or at an answer that cannot be written.
-/
namespace PromptCalc

namespace Text

/-- The ranges of the characters that have the property White_Space, both ends included. -/
def spaceRanges : List (Nat × Nat) :=
  [(0x09, 0x0D), (0x20, 0x20), (0x85, 0x85), (0xA0, 0xA0), (0x1680, 0x1680), (0x2000, 0x200A),
    (0x2028, 0x2029), (0x202F, 0x202F), (0x205F, 0x205F), (0x3000, 0x3000)]

def isSpace (c : Char) : Bool :=
  spaceRanges.any fun range => range.1 ≤ c.toNat && c.toNat ≤ range.2

def trim (text : String) : String :=
  let inner := text.toList.dropWhile isSpace
  String.ofList (inner.reverse.dropWhile isSpace).reverse

end Text

namespace Console

def greeting : String :=
  "Calculator started.\n" ++
  ">>>> Input your calculator prompt in format: calc '<your equation here>'\n" ++
  ">>>> Or type help to see instructions.\n"

def help : String :=
  "Input prompts\n" ++
  "    - calc '<equation>'\n" ++
  "    - clear\n" ++
  "    - quit\n" ++
  "    - help\n"

def farewell : String := "Exit Calculator.\n"

/-- Stands before every line that is read. -/
def marker : String := ">> "

inductive Request where
  | help
  | clear
  | quit
  | prompt (text : String)
  deriving DecidableEq, Repr

/-- White space around a line and the case of a command do not matter. No character outside ASCII
has a letter of a command as its lower case, so it is enough to fold the ASCII letters. -/
def Request.ofLine (line : String) : Request :=
  let text := Text.trim line
  let folded := String.ofList (text.toList.map Char.toLower)
  if folded = "help" then help
  else if folded = "clear" then clear
  else if folded = "quit" then quit
  else prompt text

inductive Ending where
  | finished
  | notText
  /-- An answer was to be written with more places than a number can have. -/
  | tooManyPlaces
  deriving DecidableEq, Repr

def Ending.exit : Ending → Nat
  | finished => 0
  | notText => 1
  | tooManyPlaces => 101

def result (text : String) : String := ">> result: " ++ text ++ "\n"

/-- What a line prints, why its prompt has no answer, if it has none, and the session after it or
the end that it brings. -/
structure Reply where
  output : String
  failure : Option Failure
  next : Except Ending Session

def respond (places : Nat) (s : Session) (line : String) : Reply :=
  match Request.ofLine line with
  | .help => ⟨help, none, .ok s⟩
  | .clear => ⟨"", none, .ok s.clear⟩
  | .quit => ⟨farewell, none, .error .finished⟩
  | .prompt text =>
    match s.evaluate text with
    | (.error e, s) => ⟨"", some e, .ok s⟩
    | (.ok answer, s) =>
      match Number.rounded? places answer with
      | some text => ⟨result text, none, .ok s⟩
      | none => ⟨"", none, .error .tooManyPlaces⟩

/-- The reply to a line as it was read. A line that is not text is given as `none`. -/
def answer (places : Nat) (s : Session) : Option String → Reply
  | some line => respond places s line
  | none => ⟨"", none, .error .notText⟩

/-- What the lines print, each after its marker. -/
def converse (places : Nat) (s : Session) : List (Option String) → String × Ending
  | [] => (marker, .finished)
  | line :: lines =>
    let reply := answer places s line
    match reply.next with
    | .error ending => (marker ++ reply.output, ending)
    | .ok s =>
      let rest := converse places s lines
      (marker ++ reply.output ++ rest.1, rest.2)

/-- The lines of an input, without the line feeds that end them. -/
def lines : List UInt8 → List (List UInt8)
  | [] => []
  | byte :: bytes =>
    if byte = 10 then [] :: lines bytes
    else
      match lines bytes with
      | [] => [[byte]]
      | line :: rest => (byte :: line) :: rest

def decode (line : List UInt8) : Option String := String.fromUTF8? line.toByteArray

end Console

end PromptCalc
