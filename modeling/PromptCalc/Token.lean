/-!
# Tokens

A token has a kind, the characters it was read from and its place in the text, in bytes. Brackets
and operators are kinds with a value of their own. A stream holds tokens that are read from front
to back.
-/
namespace PromptCalc

/-- An equation may group with brackets of three shapes, which do not mix. -/
inductive Bracket where
  | round
  | square
  | curly
  deriving DecidableEq, Repr

namespace Bracket

def opener : Bracket → Char
  | round => '('
  | square => '['
  | curly => '{'

def closer : Bracket → Char
  | round => ')'
  | square => ']'
  | curly => '}'

end Bracket

inductive Operator where
  | plus
  | minus
  | times
  | divide
  | power
  deriving DecidableEq, Repr

/-! A phrase is read with a least power: an operator extends it if its `leftPower` is no smaller,
and its right operand is read with its `rightPower`. Every operator's `rightPower` is above its
`leftPower`, so all five group to the left, the power operator too. -/

namespace Operator

def symbol : Operator → Char
  | plus => '+'
  | minus => '-'
  | times => '*'
  | divide => '/'
  | power => '^'

def leftPower : Operator → Nat
  | plus | minus => 1
  | times | divide => 3
  | power => 6

def rightPower : Operator → Nat
  | plus | minus => 2
  | times | divide => 4
  | power => 7

/-- The least power of the operand of a sign, between those of products and of powers. -/
def signPower? : Operator → Option Nat
  | plus | minus => some 5
  | times | divide | power => none

theorem symbol_injective {a b : Operator} (h : a.symbol = b.symbol) : a = b := by
  cases a <;> cases b <;> simp_all [symbol]

theorem eq_five_of_signPower? {op : Operator} {power : Nat} (h : op.signPower? = some power) :
    power = 5 := by
  cases op <;> simp_all [signPower?]

theorem leftPower_lt_rightPower (op : Operator) : op.leftPower < op.rightPower := by
  cases op <;> decide

end Operator

/-- A stretch of a text, in bytes. -/
structure Span where
  start : Nat
  size : Nat
  deriving DecidableEq, Repr

namespace Span

def stop (s : Span) : Nat := s.start + s.size

def empty (offset : Nat) : Span := ⟨offset, 0⟩

end Span

/-- `command` is the word `calc`, which every prompt starts with, and `answer` is the word `ans`. -/
inductive TokenKind where
  | command
  | answer
  | quote
  | opening (shape : Bracket)
  | closing (shape : Bracket)
  | operator (op : Operator)
  | int
  | float
  | unknown
  | eof
  deriving DecidableEq, Repr

namespace TokenKind

def closing? : TokenKind → Option TokenKind
  | opening shape => some (closing shape)
  | _ => none

def opening? : TokenKind → Option TokenKind
  | closing shape => some (opening shape)
  | _ => none

def isOpening (kind : TokenKind) : Bool := kind.closing?.isSome

def isClosing (kind : TokenKind) : Bool := kind.opening?.isSome

def operator? : TokenKind → Option Operator
  | operator op => some op
  | _ => none

theorem closing?_eq_some_iff {kind other : TokenKind} :
    kind.closing? = some other ↔ other.opening? = some kind := by
  cases kind <;> cases other <;> simp [closing?, opening?, eq_comm]

end TokenKind

structure Token where
  kind : TokenKind
  literal : String
  span : Span
  deriving DecidableEq, Repr

namespace Token

/-- The token that ends every text. It takes up no bytes of it. -/
def eof (size : Nat) : Token := ⟨.eof, "EOF", .empty size⟩

/-- A byte that belongs to no character of its own. It has no literal. -/
def strayByte (offset : Nat) : Token := ⟨.unknown, "", offset, 1⟩

end Token

/-- Tokens that are read from front to back. A stream keeps what it has read until it is cleared,
and tokens may be added behind while it is being read. -/
structure TokenStream where
  tokens : List Token
  cursor : Nat
  deriving DecidableEq, Repr

namespace TokenStream

def ofList (tokens : List Token) : TokenStream := ⟨tokens, 0⟩

def empty : TokenStream := .ofList []

def size (s : TokenStream) : Nat := s.tokens.length

/-- The tokens not read yet. -/
def ahead (s : TokenStream) : List Token := s.tokens.drop s.cursor

def peek? (s : TokenStream) : Option Token := s.tokens[s.cursor]?

/-- The next token and the stream after it. At its end a stream stays as it is. -/
def advance (s : TokenStream) : Option Token × TokenStream :=
  match s.peek? with
  | some t => (some t, { s with cursor := s.cursor + 1 })
  | none => (none, s)

def append (s : TokenStream) (ts : List Token) : TokenStream := { s with tokens := s.tokens ++ ts }

def push (s : TokenStream) (t : Token) : TokenStream := s.append [t]

def skip (s : TokenStream) (n : Nat) : TokenStream := n.repeat (fun s => s.advance.2) s

/-- The stream read up to where the given number of tokens is left. -/
def withLeft (s : TokenStream) (left : Nat) : TokenStream := { s with cursor := s.size - left }

variable {s : TokenStream}

theorem head?_ahead (s : TokenStream) : s.ahead.head? = s.peek? := by
  simp [ahead, peek?, List.head?_drop]

theorem length_ahead (s : TokenStream) : s.ahead.length = s.size - s.cursor := List.length_drop

/-- To advance is to take the first of the tokens ahead, if there is one. -/
theorem advance_eq (s : TokenStream) :
    s.advance = match s.ahead with
      | [] => (none, s)
      | t :: _ => (some t, { s with cursor := s.cursor + 1 }) := by
  unfold advance
  rw [← head?_ahead]
  cases s.ahead <;> rfl

theorem ahead_advance (s : TokenStream) : s.advance.2.ahead = s.ahead.tail := by
  rw [advance_eq]
  cases hahead : s.ahead with
  | nil => exact hahead
  | cons t ts =>
    show s.tokens.drop (s.cursor + 1) = ts
    rw [← List.tail_drop]
    exact congrArg List.tail hahead

/-- Read one by one, the tokens ahead come to the same as read at once. -/
theorem skip_eq_withLeft {n : Nat} (hcursor : s.cursor ≤ s.size) (h : n ≤ s.ahead.length) :
    s.skip n = s.withLeft (s.ahead.length - n) := by
  have hlength := s.length_ahead
  induction n with
  | zero =>
    have hthere : s.size - s.ahead.length = s.cursor := by omega
    rw [withLeft, Nat.sub_zero, hthere]
    rfl
  | succ n ih =>
    have hstep : s.skip (n + 1) = (s.skip n).advance.2 := rfl
    have hcursor' : s.size - (s.ahead.length - n) = s.cursor + n := by omega
    have hsome : s.cursor + n < s.tokens.length := by
      rw [hlength, size] at h
      omega
    have hpeek : (s.skip n).peek? = some s.tokens[s.cursor + n] := by
      rw [ih (Nat.le_of_succ_le h), withLeft, hcursor']
      exact List.getElem?_eq_getElem hsome
    rw [hstep, advance, hpeek, ih (Nat.le_of_succ_le h)]
    have hlast : s.size - (s.ahead.length - n) + 1 = s.size - (s.ahead.length - (n + 1)) := by
      omega
    simp only [withLeft, hlast]

theorem ahead_withLeft {front back : List Token} (h : s.tokens = front ++ back) :
    (s.withLeft back.length).ahead = back := by
  have hsize : s.size - back.length = front.length := by simp [size, h]
  rw [ahead, withLeft, hsize]
  simp [h]

theorem peek?_withLeft {front back : List Token} (h : s.tokens = front ++ back) :
    (s.withLeft back.length).peek? = back.head? := by
  rw [← head?_ahead, ahead_withLeft h]

/-- Added one by one, tokens come to the same as added at once. -/
theorem foldl_push (s : TokenStream) (ts : List Token) : ts.foldl push s = s.append ts := by
  induction ts generalizing s with
  | nil => simp [append]
  | cons t ts ih =>
    rw [List.foldl_cons, ih]
    simp [push, append]

end TokenStream

end PromptCalc
