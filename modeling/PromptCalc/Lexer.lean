import PromptCalc.Token

/-!
# Lexers

A lexer is a text and a position in it, counted in the bytes of its characters. The position may
stand inside a character of several bytes; what is left of that character is then read byte by
byte. Else the next token is cut off the text behind the blanks: a symbol stands alone, a run of
digits and dots that starts with a digit is one numeral, a run of letters and underscores is one
word, and any other character is a token by itself.
-/
namespace PromptCalc

def byteSize : List Char → Nat
  | [] => 0
  | c :: cs => c.utf8Size + byteSize cs

@[simp] theorem byteSize_nil : byteSize [] = 0 := rfl

@[simp] theorem byteSize_cons (c : Char) (cs : List Char) :
    byteSize (c :: cs) = c.utf8Size + byteSize cs := rfl

@[simp] theorem byteSize_append (as bs : List Char) :
    byteSize (as ++ bs) = byteSize as + byteSize bs := by
  induction as with
  | nil => simp
  | cons a as ih => rw [List.cons_append, byteSize_cons, byteSize_cons, ih, Nat.add_assoc]

theorem utf8ByteSize_ofList (cs : List Char) : (String.ofList cs).utf8ByteSize = byteSize cs := by
  induction cs with
  | nil => simp [String.ofList_nil]
  | cons c cs ih =>
    have hcut : String.ofList (c :: cs) = String.singleton c ++ String.ofList cs := by
      rw [String.singleton_eq_ofList, ← String.ofList_append]
      rfl
    rw [hcut, String.utf8ByteSize_append, String.utf8ByteSize_singleton, ih, byteSize_cons]

theorem byteSize_toList (text : String) : byteSize text.toList = text.utf8ByteSize := by
  rw [← utf8ByteSize_ofList, String.ofList_toList]

def isBlank (c : Char) : Bool := c == ' ' || c == '\t' || c == '\n' || c == '\r'

theorem utf8Size_of_isBlank {c : Char} (h : isBlank c = true) : c.utf8Size = 1 := by
  simp only [isBlank, Bool.or_eq_true, beq_iff_eq] at h
  rcases h with ((rfl | rfl) | rfl) | rfl <;> rfl

/-- Letters are the ASCII ones and the underscore. -/
def isLetter (c : Char) : Bool := c.isAlpha || c == '_'

def isNumeric (c : Char) : Bool := c.isDigit || c == '.'

namespace TokenKind

def ofSymbol? : Char → Option TokenKind
  | '\'' => some quote
  | '(' => some (opening .round)
  | ')' => some (closing .round)
  | '[' => some (opening .square)
  | ']' => some (closing .square)
  | '{' => some (opening .curly)
  | '}' => some (closing .curly)
  | '+' => some (operator .plus)
  | '-' => some (operator .minus)
  | '*' => some (operator .times)
  | '/' => some (operator .divide)
  | '^' => some (operator .power)
  | _ => none

/-- Digits alone are an integer, two runs of digits with one dot between them a fraction. Any other
numeral is unknown. -/
def ofNumeral (cs : List Char) : TokenKind :=
  match cs.dropWhile Char.isDigit with
  | [] => int
  | '.' :: ds => if ds ≠ [] ∧ ds.all Char.isDigit then float else unknown
  | _ :: _ => unknown

def ofWord (cs : List Char) : TokenKind :=
  if cs = ['c', 'a', 'l', 'c'] then command
  else if cs = ['a', 'n', 's'] then answer
  else unknown

end TokenKind

/-- A token's kind and characters, and the text that follows it. -/
structure Lexeme where
  kind : TokenKind
  chars : List Char
  rest : List Char

namespace Lexeme

/-- The longest run from `c` on whose further characters pass the test. -/
def run (kind : List Char → TokenKind) (test : Char → Bool) (c : Char) (cs : List Char) : Lexeme :=
  let chars := c :: cs.takeWhile test
  ⟨kind chars, chars, cs.dropWhile test⟩

/-- The lexeme at the front of `c :: cs`, where `c` is not blank. -/
def cut (c : Char) (cs : List Char) : Lexeme :=
  match TokenKind.ofSymbol? c with
  | some kind => ⟨kind, [c], cs⟩
  | none =>
    if c.isDigit then run TokenKind.ofNumeral isNumeric c cs
    else if isLetter c then run TokenKind.ofWord isLetter c cs
    else ⟨.unknown, [c], cs⟩

theorem run_lossless (kind : List Char → TokenKind) (test : Char → Bool) (c : Char)
    (cs : List Char) : (run kind test c cs).chars ++ (run kind test c cs).rest = c :: cs := by
  simp [run]

/-- A lexeme and what follows it are the whole text. -/
theorem cut_lossless (c : Char) (cs : List Char) :
    (cut c cs).chars ++ (cut c cs).rest = c :: cs := by
  unfold cut
  split
  · rfl
  · split
    · exact run_lossless ..
    · split
      · exact run_lossless ..
      · rfl

theorem cut_chars_ne_nil (c : Char) (cs : List Char) : (cut c cs).chars ≠ [] := by
  unfold cut run
  split
  · simp
  · split
    · simp
    · split <;> simp

theorem cut_rest_length_lt (c : Char) (cs : List Char) :
    (cut c cs).rest.length < (c :: cs).length := by
  have h := congrArg List.length (cut_lossless c cs)
  have hne := List.length_pos_iff.mpr (cut_chars_ne_nil c cs)
  rw [List.length_append] at h
  omega

def token (lexeme : Lexeme) (offset : Nat) : Token :=
  ⟨lexeme.kind, String.ofList lexeme.chars, offset, byteSize lexeme.chars⟩

end Lexeme

namespace Token

/-- The first token of a text that starts at the given byte, and the text that follows it. -/
def first? (offset : Nat) : List Char → Option (Token × List Char)
  | [] => none
  | c :: cs =>
    if isBlank c then first? (offset + 1) cs
    else
      let lexeme := Lexeme.cut c cs
      some (lexeme.token offset, lexeme.rest)

theorem first?_rest_length_lt {offset : Nat} {cs rest : List Char} {t : Token}
    (h : first? offset cs = some (t, rest)) : rest.length < cs.length := by
  induction cs generalizing offset with
  | nil => simp [first?] at h
  | cons c cs ih =>
    unfold first? at h
    split at h
    · exact Nat.lt_succ_of_lt (ih h)
    · simp only [Option.some.injEq, Prod.mk.injEq] at h
      exact h.2 ▸ Lexeme.cut_rest_length_lt c cs

/-- Every token of a text that starts at the given byte. -/
def scan (offset : Nat) (cs : List Char) : List Token :=
  match h : first? offset cs with
  | none => []
  | some (t, rest) =>
    have := first?_rest_length_lt h
    t :: scan t.span.stop rest
termination_by cs.length

theorem scan_of_first?_none {offset : Nat} {cs : List Char} (h : first? offset cs = none) :
    scan offset cs = [] := by
  rw [scan]
  split
  · rfl
  · simp_all

theorem scan_of_first?_some {offset : Nat} {cs rest : List Char} {t : Token}
    (h : first? offset cs = some (t, rest)) : scan offset cs = t :: scan t.span.stop rest := by
  rw [scan]
  split
  · simp_all
  · next h' =>
    obtain ⟨rfl, rfl⟩ := Prod.mk.inj (Option.some.inj (h.symm.trans h'))
    rfl

end Token

/-- What lies ahead of a position: the bytes left over from a character that the position cuts, and
the whole characters after them. -/
structure Ahead where
  stray : Nat
  chars : List Char

namespace Ahead

/-- What lies ahead after the first `n` bytes of a text. -/
def drop (n : Nat) : List Char → Ahead
  | [] => ⟨0, []⟩
  | c :: cs =>
    if n = 0 then ⟨0, c :: cs⟩
    else if n < c.utf8Size then ⟨c.utf8Size - n, cs⟩
    else drop (n - c.utf8Size) cs

theorem drop_zero (cs : List Char) : drop 0 cs = ⟨0, cs⟩ := by
  cases cs <;> rfl

theorem drop_add (front cs : List Char) (n : Nat) :
    drop (byteSize front + n) (front ++ cs) = drop n cs := by
  induction front with
  | nil => rw [byteSize_nil, Nat.zero_add, List.nil_append]
  | cons c front ih =>
    have hpos := Char.utf8Size_pos c
    rw [byteSize_cons, List.cons_append, drop, if_neg (by omega), if_neg (by omega), Nat.add_assoc,
      Nat.add_sub_cancel_left, ih]

/-- A position at the end of some characters cuts none of those after them. -/
theorem drop_byteSize_append (as bs : List Char) : drop (byteSize as) (as ++ bs) = ⟨0, bs⟩ :=
  (drop_add as bs 0).trans (drop_zero bs)

/-- The tokens that start at the given byte, without the one that ends the text. -/
def tokens (offset : Nat) : Ahead → List Token
  | ⟨stray, chars⟩ =>
    (List.range' offset stray).map Token.strayByte ++ Token.scan (offset + stray) chars

/-- The first of them. -/
def first? (offset : Nat) : Ahead → Option Token
  | ⟨0, chars⟩ => (Token.first? offset chars).map Prod.fst
  | ⟨_ + 1, _⟩ => some (.strayByte offset)

theorem first?_eq_head?_tokens (offset : Nat) (ahead : Ahead) :
    ahead.first? offset = (ahead.tokens offset).head? := by
  obtain ⟨_ | n, chars⟩ := ahead
  · cases h : Token.first? offset chars with
    | none => simp [first?, tokens, h, Token.scan_of_first?_none h]
    | some found => simp [first?, tokens, h, Token.scan_of_first?_some h]
  · simp [first?, tokens, List.range'_succ]

end Ahead

structure Lexer where
  text : String
  byte : Nat
  deriving DecidableEq, Repr

namespace Lexer

def ofText (text : String) : Lexer := ⟨text, 0⟩

def seek (l : Lexer) (byte : Nat) : Lexer := { l with byte }

def size (l : Lexer) : Nat := l.text.utf8ByteSize

def ahead (l : Lexer) : Ahead := .drop l.byte l.text.toList

def eof (l : Lexer) : Token := .eof l.size

/-- The tokens from the position on, without the one that ends the text. -/
def tokens (l : Lexer) : List Token := l.ahead.tokens l.byte

def next? (l : Lexer) : Option Token := l.ahead.first? l.byte

/-- The lexer after a token is read, or at the end of its text if there is none. -/
def after (l : Lexer) : Option Token → Lexer
  | some t => l.seek t.span.stop
  | none => l.seek l.size

/-- The next token, at the end of the text its last one over and over, and the lexer after it. -/
def next (l : Lexer) : Token × Lexer := (l.next?.getD l.eof, l.after l.next?)

/-- The lexer after the given number of tokens. -/
def skip (l : Lexer) (n : Nat) : Lexer := n.repeat (fun l => l.next.2) l

/-- A position beyond the end of the text has nothing to read, not even the end. -/
def isBeyond (l : Lexer) : Bool := l.size < l.byte

theorem next?_eq_head?_tokens (l : Lexer) : l.next? = l.tokens.head? :=
  l.ahead.first?_eq_head?_tokens l.byte

end Lexer

def tokenize (text : String) : List Token := (Lexer.ofText text).tokens

end PromptCalc
