import PromptCalc.Token

/-!
# Nesting of brackets

Brackets have to be closed in the reverse order of their opening, each by its own shape, and a pair
must not be empty. The first token at which this fails is found with a stack of the brackets that
are open. What it means for brackets to be nested is said without a stack, too: every bracket is
closed by one of its own shape, with balanced tokens between them.
-/
namespace PromptCalc.Nesting

/-- The token that breaks the nesting of the tokens that follow `previous` inside the given open
brackets, the innermost of them first. If nothing is left to close them, it is the innermost. -/
def faultAfter (previous : Option TokenKind) (openers : List Token) : List Token → Option Token
  | [] => openers.head?
  | t :: ts =>
    match t.kind with
    | .opening _ => faultAfter (some t.kind) (t :: openers) ts
    | .closing shape =>
      if previous = some (.opening shape) then some t
      else
        match openers with
        | [] => some t
        | top :: openers =>
          if top.kind = .opening shape then faultAfter (some t.kind) openers ts else some t
    | _ => faultAfter (some t.kind) openers ts

def fault? (ts : List Token) : Option Token := faultAfter none [] ts

def isBracket (t : Token) : Bool := t.kind.isOpening || t.kind.isClosing

theorem isBracket_opening {t : Token} {shape : Bracket} (h : t.kind = .opening shape) :
    isBracket t = true := by
  rw [isBracket, h]
  rfl

theorem isBracket_closing {t : Token} {shape : Bracket} (h : t.kind = .closing shape) :
    isBracket t = true := by
  rw [isBracket, h]
  rfl

theorem isBracket_operator {t : Token} {op : Operator} (h : t.kind = .operator op) :
    isBracket t = false := by
  rw [isBracket, h]
  rfl

inductive Balanced : List Token → Prop where
  | nil : Balanced []
  | other {t : Token} {ts : List Token} : isBracket t = false → Balanced ts → Balanced (t :: ts)
  | pair {shape : Bracket} {opener closer : Token} {inner ts : List Token} :
      opener.kind = .opening shape → closer.kind = .closing shape → Balanced inner → Balanced ts →
      Balanced (opener :: inner ++ closer :: ts)

/-- Somewhere a bracket is followed at once by its counterpart. -/
def HasEmptyPair (ts : List Token) : Prop :=
  ∃ (front back : List Token) (shape : Bracket) (opener closer : Token),
    opener.kind = .opening shape ∧ closer.kind = .closing shape ∧
      ts = front ++ opener :: closer :: back

/-- The tokens that the check lets pass. -/
def Accepted (ts : List Token) : Prop := Balanced ts ∧ ¬ HasEmptyPair ts

theorem Balanced.append {as bs : List Token} (ha : Balanced as) (hb : Balanced bs) :
    Balanced (as ++ bs) := by
  induction ha with
  | nil => exact hb
  | other ht _ ih => exact .other ht ih
  | pair ho hc hi _ _ ih =>
    simp only [List.cons_append, List.append_assoc]
    exact .pair ho hc hi ih

end PromptCalc.Nesting
