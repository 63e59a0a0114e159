import PromptCalc.Expr
import Mathlib

/-!
# The stack machine of a tree

The nodes of a tree, operands before their operator and the left one first, are a program for a
machine with a stack of numbers. The tree is evaluated to the one number that the program leaves,
or up to the first division by zero, where the program stops.
-/
namespace PromptCalc

def Number.IsZero (x : Float) : Prop := x = 0 ∨ x = -0

theorem Number.beq_zero_iff (x : Float) : (x == 0) = true ↔ IsZero x := by
  have hzero : (0 : Float) ≠ .nan ∧ (-0 : Float) ≠ .nan := by decide +kernel
  rw [Float.beq_iff_ne_nan_and_eq]
  constructor
  · rintro ⟨-, -, h | ⟨h, -⟩ | ⟨h, -⟩⟩
    · exact .inl h
    · exact .inl h
    · exact .inr h
  · rintro (rfl | rfl)
    · exact ⟨hzero.1, hzero.1, .inl rfl⟩
    · exact ⟨hzero.2, hzero.1, .inr (.inr ⟨rfl, rfl⟩)⟩

namespace Operator

variable {op : Operator} {x y z : Float}

inductive Gives : Operator → Float → Float → Float → Prop where
  | plus (x y : Float) : Gives .plus x y (x + y)
  | minus (x y : Float) : Gives .minus x y (x - y)
  | times (x y : Float) : Gives .times x y (x * y)
  | divide (x : Float) {y : Float} : ¬ Number.IsZero y → Gives .divide x y (x / y)
  | power (x y : Float) : Gives .power x y (x.pow y)

theorem apply?_eq_none_iff : op.apply? x y = none ↔ op = .divide ∧ Number.IsZero y := by
  rw [← Number.beq_zero_iff]
  unfold Operator.apply?
  cases op <;> simp

theorem apply?_eq_some_iff : op.apply? x y = some z ↔ op.Gives x y z := by
  constructor
  · intro h
    cases op with
    | divide =>
      simp only [Number.beq_zero_iff, Option.ite_none_left_eq_some, Operator.apply?] at h
      obtain ⟨hzero, hz⟩ := h
      exact Option.some.inj hz ▸ .divide x hzero
    | plus => exact Option.some.inj h ▸ .plus x y
    | minus => exact Option.some.inj h ▸ .minus x y
    | times => exact Option.some.inj h ▸ .times x y
    | power => exact Option.some.inj h ▸ .power x y
  · intro h
    cases h with
    | divide x hzero => exact if_neg (mt (Number.beq_zero_iff y).mp hzero)
    | _ => rfl

end Operator

inductive Instruction where
  | push (number : Float)
  | unary (op : Operator)
  | binary (op : Operator) (span : Option Span)

namespace Instruction

/-- Runs the instructions on a stack, its top first. A division by zero stops the run, and an
instruction that does not find its operands leaves no result. -/
def run : List Instruction → List Float → Option (Except ZeroDivision (List Float))
  | [], stack => some (.ok stack)
  | push number :: rest, stack => run rest (number :: stack)
  | unary op :: rest, x :: stack =>
    match op.apply? 0 x with
    | some result => run rest (result :: stack)
    | none => some (.error ⟨none⟩)
  | binary op span :: rest, y :: x :: stack =>
    match op.apply? x y with
    | some result => run rest (result :: stack)
    | none => some (.error ⟨span⟩)
  | _ :: _, _ => none

end Instruction

def Expr.instructions : Expr → List Instruction
  | value number _ => [.push number]
  | unary op operand _ => operand.instructions ++ [.unary op]
  | binary op left right token =>
    left.instructions ++ right.instructions ++ [.binary op (token.map Token.span)]

/-- Running the instructions of a tree pushes its value, or stops where its evaluation does. -/
theorem Instruction.run_instructions_append (e : Expr) (rest : List Instruction)
    (stack : List Float) :
    run (e.instructions ++ rest) stack =
      match e.evaluate with
      | .ok x => run rest (x :: stack)
      | .error z => some (.error z) := by
  induction e generalizing rest stack with
  | value number token => simp [Expr.instructions, Expr.evaluate, run]
  | unary op operand token ih =>
    simp only [Expr.instructions, Expr.evaluate, List.append_assoc, ih]
    cases operand.evaluate with
    | error z => rfl
    | ok x => cases h : op.apply? 0 x <;> simp [run, h]
  | binary op left right token ihl ihr =>
    simp only [Expr.instructions, Expr.evaluate, List.append_assoc, ihl]
    cases left.evaluate with
    | error z => rfl
    | ok x =>
      simp only [ihr]
      cases right.evaluate with
      | error z => rfl
      | ok y => cases h : op.apply? x y <;> simp [run, h]

namespace Instruction

variable {i : Instruction} {code rest : List Instruction} {stack mid final : List Float}
  {span : Option Span}

/-- What an instruction makes of a stack, its top first. -/
inductive Step : Instruction → List Float → List Float → Prop where
  | push (x : Float) (stack : List Float) : Step (.push x) stack (x :: stack)
  | unary {op : Operator} {x z : Float} {stack : List Float} : op.Gives 0 x z →
      Step (.unary op) (x :: stack) (z :: stack)
  | binary {op : Operator} {span : Option Span} {x y z : Float} {stack : List Float} :
      op.Gives x y z → Step (.binary op span) (y :: x :: stack) (z :: stack)

/-- The instruction divides by zero, at the place that it says. -/
inductive Stops : Instruction → List Float → Option Span → Prop where
  | unary {y : Float} {stack : List Float} : Number.IsZero y →
      Stops (.unary .divide) (y :: stack) none
  | binary {span : Option Span} {x y : Float} {stack : List Float} : Number.IsZero y →
      Stops (.binary .divide span) (y :: x :: stack) span

inductive Run : List Instruction → List Float → List Float → Prop where
  | done (stack : List Float) : Run [] stack stack
  | step {i : Instruction} {rest : List Instruction} {stack mid final : List Float} :
      i.Step stack mid → Run rest mid final → Run (i :: rest) stack final

/-- The instructions before one that divides by zero are run. -/
def StopsAt (code : List Instruction) (stack : List Float) (span : Option Span) : Prop :=
  ∃ front i back mid, code = front ++ i :: back ∧ Run front stack mid ∧ i.Stops mid span

theorem run_of_step (h : i.Step stack mid) : run (i :: rest) stack = run rest mid := by
  cases h with
  | push x stack => rfl
  | unary h | binary h => simp only [run, Operator.apply?_eq_some_iff.mpr h]

theorem run_of_stops (h : i.Stops stack span) : run (i :: rest) stack = some (.error ⟨span⟩) := by
  cases h with
  | unary h | binary h => simp only [run, Operator.apply?_eq_none_iff.mpr ⟨rfl, h⟩]

theorem step_or_stops {result : Except ZeroDivision (List Float)}
    (h : run (i :: rest) stack = some result) :
    (∃ mid, i.Step stack mid ∧ run rest mid = some result) ∨
      ∃ span, i.Stops stack span ∧ result = .error ⟨span⟩ := by
  cases i with
  | push x => exact .inl ⟨x :: stack, .push x stack, h⟩
  | unary op =>
    rcases stack with _ | ⟨x, stack⟩
    · cases h
    · simp only [run] at h
      cases hz : op.apply? 0 x with
      | some z =>
        rw [hz] at h
        exact .inl ⟨z :: stack, .unary (Operator.apply?_eq_some_iff.mp hz), h⟩
      | none =>
        obtain ⟨rfl, hzero⟩ := Operator.apply?_eq_none_iff.mp hz
        rw [hz] at h
        exact .inr ⟨none, .unary hzero, (Option.some.inj h).symm⟩
  | binary op span =>
    rcases stack with _ | ⟨y, _ | ⟨x, stack⟩⟩
    · cases h
    · cases h
    · simp only [run] at h
      cases hz : op.apply? x y with
      | some z =>
        rw [hz] at h
        exact .inl ⟨z :: stack, .binary (Operator.apply?_eq_some_iff.mp hz), h⟩
      | none =>
        obtain ⟨rfl, hzero⟩ := Operator.apply?_eq_none_iff.mp hz
        rw [hz] at h
        exact .inr ⟨span, .binary hzero, (Option.some.inj h).symm⟩

theorem run_eq_ok_iff : run code stack = some (.ok final) ↔ Run code stack final := by
  constructor
  · intro h
    induction code generalizing stack with
    | nil =>
      obtain rfl : stack = final := Except.ok.inj (Option.some.inj h)
      exact .done stack
    | cons i rest ih =>
      rcases step_or_stops h with ⟨mid, hstep, hrest⟩ | ⟨span, -, herror⟩
      · exact .step hstep (ih hrest)
      · cases herror
  · intro h
    induction h with
    | done stack => rfl
    | step hstep _ ih => rw [run_of_step hstep, ih]

theorem run_eq_error_iff : run code stack = some (.error ⟨span⟩) ↔ StopsAt code stack span := by
  constructor
  · intro h
    induction code generalizing stack with
    | nil => cases Option.some.inj h
    | cons i rest ih =>
      rcases step_or_stops h with ⟨mid, hstep, hrest⟩ | ⟨span', hstops, herror⟩
      · obtain ⟨front, j, back, mid', rfl, hrun, hstops⟩ := ih hrest
        exact ⟨i :: front, j, back, mid', rfl, .step hstep hrun, hstops⟩
      · obtain rfl : span = span' := congrArg ZeroDivision.span (Except.error.inj herror)
        exact ⟨[], i, rest, stack, rfl, .done stack, hstops⟩
  · rintro ⟨front, i, back, mid, rfl, hrun, hstops⟩
    induction hrun with
    | done stack => exact run_of_stops hstops
    | step hstep _ ih => rw [List.cons_append, run_of_step hstep, ih hstops]

end Instruction

namespace Expr

open Instruction

/-- The nodes of a tree, operands before their operator and the left one first. -/
def nodes : Expr → List Expr
  | e@(value ..) => [e]
  | e@(unary _ operand _) => operand.nodes ++ [e]
  | e@(binary _ left right _) => left.nodes ++ right.nodes ++ [e]

def instruction : Expr → Instruction
  | value number _ => .push number
  | unary op _ _ => .unary op
  | binary op _ _ token => .binary op (token.map Token.span)

theorem map_instruction_nodes (e : Expr) : e.nodes.map instruction = e.instructions := by
  induction e with
  | value => rfl
  | unary op operand token ih => simp [nodes, instructions, instruction, ih]
  | binary op left right token ihl ihr => simp [nodes, instructions, instruction, ihl, ihr]

theorem run_instructions (e : Expr) (stack : List Float) :
    run e.instructions stack = some (e.evaluate.map (· :: stack)) := by
  have h := run_instructions_append e [] stack
  rw [List.append_nil] at h
  rw [h]
  cases e.evaluate <;> rfl

/-- A tree is evaluated as its nodes are run one after the other: to the one number that is left on
top of the stack, or to the first division by zero. -/
theorem evaluate_eq_run (e : Expr) (stack : List Float) :
    e.instructions = e.nodes.map instruction ∧
    run e.instructions stack = some (e.evaluate.map (· :: stack)) ∧
    (∀ final, Run e.instructions stack final ↔ ∃ x, e.evaluate = .ok x ∧ final = x :: stack) ∧
    ∀ span, StopsAt e.instructions stack span ↔ e.evaluate = .error ⟨span⟩ := by
  have hrun := e.run_instructions stack
  refine ⟨e.map_instruction_nodes.symm, hrun, fun final => ?_, fun span => ?_⟩
  · rw [← run_eq_ok_iff, hrun]
    cases e.evaluate with
    | error z => simp [Except.map]
    | ok x => simp [Except.map, eq_comm]
  · rw [← run_eq_error_iff, hrun]
    cases e.evaluate <;> simp [Except.map]

end Expr

end PromptCalc
