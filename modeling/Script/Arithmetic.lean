import Script.Value
import Script.Failure

/-! Operators applied to values.
Equality takes any two values. Addition takes numbers, strings, or one of each, a number then being
taken in the form that identifies it. Every other operator takes numbers. -/
namespace Script

namespace Value

def add : Value → Value → Except Fault Value
  | .number a, .number b => .ok (.number (a + b))
  | .string a, .string b => .ok (.string (a ++ b))
  | .string a, .number b => .ok (.string (a ++ Number.written b))
  | .number a, .string b => .ok (.string (Number.written a ++ b))
  | _, _ => .error .operandsNotAdded

def onNumbers (operator : String) (f : Float → Float → Except Fault Value) :
    Value → Value → Except Fault Value
  | .number a, .number b => f a b
  | _, _ => .error (.operandsNotNumbers operator)

/-- A quotient. Zero of either sign is no divisor. -/
def quotient (a b : Float) : Except Fault Value :=
  if b == 0 then .error .divideByZero else .ok (.number (a / b))

end Value

def BinaryOp.spelling (op : BinaryOp) : String := op.symbol.spelling

def BinaryOp.apply (op : BinaryOp) (left right : Value) : Except Fault Value :=
  match op with
  | equal => .ok (.bool (left.equals right))
  | notEqual => .ok (.bool (!left.equals right))
  | add => left.add right
  | subtract => Value.onNumbers op.spelling (fun a b => .ok (.number (a - b))) left right
  | multiply => Value.onNumbers op.spelling (fun a b => .ok (.number (a * b))) left right
  | divide => Value.onNumbers op.spelling Value.quotient left right
  | greater => Value.onNumbers op.spelling (fun a b => .ok (.bool (decide (a > b)))) left right
  | greaterEqual => Value.onNumbers op.spelling (fun a b => .ok (.bool (decide (a ≥ b)))) left right
  | less => Value.onNumbers op.spelling (fun a b => .ok (.bool (decide (a < b)))) left right
  | lessEqual => Value.onNumbers op.spelling (fun a b => .ok (.bool (decide (a ≤ b)))) left right

def UnaryOp.apply (op : UnaryOp) (operand : Value) : Except Fault Value :=
  match op, operand with
  | not, v => .ok (.bool (!v.isTruthy))
  | negate, .number x => .ok (.number (-x))
  | negate, _ => .error (.operandNotNumber negate.symbol.spelling)

def BinaryOp.ofSpelling? (operator : String) : Option BinaryOp :=
  BinaryOp.all.find? fun op => op.spelling == operator

/-- Applies the operator of a spelling. One that is unknown asks for numbers before it fails. -/
def BinaryOp.applySpelled (operator : String) (left right : Value) : Except Fault Value :=
  match BinaryOp.ofSpelling? operator with
  | some op => op.apply left right
  | none => Value.onNumbers operator (fun _ _ => .error (.unknownOperator operator)) left right

end Script
