import Script.Tree

/-! What can go wrong while a program runs.
A failure is a cause with the line of the name, operator or parenthesis it is found at. The wording
of every cause is here. -/
namespace Script

inductive Fault where
  | undefinedVariable (name : String)
  | undefinedProperty (name : String)
  | propertyOfOther
  | fieldOfOther
  | notCallable
  | arity (expected given : Nat)
  | stackOverflow
  | operandNotNumber (operator : String)
  | operandsNotNumbers (operator : String)
  | operandsNotAdded
  | divideByZero
  | unknownOperator (operator : String)
deriving Repr, DecidableEq

def Fault.message : Fault → String
  | undefinedVariable name => "Undefined variable '" ++ name ++ "'."
  | undefinedProperty name => "Undefined property '" ++ name ++ "'."
  | propertyOfOther => "Only instances have properties."
  | fieldOfOther => "Only instances have fields."
  | notCallable => "Can only call functions and classes."
  | arity expected given =>
    "Expected " ++ toString expected ++ " arguments but got " ++ toString given ++ "."
  | stackOverflow => "Stack overflow."
  | operandNotNumber operator => "Operand of '" ++ operator ++ "' must be a number."
  | operandsNotNumbers operator => "Operands of '" ++ operator ++ "' must be numbers."
  | operandsNotAdded => "Operands of '+' must be two numbers or two strings."
  | divideByZero => "Divide by zero."
  | unknownOperator operator => "Unknown operator '" ++ operator ++ "'."

structure Failure where
  fault : Fault
  line : Nat
deriving Repr, DecidableEq

def Failure.text (f : Failure) : String :=
  f.fault.message ++ "\n[line " ++ toString f.line ++ "]"

end Script
