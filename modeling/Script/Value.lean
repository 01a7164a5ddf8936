import Script.Tree
import Script.Number.Numeral

/-! Values of a running program.
Numbers are doubles and compare as such. Functions, classes and instances are known by a reference
into the machine, so two of them are equal when they are the same one. Values of different kinds are
never equal. -/
namespace Script

inductive Native where
  | clock
deriving Repr, DecidableEq

def Native.name : Native → String
  | clock => "clock"

def Native.arity : Native → Nat
  | clock => 0

def Native.all : List Native := [.clock]

inductive Value where
  | nil
  | bool (value : Bool)
  | number (value : Float)
  | string (text : String)
  | native (native : Native)
  | function (ref : Nat)
  | class_ (ref : Nat)
  | instance_ (ref : Nat)
deriving Repr, DecidableEq

namespace Value

def ofLiteral : Literal → Value
  | .nil => nil
  | .bool b => bool b
  | .number x => number x
  | .string s => string s

def isTruthy : Value → Bool
  | nil => false
  | bool b => b
  | _ => true

def equals : Value → Value → Bool
  | nil, nil => true
  | bool a, bool b => a == b
  | number a, number b => a == b
  | string a, string b => a == b
  | native a, native b => a == b
  | function a, function b => a == b
  | class_ a, class_ b => a == b
  | instance_ a, instance_ b => a == b
  | _, _ => false

end Value

end Script
