import Script.Frames
import Script.Scope
import Script.Failure

/-! The machine that a program runs on.
It holds the frames, the functions, classes and instances made so far, the text printed, and the
readings of the clock, which are given from outside. Nothing is ever removed. -/
namespace Script

/-- A function together with the frame it was made in. -/
structure Closure where
  name : Option String
  params : List Name
  body : List BoundStmt
  frame : Nat
  isInitializer : Bool

structure Class where
  name : String
  methods : List BoundMethod
  frame : Nat

structure Instance where
  class_ : Nat
  fields : Bindings Value
deriving Repr, DecidableEq

/-- The method of a name; of several the last one counts. -/
def Class.method? (c : Class) (name : String) : Option BoundMethod :=
  c.methods.reverse.find? fun m => m.name.text == name

structure Machine where
  frames : Frames
  current : Nat
  closures : Array Closure
  classes : Array Class
  instances : Array Instance
  output : String
  clock : Nat → Float
  readings : Nat

namespace Machine

def globals : Nat := 0

/-- A machine that has run nothing. The natives are its only globals. -/
def initial (clock : Nat → Float) : Machine where
  frames := .single (Native.all.map fun n => (n.name, .native n))
  current := globals
  closures := #[]
  classes := #[]
  instances := #[]
  output := ""
  clock := clock
  readings := 0

def text (m : Machine) : Value → String
  | .nil => "none"
  | .bool b => if b then "true" else "false"
  | .number x => Number.printed x
  | .string s => s
  | .native n => "<native fn " ++ n.name ++ ">"
  | .function ref =>
    match (m.closures[ref]?).bind Closure.name with
    | some name => "<fn " ++ name ++ ">"
    | none => "<fn>"
  | .class_ ref => className m ref
  | .instance_ ref =>
    match m.instances[ref]? with
    | some i => className m i.class_ ++ " instance"
    | none => " instance"
where
  className (m : Machine) (ref : Nat) : String := ((m.classes[ref]?).map Class.name).getD ""

/-- What a value does when it is called. -/
inductive Callee where
  | native (native : Native)
  | function (closure : Closure)
  | class_ (ref : Nat) (c : Class)

def callee? (m : Machine) : Value → Option Callee
  | .native n => some (.native n)
  | .function ref => (m.closures[ref]?).map .function
  | .class_ ref => (m.classes[ref]?).map (.class_ ref)
  | _ => none

/-- The number of arguments that a callee takes. A class takes those of its initializer. -/
def Callee.arity : Callee → Nat
  | native n => n.arity
  | function closure => closure.params.length
  | class_ _ c =>
    match c.method? initializerName with
    | some m => m.params.length
    | none => 0

def instance? (m : Machine) : Value → Option (Nat × Instance)
  | .instance_ ref => (m.instances[ref]?).map fun i => (ref, i)
  | _ => none

end Machine

end Script
