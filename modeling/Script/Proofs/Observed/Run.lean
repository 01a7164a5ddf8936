import Script.Dialogue
import Script.Proofs.Running.Instrument

/-! Running a bound program under observation.
An observed run does what a run does. It carries along what an observer knows of the place that it
is at, keeps for every function and class what was known where it was made, and has the observer
keep an account of what happens. The observer may give the site of a use in place of the one in the
tree; nothing else of what it knows is ever read by the part that runs. -/
namespace Script

/-- What is known of a place as it is run, `χ`, and what is kept in account, `κ`. -/
structure Observer (χ κ : Type) where
  nowhere : χ
  /-- In a part of a construct, by its number. -/
  child : Nat → χ → χ
  /-- In the methods of a class that are bound to a value. -/
  receiving : Value → χ → χ
  site : χ → Site → Site
  /-- The site of a use is about to be taken. -/
  consulted : χ → κ → κ
  /-- A use was evaluated, to a value if it has one. -/
  loaded : χ → Use → Option Value → κ → κ
  /-- A name was bound, by a declaration or an assignment. -/
  bound : String → κ → κ
  /-- A frame is opened for the methods of an instance. -/
  received : Nat → Value → κ → κ
  /-- An initializer gave a value. -/
  initialized : χ → Value → κ → κ

/-- A machine with what is known of its functions and classes, and the account. -/
structure Observed (χ κ : Type) where
  machine : Machine
  functionAt : Nat → χ
  classAt : Nat → χ
  account : κ

abbrev ObservedRun (χ κ : Type) := EStateM Exit (Observed χ κ)

variable {χ κ : Type}

/-- The last method of a name, with what is known of its code. -/
def Observer.method? (o : Observer χ κ) (x : χ) (name : String) :
    List BoundMethod → Option (χ × BoundMethod)
  | [] => none
  | m :: methods =>
    match o.method? (o.child 1 x) name methods with
    | some found => some found
    | none => if m.name.text == name then some (o.child 0 x, m) else none

end Script

namespace Script.ObservedRun

variable {χ κ α : Type} (o : Observer χ κ)

def lift (run : Run α) : ObservedRun χ κ α := fun t =>
  match run t.machine with
  | .ok a m => .ok a { t with machine := m }
  | .error e m => .error e { t with machine := m }

def note (change : κ → κ) : ObservedRun χ κ Unit := fun t =>
  .ok () { t with account := change t.account }

def load (x : χ) (use : Use) (name : Name) (site : Site) : ObservedRun χ κ Value := fun t =>
  match Run.load name (o.site x site) t.machine with
  | .ok v m =>
    .ok v { t with machine := m, account := o.loaded x use (some v) (o.consulted x t.account) }
  | .error e m =>
    .error e { t with machine := m, account := o.loaded x use none (o.consulted x t.account) }

def store (x : χ) (name : Name) (value : Value) (site : Site) : ObservedRun χ κ Unit := do
  note (o.consulted x)
  lift (Run.store name value (o.site x site))
  note (o.bound name.text)

def define (name : Name) (value : Value) : ObservedRun χ κ Unit := do
  lift (Run.define name.text value)
  note (o.bound name.text)

def makeFunction (x : χ) (closure : Closure) : ObservedRun χ κ Value := fun t =>
  lift (Run.makeFunction closure)
    { t with functionAt := fun r => if r = t.machine.closures.size then x else t.functionAt r }

def makeClass (x : χ) (c : Class) : ObservedRun χ κ Value := fun t =>
  lift (Run.makeClass c)
    { t with classAt := fun r => if r = t.machine.classes.size then x else t.classAt r }

def bindMethod (c : Class) (method : BoundMethod) (receiver : Value) : ObservedRun χ κ Closure :=
  fun t => lift (Run.bindMethod c method receiver)
    { t with account := o.received t.machine.frames.next receiver t.account }

def madeAt (t : Observed χ κ) : Value → χ
  | .function ref => t.functionAt ref
  | .class_ ref => t.classAt ref
  | _ => o.nowhere

end Script.ObservedRun

namespace Script

variable {χ κ : Type} (o : Observer χ κ)

def Observer.instrument : Instrument χ Exit (Observed χ κ) where
  machine t := t.machine
  put m t := { t with machine := m }
  exit e := e
  jump? _ := Exit.jump?
  value? _ := Exit.value?
  child := o.child
  lift := ObservedRun.lift
  load := ObservedRun.load o
  store := ObservedRun.store o
  define := ObservedRun.define o
  makeFunction := ObservedRun.makeFunction
  makeClass := ObservedRun.makeClass
  madeAt _ v t := .ok (ObservedRun.madeAt o t v) t
  method? y v name c := o.method? (o.child 0 (o.receiving v y)) name c.methods
  bindMethod _ := ObservedRun.bindMethod o
  initialized y v := ObservedRun.note (o.initialized y v)

def ObservedRun.runBound (limits : Limits) (x : χ) (program : List BoundStmt) (t : Observed χ κ) :
    Outcome × Observed χ κ :=
  match o.instrument.executeAll limits.fuel limits.room x program
      { t with machine := { t.machine with output := "" } } with
  | .ok () t => (.finished, t)
  | .error e t => (.ofExit e, t)

end Script
