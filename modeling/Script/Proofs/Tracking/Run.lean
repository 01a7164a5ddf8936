import Script.Proofs.Running.Instrument

/-! Running a program while keeping account of places.
A tracked run carries the place of what it is at. It records for which region each frame was opened,
at which place each function and class was made, which declarations have completed in which frame,
which names were assigned, and every use of a local on the way, with the state it was found in. -/
namespace Script

open Lexical

/-- A machine with the account of how its parts came to be. -/
structure Moment where
  machine : Machine
  origin : Nat → Option Region
  functionAt : Nat → Position
  classAt : Nat → Position
  settled : List (Nat × String)
  assigned : List (Nat × String)

/-- A use of a local as the run comes to it, before anything is looked up. -/
structure Visit where
  position : Position
  use : Use
  name : Name
  distance : Nat
  moment : Moment

structure Tracked extends Moment where
  visits : List Visit

abbrev TrackedRun := EStateM Exit Tracked

/-- Nothing has run; the frame of the globals was opened for no region. -/
def Tracked.initial (clock : Nat → Float) : Tracked where
  machine := .initial clock
  origin _ := none
  functionAt _ := Position.top 0
  classAt _ := Position.top 0
  settled := []
  assigned := []
  visits := []

namespace TrackedRun

variable {α : Type}

def lift (run : Run α) : TrackedRun α := fun t =>
  match run t.machine with
  | .ok a m => .ok a { t with machine := m }
  | .error e m => .error e { t with machine := m }

def visit (p : Position) (use : Use) (name : Name) : Site → TrackedRun Unit
  | .global => pure ()
  | .local_ distance => fun t =>
    .ok () { t with visits := ⟨p, use, name, distance, t.toMoment⟩ :: t.visits }

def load (p : Position) (use : Use) (name : Name) (site : Site) : TrackedRun Value := do
  visit p use name site
  lift (Run.load name site)

/-- Records that a name was assigned, in the frame that its site leads to. -/
def markAssigned (name : Name) : Site → TrackedRun Unit
  | .global => pure ()
  | .local_ distance => fun t =>
    match t.machine.frames.ancestor? t.machine.current distance with
    | none => .ok () t
    | some frame => .ok () { t with assigned := (frame, name.text) :: t.assigned }

def store (p : Position) (name : Name) (value : Value) (site : Site) : TrackedRun Unit := do
  visit p .assign name site
  lift (Run.store name value site)
  markAssigned name site

def define (name : Name) (value : Value) : TrackedRun Unit := do
  lift (Run.define name.text value)
  fun t => .ok () { t with settled := (t.machine.current, name.text) :: t.settled }

def withOrigin (t : Tracked) (region : Region) : Tracked :=
  { t with origin := fun f => if f = t.machine.frames.next then some region else t.origin f }

def openFrame (region : Region) (parent : Nat) (bindings : Bindings Value) : TrackedRun Nat :=
  fun t => lift (Run.openFrame parent bindings) (withOrigin t region)

def makeFunction (p : Position) (closure : Closure) : TrackedRun Value := fun t =>
  lift (Run.makeFunction closure)
    { t with functionAt := fun r => if r = t.machine.closures.size then p else t.functionAt r }

def makeClass (p : Position) (c : Class) : TrackedRun Value := fun t =>
  lift (Run.makeClass c)
    { t with classAt := fun r => if r = t.machine.classes.size then p else t.classAt r }

def bindMethod (p : Position) (c : Class) (method : BoundMethod) (receiver : Value) :
    TrackedRun Closure := fun t =>
  lift (Run.bindMethod c method receiver) (withOrigin t ⟨p.path, [thisName], []⟩)

def madeAt (t : Tracked) : Value → Position
  | .function ref => t.functionAt ref
  | .class_ ref => t.classAt ref
  | _ => Position.top 0

end TrackedRun

def tracking : Instrument Position Exit Tracked where
  machine t := t.machine
  put m t := { t with machine := m }
  exit e := e
  jump? _ := Exit.jump?
  value? _ := Exit.value?
  child i p := p.child i
  pending name p := p.pend name
  declared name p := p.declare name
  after s p := p.after s
  opened locals p := p.opened [] locals
  looping p := p.loop
  entered params body p := p.function params body
  lift := TrackedRun.lift
  load := TrackedRun.load
  store := TrackedRun.store
  define := TrackedRun.define
  openFrame p params locals := TrackedRun.openFrame ⟨p.path, params, locals⟩
  makeFunction := TrackedRun.makeFunction
  makeClass := TrackedRun.makeClass
  madeAt _ v t := .ok (TrackedRun.madeAt t v) t
  method? p _ name c := methodPosition (p.class_.child 0) name c.methods
  bindMethod := TrackedRun.bindMethod

end Script
