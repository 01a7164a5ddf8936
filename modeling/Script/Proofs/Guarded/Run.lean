import Script.CommandLine
import Script.Proofs.Running.Instrument

/-! Running a bound program under guard.
A guarded run does what a run does and stops where something happens that must not. A jump says
which loop it is meant for, a returned value which call, and each is taken by that one only; a jump
without a loop around it in its own function, a value returned outside of every call, and a call
that ends with either are breaches. So are a parameter without an argument, a missing part of a loop
body with its increment, a quotient by zero and a conversion of what is no whole number. The calls
that are running are counted, and in the innermost of them the loops around. A node of a kind that
is not known needs no guard, since a tree has none. -/
namespace Script

/-- What must not happen while a program runs. -/
inductive Breach where
  | strayJump (jump : Jump)
  | strayReturn
  | leakedJump (jump : Jump)
  | leakedReturn
  | noArgument (index : Nat)
  | noPart (index : Nat)
  | noQuotient
  | noWholeNumber
deriving Repr, DecidableEq

/-- How a guarded evaluation ends without a value. A jump is for a loop of a call, both by number,
and a returned value for a call. -/
inductive GuardedExit where
  | jumped (jump : Jump) (call loop : Nat)
  | returned (value : Value) (call : Nat)
  | failed (failure : Failure)
  | absent (absence : Absence)
  | exhausted
  | breached (breach : Breach)
deriving Repr, DecidableEq

abbrev GuardedRun := EStateM GuardedExit Machine

/-- The exit of an operation, which is for no loop and no call. -/
def GuardedExit.ofExit : Exit → GuardedExit
  | .jumped jump => breached (.strayJump jump)
  | .returned _ => breached .strayReturn
  | .failed failure => failed failure
  | .absent absence => absent absence
  | .exhausted => exhausted

namespace Number

/-- A double converted to a whole number, cut off at its point. What is not finite is converted to
none. -/
def truncated? (x : Float) : Option Int :=
  if x.isFinite then
    let whole : Nat := (magnitude x).numerator / (magnitude x).denominator
    some (if isNegative x then -whole else whole)
  else none

def isWhole (x : Float) : Bool := x.isFinite && (magnitude x).whole?.isSome

def intText (n : Int) : String := (if n < 0 then "-" else "") ++ digitsText n.natAbs

def ratio? (a b : Float) : Option Float := if b == 0 then none else some (a / b)

end Number

/-- The statements that a body stands for together with its increment. -/
def Stmt.round {β : Type} (body : Stmt β) (increment : Expr β) : List (Stmt β) :=
  [body, .expression increment]

end Script

namespace Script.GuardedRun

variable {α : Type}

def exit (e : GuardedExit) : GuardedRun α := fun m => .error e m

def breach (b : Breach) : GuardedRun α := exit (.breached b)

/-- Runs what has no loops and calls in it. -/
def lift (run : Run α) : GuardedRun α := fun m =>
  match run m with
  | .ok a m => .ok a m
  | .error e m => .error (.ofExit e) m

def present (b : Breach) : Option α → GuardedRun α
  | some a => pure a
  | none => breach b

/-- A call ends with a value or a failure, and never by a jump or with a value for another call. -/
def contained (run : GuardedRun Value) : GuardedRun Value := fun m =>
  match run m with
  | .error (.jumped j _ _) m => .error (.breached (.leakedJump j)) m
  | .error (.returned _ _) m => .error (.breached .leakedReturn) m
  | result => result

def bindFrom (given : List Value) : Nat → List Name → Bindings Value → GuardedRun (Bindings Value)
  | _, [], bindings => pure bindings
  | i, param :: params, bindings => do
    let v ← present (.noArgument i) given[i]?
    bindFrom given (i + 1) params (bindings.set param.text v)

def numberText (x : Float) : GuardedRun String :=
  if Number.isWhole x then do
    let n ← present .noWholeNumber (Number.truncated? x)
    pure (Number.intText n)
  else pure (Number.written x)

def print (v : Value) : GuardedRun Unit := do
  let m ← get
  let text ← match v with
    | .number x => numberText x
    | v => pure (m.text v)
  set { m with output := m.output ++ text ++ "\n" }

def quotient (line : Nat) (a b : Float) : GuardedRun Value :=
  if b == 0 then lift (Run.fail line .divideByZero)
  else do
    let q ← present .noQuotient (Number.ratio? a b)
    pure (.number q)

def applyBinary (op : BinaryOp) (line : Nat) (left right : Value) : GuardedRun Value :=
  match op, left, right with
  | .divide, .number a, .number b => quotient line a b
  | op, left, right => lift (Run.ofExcept line (op.apply left right))

end Script.GuardedRun

namespace Script

/-- How many calls are around a place, and in the innermost of them how many loops. -/
structure Around where
  calls : Nat
  loops : Nat

/-- The instrument of a guarded run. A jump is for the innermost of the loops around and a returned
value for the innermost of the calls, and a body runs as one more call, outside of the loops around
the call. -/
def guarding : Instrument Around GuardedExit Machine where
  machine m := m
  put m _ := m
  exit := .ofExit
  jump? x
    | .jumped jump call loop => if call = x.calls ∧ loop + 1 = x.loops then some jump else none
    | _ => none
  value? x
    | .returned v call => if call = x.calls + 1 then some v else none
    | _ => none
  jumped x jump :=
    match x.loops with
    | 0 => .breached (.strayJump jump)
    | loop + 1 => .jumped jump x.calls loop
  returned x v :=
    match x.calls with
    | 0 => .breached .strayReturn
    | call + 1 => .returned v (call + 1)
  child _ x := x
  expression x := { x with loops := 0 }
  looping x := { x with loops := x.loops + 1 }
  entered _ _ x := ⟨x.calls + 1, 0⟩
  lift := GuardedRun.lift
  binary := GuardedRun.applyBinary
  print := GuardedRun.print
  madeAt x _ := pure x
  method? x _ name c := (c.method? name).map fun method => (x, method)
  arguments params given := GuardedRun.bindFrom given 0 params []
  part i body increment := GuardedRun.present (.noPart i) (Stmt.round body increment)[i]?
  contained := GuardedRun.contained

end Script

namespace Script.Dialogue

/-- Runs a bound program under guard, outside of every call and loop. -/
def runGuarded (limits : Limits) (program : List BoundStmt) (m : Machine) :
    Except Breach (Outcome × Machine) :=
  match guarding.executeAll limits.fuel limits.room ⟨0, 0⟩ program { m with output := "" } with
  | .ok () m => .ok (.finished, m)
  | .error (.failed failure) m => .ok (.failed failure, m)
  | .error (.absent absence) m => .ok (.escaped (.absent absence), m)
  | .error .exhausted m => .ok (.escaped .exhausted, m)
  | .error (.jumped j _ _) _ => .error (.leakedJump j)
  | .error (.returned _ _) _ => .error .leakedReturn
  | .error (.breached breach) _ => .error breach

def stepGuarded (limits : Limits) (mode : CommandLine.Mode) (source : String) (d : Dialogue) :
    Except Breach (Step × Dialogue) :=
  match mode with
  | .tokens => .ok (listTokens source, d)
  | .run =>
    if Program.check source = [] then do
      let bound := (Program.ofSource source).bound
      let (outcome, machine) ← runGuarded limits bound.statements d.machine
      pure (⟨outcome, machine.output⟩, ⟨machine, d.occurrences + bound.occurrences.length⟩)
    else .ok (run limits source d)

def converseGuarded (limits : Limits) :
    List (CommandLine.Mode × String) → Dialogue → Except Breach (List Step × Dialogue)
  | [], d => .ok ([], d)
  | (mode, source) :: rest, d => do
    let (s, d) ← stepGuarded limits mode source d
    let (shown, d) ← converseGuarded limits rest d
    pure (s :: shown, d)

end Script.Dialogue
