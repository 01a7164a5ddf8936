import Script.Program
import Script.Evaluation

/-! Sources given one after another to the same machine.
A source with complaints does not run. One that runs sees the globals of those before it, and what
it prints is its own. -/
namespace Script

/-- How deep calls may be nested, and how deep an evaluation may go. -/
structure Limits where
  room : Nat
  fuel : Nat
deriving Repr, DecidableEq

/-- The room lies well above any recursion that is meant to end; the fuel outlasts every run that
does. -/
def Limits.standard : Limits := ⟨1000, 1000000000000000000⟩

/-- How a step ends. Only an exit that is no failure of the language escapes. -/
inductive Outcome where
  | finished
  | rejected (reports : List Report)
  | failed (failure : Failure)
  | escaped (exit : Exit)
deriving Repr, DecidableEq

namespace Outcome

def ofExit : Exit → Outcome
  | .failed failure => failed failure
  | e => escaped e

/-- The exit code of a command that ends with the outcome; an escape has none of its own. -/
def exitCode : Outcome → Nat
  | finished => 0
  | rejected _ => 64
  | failed _ => 70
  | escaped _ => 1

def isOk : Outcome → Bool
  | finished => true
  | _ => false

/-- What is written to the error output. -/
def complaints : Outcome → String
  | finished => ""
  | rejected reports => String.join (reports.map fun r => r.text ++ "\n")
  | failed failure => failure.text ++ "\n"
  | escaped _ => ""

end Outcome

/-- What a step shows: how it ended and what it printed. -/
structure Step where
  outcome : Outcome
  output : String
deriving Repr, DecidableEq

structure Dialogue where
  machine : Machine
  occurrences : Nat

namespace Dialogue

def initial (clock : Nat → Float) : Dialogue := ⟨.initial clock, 0⟩

def runBound (limits : Limits) (program : List BoundStmt) (m : Machine) : Outcome × Machine :=
  match Run.executeAll limits.fuel limits.room program { m with output := "" } with
  | .ok () m => (.finished, m)
  | .error e m => (.ofExit e, m)

/-- Reads, binds and runs a source. The complaints of each phase join those found before. -/
def run (limits : Limits) (source : String) (d : Dialogue) : Step × Dialogue :=
  let scan := Source.scan source
  let lexical := Report.merge [] scan.reports
  let program := Grammar.readProgram scan.tokens scan.endLine
  let found := Report.merge lexical program.reports
  if !found.isEmpty then (⟨.rejected found, ""⟩, d)
  else
    let bound := Binding.bindProgram program.statements
    let occurrences := d.occurrences + bound.occurrences.length
    let found := Report.merge found bound.reports
    if !found.isEmpty then (⟨.rejected found, ""⟩, { d with occurrences := occurrences })
    else
      let (outcome, machine) := runBound limits bound.statements d.machine
      (⟨outcome, machine.output⟩, ⟨machine, occurrences⟩)

def literalText : Kind → String
  | .number value => Number.written value
  | .string text => text
  | _ => "null"

def tokenText (t : Token) : String :=
  t.kind.label ++ " " ++ t.lexeme ++ " " ++ literalText t.kind

/-- Lists the tokens of a source, the end of the input last, instead of running it. -/
def listTokens (source : String) : Step :=
  let scan := Source.scan source
  let lines := scan.tokens.map tokenText ++ [endLabel ++ "  null"]
  let found := Report.merge [] scan.reports
  ⟨if found.isEmpty then .finished else .rejected found,
    String.join (lines.map fun line => line ++ "\n")⟩

def globals (d : Dialogue) : List (String × String) :=
  (d.machine.frames.bindings Machine.globals).byName.map fun (name, v) =>
    (name, d.machine.text v)

end Dialogue

end Script
