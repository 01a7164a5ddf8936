import Script.Source.Scan
import Script.Grammar.Reader
import Script.Binding

/-! Sources read and checked without running them.
The complaints about characters and grammar come together in line order; scopes are looked at only
where there are none. -/
namespace Script

/-- What could be read of a source, and the complaints about its characters and its grammar. -/
structure Program where
  statements : List RawStmt
  reports : List Report

namespace Program

def ofSource (source : String) : Program :=
  let scan := Source.scan source
  let program := Grammar.readProgram scan.tokens scan.endLine
  ⟨program.statements, Report.byLine (scan.reports ++ program.reports)⟩

def bound (p : Program) : Binding.Bound := Binding.bindProgram p.statements

/-- All that is wrong with a source before it runs. Complaints about scopes are in the order they
are found. -/
def check (source : String) : List Report :=
  let p := ofSource source
  if p.reports.isEmpty then p.bound.reports else p.reports

end Program

end Script
