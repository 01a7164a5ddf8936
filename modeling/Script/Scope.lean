import Script.Tree

/-! Static scopes.
A scope lists its names in the order in which they were first declared, with what has become of
each. Scopes are kept innermost first, so the place of a scope in the list is its distance. Globals
are in no scope. -/
namespace Script

/-- What a use of a variable refers to: a global, found by name as the program runs, or a name
of the scope so many scopes out. -/
inductive Site where
  | global
  | local_ (distance : Nat)
deriving Repr, DecidableEq

abbrev BoundExpr := Expr Site
abbrev BoundStmt := Stmt Site
abbrev BoundMethod := Method Site

/-- How far a declaration has come. A name is declared while its initializer is read. -/
inductive Progress where
  | declared | defined | read
deriving Repr, DecidableEq

structure Local where
  key : String
  name : Name
  progress : Progress
deriving Repr, DecidableEq

abbrev Scope := List Local

namespace Scope

def find? (scope : Scope) (key : String) : Option Local :=
  List.find? (fun l => l.key == key) scope

def holds (scope : Scope) (key : String) : Bool := (scope.find? key).isSome

/-- Declares a name. A second declaration takes the place of the first. -/
def declare (name : Name) : Scope → Scope
  | [] => [⟨name.text, name, .declared⟩]
  | l :: rest =>
    if l.key = name.text then ⟨name.text, name, .declared⟩ :: rest else l :: declare name rest

def advance (key : String) (progress : Progress) : Scope → Scope
  | [] => []
  | l :: rest =>
    if l.key = key then { l with progress := progress } :: rest
    else l :: advance key progress rest

/-- The complaints about names that were defined and never read, in the order of the scope. -/
def unused (scope : Scope) : List Report :=
  (scope.filter fun l => l.progress = .defined).map fun l =>
    ⟨l.name.line, .atToken l.name.text, .unused⟩

/-- The scope around the methods of a class, which holds the instance and nothing else. -/
def ofClass (name : Name) : Scope := [⟨Keyword.this_.spelling, name, .read⟩]

def distance? (scopes : List Scope) (key : String) : Option Nat :=
  scopes.findIdx? fun scope => scope.holds key

end Scope

/-- The function around a place, if any. An initializer is the method `init` of a class. -/
inductive Enclosing where
  | none | function | method | initializer
deriving Repr, DecidableEq

def initializerName : String := "init"

/-- What a use of a variable is: a value, the target of an assignment, or the instance. -/
inductive Use where
  | variable | assign | this
deriving Repr, DecidableEq

structure Occurrence where
  use : Use
  name : Name
  distance : Nat
deriving Repr, DecidableEq

end Script
