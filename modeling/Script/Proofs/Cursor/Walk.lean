import Script.Grammar.Reader

/-! Reading with a cursor.
A reading holds only the tokens that are left, so it cannot go back or past the end. Here the tokens
stand in a list with a mark of the end, the place in it is a number, and to look where the list has
nothing is a fault of its own, apart from every complaint. The rules of the grammar are the same. -/
namespace Script

/-- What stands at a place of the list. -/
inductive Mark where
  | token (t : Token)
  | ending (line : Nat)
deriving Repr, DecidableEq

namespace Mark

def token? : Mark → Option Token
  | token t => some t
  | ending _ => none

def kind? (m : Mark) : Option Kind := m.token?.map Token.kind

def line : Mark → Nat
  | token t => t.line
  | ending line => line

def lexeme : Mark → String
  | token t => t.lexeme
  | ending _ => ""

def report (m : Mark) (complaint : Complaint) : Report :=
  match m with
  | token t => ⟨t.line, .atToken t.lexeme, complaint⟩
  | ending line => ⟨line, .atEnd, complaint⟩

def opensStatement (m : Mark) : Bool :=
  match m with
  | token t => Grammar.opensStatement t
  | ending _ => false

end Mark

/-- A declaration that was read, with the complaint that stopped it if there is one. -/
structure Attempt where
  start : Nat
  stop : Nat
  raised : Option Report
deriving Repr, DecidableEq

structure Cursor where
  marks : List Mark
  position : Nat
  reports : List Report
  loops : Nat
  /-- The places where something was looked at. -/
  trail : List Nat
  attempts : List Attempt
deriving Repr, DecidableEq

namespace Cursor

def looked (c : Cursor) : Cursor := { c with trail := c.trail ++ [c.position] }

def passed (c : Cursor) : Cursor := { c with position := c.position + 1 }

def attempted (c : Cursor) (start : Nat) (raised : Option Report) : Cursor :=
  { c with attempts := c.attempts ++ [⟨start, c.position, raised⟩] }

def start (tokens : List Token) (endLine : Nat) : Cursor :=
  ⟨tokens.map .token ++ [.ending endLine], 0, [], 0, [], []⟩

end Cursor

/-- Why a walk ends without a result. -/
inductive Halt where
  | complaint (report : Report)
  | outside
  | exhausted
deriving Repr, DecidableEq

abbrev Walk := EStateM Halt Cursor

namespace Walk

variable {α : Type}

def halt (h : Halt) : Walk α := fun c => .error h c

/-- What stands at the place of a number, if there is such a place. -/
def look (place : Option Nat) : Walk Mark := fun c =>
  match place.bind (c.marks[·]?) with
  | some m => .ok m c.looked
  | none => .error .outside c.looked

def current : Walk Mark := do look (some (← get).position)

/-- What stands right in front of the place. In front of the first token there is nothing. -/
def previous : Walk Mark := do
  match (← get).position with
  | 0 => look none
  | i + 1 => look (some i)

/-- What stands so many places on, or the mark of the end. -/
def ahead (offset : Nat) : Walk Mark := do
  let c ← get
  look (some (min (c.position + offset) (c.marks.length - 1)))

/-- The line of what was passed last. -/
def passedLine : Walk Nat := do return (← previous).line

def peek : Walk (Option Token) := do return (← current).token?

def atEnd : Walk Bool := do return (← current).token?.isNone

def at_ (kind : Kind) : Walk Bool := do return (← current).kind? == some kind

def nameFollows : Walk Bool := do return (← ahead 1).kind? == some .name

/-- Moves on, unless the end is reached, and gives what was passed. -/
def advance : Walk Mark := do
  let m ← current
  if !(← atEnd) then modify Cursor.passed
  pure m

def pass : Walk Unit := do
  let _ ← advance

def accept (kind : Kind) : Walk Bool := do
  if ← at_ kind then
    let _ ← advance
    pure true
  else pure false

def acceptMeaning (meaning : Kind → Option α) : Walk (Option (α × Nat)) := do
  match (← current).kind?.bind meaning with
  | some a => do
    let m ← advance
    pure (some (a, m.line))
  | none => pure none

def raise (missing : Missing) : Walk α := do
  let m ← current
  halt (.complaint (m.report (.expected missing)))

def note (report : Report) : Walk Unit := modify fun c => { c with reports := c.reports ++ [report] }

def noteHere (complaint : Complaint) : Walk Unit := do note ((← current).report complaint)

def expect (symbol : Symbol) (landmark : Landmark) : Walk Nat := do
  if ← at_ (.symbol symbol) then return (← advance).line
  else raise (.symbol symbol landmark)

def expectName (missing : Missing) : Walk Name := do
  if ← at_ .name then
    let m ← advance
    pure ⟨m.lexeme, m.line⟩
  else raise missing

def loopsAround : Walk Nat := do return (← get).loops

def withLoops (change : Nat → Nat) (x : Walk α) : Walk α := fun c =>
  match x { c with loops := change c.loops } with
  | .ok a d => .ok a { d with loops := c.loops }
  | .error h d => .error h { d with loops := c.loops }

/-- Moves on to the end, behind a semicolon or to what begins a declaration or statement. -/
def skip : Nat → Walk Unit
  | 0 => halt .exhausted
  | n + 1 => do
    if ← atEnd then pure ()
    else if (← previous).kind? == some (.symbol .semicolon) then pure ()
    else if (← current).opensStatement then pure ()
    else
      let _ ← advance
      skip n

/-- Moves on to where reading can go on behind a complaint, by one place in any case. -/
def synchronize : Walk Unit := do
  let _ ← advance
  skip (← get).marks.length

/-- Reads a declaration, or notes the complaint that stopped it and goes on behind the trouble. -/
def attempt (x : Walk α) : Walk (Option α) := fun c =>
  match x c with
  | .ok a d => .ok (some a) (d.attempted c.position none)
  | .error (.complaint report) d =>
    match (note report >>= fun _ => synchronize) d with
    | .ok _ e => .ok none (e.attempted c.position (some report))
    | .error h e => .error h e
  | .error h d => .error h d

instance : TokenReader Walk where
  exhaust := halt .exhausted
  stop := raise
  note := note
  noteHere := noteHere
  peek := peek
  advance := pass
  passedLine _ := passedLine
  atEnd := atEnd
  at_ := at_
  nameFollows := nameFollows
  accept := accept
  acceptMeaning := acceptMeaning
  expect := expect
  expectName := expectName
  loopsAround := loopsAround
  withLoops := withLoops
  recovering := attempt

def declarations : Nat → Walk (List RawStmt) := Rules.declarations

end Walk

end Script
