import Script.Grammar.Rules

/-! Reading a token list from the left.
A reader holds the tokens that are left, the complaints so far and the number of loops around the
place. A complaint that stops the reading keeps the state it was raised in; the end of the tokens is
never passed. -/
namespace Script.Grammar

structure Reader where
  rest : List Token
  endLine : Nat
  reports : List Report
  loops : Nat
deriving Repr, DecidableEq

inductive Stop where
  | complaint (report : Report)
  | exhausted
deriving Repr, DecidableEq

abbrev Reading := EStateM Stop Reader

variable {α : Type}

def Reader.report (r : Reader) (complaint : Complaint) : Report :=
  match r.rest with
  | [] => ⟨r.endLine, .atEnd, complaint⟩
  | t :: _ => ⟨t.line, .atToken t.lexeme, complaint⟩

def Reader.leads (r : Reader) (kind : Kind) : Bool :=
  match r.rest with
  | [] => false
  | t :: _ => t.kind == kind

def exhaust : Reading α := fun r => .error .exhausted r

def stop (missing : Missing) : Reading α := fun r =>
  .error (.complaint (r.report (.expected missing))) r

def noteHere (complaint : Complaint) : Reading Unit := fun r =>
  .ok () { r with reports := r.reports ++ [r.report complaint] }

def note (report : Report) : Reading Unit := fun r =>
  .ok () { r with reports := r.reports ++ [report] }

def peek : Reading (Option Token) := fun r => .ok r.rest.head? r

def advance : Reading Unit := fun r => .ok () { r with rest := r.rest.tail }

def atEnd : Reading Bool := fun r => .ok r.rest.isEmpty r

def loopsAround : Reading Nat := fun r => .ok r.loops r

def at_ (kind : Kind) : Reading Bool := fun r => .ok (r.leads kind) r

def nameFollows : Reading Bool := fun r =>
  .ok (match r.rest with
    | _ :: t :: _ => t.kind == .name
    | _ => false) r

def accept (kind : Kind) : Reading Bool := fun r =>
  if r.leads kind then .ok true { r with rest := r.rest.tail } else .ok false r

/-- Takes the next token if `meaning` knows its kind; gives the meaning and the token's line. -/
def acceptMeaning (meaning : Kind → Option α) : Reading (Option (α × Nat)) := fun r =>
  match r.rest with
  | [] => .ok none r
  | t :: rest =>
    match meaning t.kind with
    | some a => .ok (some (a, t.line)) { r with rest := rest }
    | none => .ok none r

def expect (symbol : Symbol) (landmark : Landmark) : Reading Nat := fun r =>
  match r.rest with
  | t :: rest =>
    if t.kind = .symbol symbol then .ok t.line { r with rest := rest }
    else stop (.symbol symbol landmark) r
  | [] => stop (.symbol symbol landmark) r

def expectName (missing : Missing) : Reading Name := fun r =>
  match r.rest with
  | t :: rest =>
    if t.kind = .name then .ok ⟨t.lexeme, t.line⟩ { r with rest := rest } else stop missing r
  | [] => stop missing r

/-- Reads with another number of loops around, and restores it however the reading ends. -/
def withLoops (change : Nat → Nat) (reading : Reading α) : Reading α := fun r =>
  match reading { r with loops := change r.loops } with
  | .ok a s => .ok a { s with loops := r.loops }
  | .error e s => .error e { s with loops := r.loops }

/-- The token begins a declaration or a statement by its keyword. -/
def opensStatement (t : Token) : Bool :=
  match t.kind with
  | .keyword k => k.opensStatement
  | _ => false

/-- The tokens from which to read on after `skipped`: those behind a semicolon, or from a token
that begins a declaration or statement. -/
def resumeAfter (skipped : Token) : List Token → List Token
  | [] => []
  | t :: rest =>
    if skipped.kind = .symbol .semicolon ∨ opensStatement t then t :: rest
    else resumeAfter t rest

/-- The tokens from which to read on after a complaint. The next token is skipped unseen. -/
def resume : List Token → List Token
  | [] => []
  | t :: rest => resumeAfter t rest

/-- Reads, or notes the complaint that stopped the reading and goes on behind the trouble. -/
def recovering (reading : Reading α) : Reading (Option α) := fun r =>
  match reading r with
  | .ok a s => .ok (some a) s
  | .error (.complaint report) s =>
    .ok none { s with reports := s.reports ++ [report], rest := resume s.rest }
  | .error .exhausted s => .error .exhausted s

instance : TokenReader Reading where
  exhaust := exhaust
  stop := stop
  note := note
  noteHere := noteHere
  peek := peek
  advance := advance
  passedLine t := pure t.line
  atEnd := atEnd
  at_ := at_
  nameFollows := nameFollows
  accept := accept
  acceptMeaning := acceptMeaning
  expect := expect
  expectName := expectName
  loopsAround := loopsAround
  withLoops := withLoops
  recovering := recovering

abbrev insideLoop : Reading α → Reading α := Rules.insideLoop
abbrev outsideLoops : Reading α → Reading α := Rules.outsideLoops
abbrev unlessAt : Kind → Reading α → Reading (Option α) := Rules.unlessAt
abbrev assignTo : RawExpr → Nat → RawExpr → Reading RawExpr := Rules.assignTo
abbrev parametersFrom : Nat → Nat → Reading (List Name) := Rules.parametersFrom
abbrev parameters : Nat → Role → Reading (List Name) := Rules.parameters
abbrev jumpStatement : Jump → Nat → Reading RawStmt := Rules.jumpStatement
abbrev expression : Nat → Reading RawExpr := Rules.expression
abbrev sequenceTail : Nat → RawExpr → Reading RawExpr := Rules.sequenceTail
abbrev conditional : Nat → Reading RawExpr := Rules.conditional
abbrev assignment : Nat → Reading RawExpr := Rules.assignment
abbrev operation : Nat → Level → Reading RawExpr := Rules.operation
abbrev operationTail : Nat → Level → RawExpr → Reading RawExpr := Rules.operationTail
abbrev operand : Nat → Level → Reading RawExpr := Rules.operand
abbrev unary : Nat → Reading RawExpr := Rules.unary
abbrev callTail : Nat → RawExpr → Reading RawExpr := Rules.callTail
abbrev argumentsFrom : Nat → Nat → Reading (List RawExpr) := Rules.argumentsFrom
abbrev primary : Nat → Reading RawExpr := Rules.primary
abbrev blockBody : Nat → Reading (List RawStmt) := Rules.blockBody
abbrev declaration : Nat → Reading (Option RawStmt) := Rules.declaration
abbrev declared : Nat → Reading RawStmt := Rules.declared
abbrev named : Nat → Role → Reading (Name × List Name × List RawStmt) := Rules.named
abbrev methodList : Nat → Reading (List RawMethod) := Rules.methodList
abbrev variableDeclaration : Nat → Reading RawStmt := Rules.variableDeclaration
abbrev expressionStatement : Nat → Reading RawStmt := Rules.expressionStatement
abbrev statement : Nat → Reading RawStmt := Rules.statement
abbrev forStatement : Nat → Reading RawStmt := Rules.forStatement
abbrev declarations : Nat → Reading (List RawStmt) := Rules.declarations

theorem declaration_succ (fuel : Nat) : declaration (fuel + 1) = recovering (declared fuel) := rfl

/-- The statements that could be read, and the complaints in the order they were found. -/
structure Result where
  statements : List RawStmt
  reports : List Report

/-- Enough fuel for so many tokens: no way down the grammar that takes no token is longer. -/
def fuelFor (tokens : List Token) : Nat := 24 * (tokens.length + 1)

/-- Reads a token list as a program. -/
def readProgram (tokens : List Token) (endLine : Nat) : Result :=
  match declarations (fuelFor tokens) ⟨tokens, endLine, [], 0⟩ with
  | .ok statements r => ⟨statements, r.reports⟩
  | .error _ r => ⟨[], r.reports⟩

end Script.Grammar
