import Script.Tree

/-! The grammar of the language, one rule per nonterminal.
The rules are the same for whatever reads tokens. Fuel bounds the depth of the readings; every way
round the grammar takes a token, so a number of steps in proportion to the tokens is enough. Binary
operators group to the left, assignment and the conditional operator to the right. A complaint
inside a declaration ends that declaration only. -/
namespace Script.Grammar

/-- The levels of binary operators, from the loosest to the tightest. -/
inductive Level where
  | or | and | equality | comparison | term | factor
deriving Repr, DecidableEq

def Level.tighter? : Level → Option Level
  | or => some and
  | and => some equality
  | equality => some comparison
  | comparison => some term
  | term => some factor
  | factor => none

inductive Connective where
  | logical (op : LogicalOp)
  | binary (op : BinaryOp)
deriving Repr, DecidableEq

def Connective.join : Connective → RawExpr → Nat → RawExpr → RawExpr
  | logical op, left, line, right => .logical left op line right
  | binary op, left, line, right => .binary left op line right

/-- The operator of a level that a token kind spells. -/
def Level.connective? : Level → Kind → Option Connective
  | or, .keyword .or_ => some (.logical .or)
  | and, .keyword .and_ => some (.logical .and)
  | equality, .symbol .bangEqual => some (.binary .notEqual)
  | equality, .symbol .equalEqual => some (.binary .equal)
  | comparison, .symbol .greater => some (.binary .greater)
  | comparison, .symbol .greaterEqual => some (.binary .greaterEqual)
  | comparison, .symbol .less => some (.binary .less)
  | comparison, .symbol .lessEqual => some (.binary .lessEqual)
  | term, .symbol .minus => some (.binary .subtract)
  | term, .symbol .plus => some (.binary .add)
  | factor, .symbol .slash => some (.binary .divide)
  | factor, .symbol .star => some (.binary .multiply)
  | _, _ => none

def unaryOp? : Kind → Option UnaryOp
  | .symbol .bang => some .not
  | .symbol .minus => some .negate
  | _ => none

end Script.Grammar

namespace Script

/-- What the rules need of the tokens: to look at the next ones, to take them and to complain. -/
class TokenReader (m : Type → Type) where
  exhaust {α : Type} : m α
  stop {α : Type} (missing : Missing) : m α
  note (report : Report) : m Unit
  noteHere (complaint : Complaint) : m Unit
  peek : m (Option Token)
  advance : m Unit
  /-- The line of the token that was passed last. -/
  passedLine (t : Token) : m Nat
  atEnd : m Bool
  at_ (kind : Kind) : m Bool
  /-- A name stands behind the next token. -/
  nameFollows : m Bool
  accept (kind : Kind) : m Bool
  acceptMeaning {α : Type} (meaning : Kind → Option α) : m (Option (α × Nat))
  expect (symbol : Symbol) (landmark : Landmark) : m Nat
  expectName (missing : Missing) : m Name
  loopsAround : m Nat
  withLoops {α : Type} (change : Nat → Nat) (reading : m α) : m α
  recovering {α : Type} (reading : m α) : m (Option α)

end Script

namespace Script.Rules

open TokenReader
open Grammar (Level Connective unaryOp?)

variable {m : Type → Type} [Monad m] [TokenReader m] {α : Type}

abbrev insideLoop (reading : m α) : m α := withLoops (· + 1) reading

abbrev outsideLoops (reading : m α) : m α := withLoops (fun _ => 0) reading

def unlessAt (kind : Kind) (reading : m α) : m (Option α) := do
  if ← at_ kind then pure none else some <$> reading

/-- An assignment to what stands on the left of an equals sign. A left side that is no target is
complained of at the sign and kept; the value is dropped. -/
def assignTo (target : RawExpr) (equalLine : Nat) (value : RawExpr) : m RawExpr :=
  match target with
  | .variable name _ => pure (.assign name () value)
  | .get object property => pure (.set object property value)
  | _ => do
    note ⟨equalLine, .atToken Symbol.equal.spelling, .assignmentTarget⟩
    pure target

/-- One parameter or more, of which `count` are already read. -/
def parametersFrom : Nat → Nat → m (List Name)
  | 0, _ => exhaust
  | fuel + 1, count => do
    if maxArguments ≤ count then noteHere .tooManyParameters
    let param ← expectName .parameterName
    if ← accept (.symbol .comma) then
      let more ← parametersFrom fuel (count + 1)
      pure (param :: more)
    else pure [param]

/-- A parameter list from behind its opening parenthesis to the brace that opens the body. -/
def parameters (fuel : Nat) (role : Role) : m (List Name) := do
  let params ← unlessAt (.symbol .rightParen) (parametersFrom fuel 0)
  let _ ← expect .rightParen .afterParameters
  let _ ← expect .leftBrace (.beforeRoleBody role)
  pure (params.getD [])

def jumpStatement (jump : Jump) (line : Nat) : m RawStmt := do
  if (← loopsAround) = 0 then
    note ⟨line, .atToken jump.keyword.spelling, .strayJump jump⟩
  let _ ← expect .semicolon (.afterKeyword jump.keyword)
  pure (.jump jump line)

mutual

/-- An expression: one conditional or several with commas between. -/
def expression : Nat → m RawExpr
  | 0 => exhaust
  | fuel + 1 => do
    let first ← conditional fuel
    sequenceTail fuel first

def sequenceTail : Nat → RawExpr → m RawExpr
  | 0, _ => exhaust
  | fuel + 1, earlier => do
    if ← accept (.symbol .comma) then
      let last ← conditional fuel
      sequenceTail fuel (.sequence earlier last)
    else pure earlier

def conditional : Nat → m RawExpr
  | 0 => exhaust
  | fuel + 1 => do
    let condition ← assignment fuel
    if ← accept (.symbol .question) then
      let yes ← conditional fuel
      let _ ← expect .colon .afterThenBranch
      let no ← conditional fuel
      pure (.ternary condition yes no)
    else pure condition

def assignment : Nat → m RawExpr
  | 0 => exhaust
  | fuel + 1 => do
    let target ← operation fuel .or
    match ← acceptMeaning fun k => if k = .symbol .equal then some () else none with
    | some ((), equalLine) => do
      let value ← conditional fuel
      assignTo target equalLine value
    | none => pure target

def operation : Nat → Level → m RawExpr
  | 0, _ => exhaust
  | fuel + 1, level => do
    let left ← operand fuel level
    operationTail fuel level left

def operationTail : Nat → Level → RawExpr → m RawExpr
  | 0, _, _ => exhaust
  | fuel + 1, level, left => do
    match ← acceptMeaning level.connective? with
    | some (connective, line) => do
      let right ← operand fuel level
      operationTail fuel level (connective.join left line right)
    | none => pure left

def operand : Nat → Level → m RawExpr
  | 0, _ => exhaust
  | fuel + 1, level =>
    match level.tighter? with
    | some tighter => operation fuel tighter
    | none => unary fuel

def unary : Nat → m RawExpr
  | 0 => exhaust
  | fuel + 1 => do
    match ← acceptMeaning unaryOp? with
    | some (op, line) => do
      let inner ← unary fuel
      pure (.unary op line inner)
    | none => do
      let head ← primary fuel
      callTail fuel head

/-- The calls and properties behind an expression. -/
def callTail : Nat → RawExpr → m RawExpr
  | 0, _ => exhaust
  | fuel + 1, head => do
    if ← accept (.symbol .leftParen) then
      let arguments ← unlessAt (.symbol .rightParen) (argumentsFrom fuel 0)
      let line ← expect .rightParen .afterArguments
      callTail fuel (.call head line (arguments.getD []))
    else if ← accept (.symbol .dot) then
      let property ← expectName .propertyName
      callTail fuel (.get head property)
    else pure head

def argumentsFrom : Nat → Nat → m (List RawExpr)
  | 0, _ => exhaust
  | fuel + 1, count => do
    if maxArguments ≤ count then noteHere .tooManyArguments
    let argument ← conditional fuel
    if ← accept (.symbol .comma) then
      let more ← argumentsFrom fuel (count + 1)
      pure (argument :: more)
    else pure [argument]

def primary : Nat → m RawExpr
  | 0 => exhaust
  | fuel + 1 => do
    match ← peek with
    | none => stop .expression
    | some t =>
      match t.kind with
      | .keyword .false_ => do advance; pure (.literal (.bool false))
      | .keyword .true_ => do advance; pure (.literal (.bool true))
      | .keyword .nil_ => do advance; pure (.literal .nil)
      | .number value => do advance; pure (.literal (.number value))
      | .string text => do advance; pure (.literal (.string text))
      | .keyword .this_ => do advance; pure (.this t.line ())
      | .name => do advance; pure (.variable ⟨t.lexeme, t.line⟩ ())
      | .symbol .leftParen => do
        advance
        let inner ← expression fuel
        let _ ← expect .rightParen .afterExpression
        pure (.grouping inner)
      | .keyword .fun_ => do
        advance
        let _ ← expect .leftParen (.afterKeyword .fun_)
        let params ← parameters fuel .function
        let body ← outsideLoops (blockBody fuel)
        pure (.function params body)
      | _ => stop .expression

/-- Declarations up to a closing brace, which is taken. -/
def blockBody : Nat → m (List RawStmt)
  | 0 => exhaust
  | fuel + 1 => do
    if (← atEnd) || (← at_ (.symbol .rightBrace)) then
      let _ ← expect .rightBrace .afterBlock
      pure []
    else
      let first ← declaration fuel
      let more ← blockBody fuel
      pure (first.toList ++ more)

/-- A declaration, or nothing where a complaint stopped it. -/
def declaration : Nat → m (Option RawStmt)
  | 0 => exhaust
  | fuel + 1 => recovering (declared fuel)

def declared : Nat → m RawStmt
  | 0 => exhaust
  | fuel + 1 => do
    if ← accept (.keyword .class_) then
      let name ← expectName .className
      let _ ← expect .leftBrace .beforeClassBody
      let methods ← methodList fuel
      let _ ← expect .rightBrace .afterClassBody
      pure (.class_ name methods)
    else if (← at_ (.keyword .fun_)) && (← nameFollows) then
      advance
      let (name, params, body) ← named fuel .function
      pure (.function name params body)
    else if ← at_ (.keyword .var_) then
      variableDeclaration fuel
    else statement fuel

def named : Nat → Role → m (Name × List Name × List RawStmt)
  | 0, _ => exhaust
  | fuel + 1, role => do
    let name ← expectName (.roleName role)
    let _ ← expect .leftParen (.afterRoleName role)
    let params ← parameters fuel role
    let body ← outsideLoops (blockBody fuel)
    pure (name, params, body)

def methodList : Nat → m (List RawMethod)
  | 0 => exhaust
  | fuel + 1 => do
    if (← atEnd) || (← at_ (.symbol .rightBrace)) then pure []
    else
      let (name, params, body) ← named fuel .method
      let more ← methodList fuel
      pure (.mk name params body :: more)

def variableDeclaration : Nat → m RawStmt
  | 0 => exhaust
  | fuel + 1 => do
    advance
    let name ← expectName .variableName
    let initial ← do
      if ← accept (.symbol .equal) then some <$> expression fuel else pure none
    let _ ← expect .semicolon .afterVariable
    pure (.var name initial)

def expressionStatement : Nat → m RawStmt
  | 0 => exhaust
  | fuel + 1 => do
    let e ← expression fuel
    let _ ← expect .semicolon .afterExpression
    pure (.expression e)

def statement : Nat → m RawStmt
  | 0 => exhaust
  | fuel + 1 => do
    match ← peek with
    | none => expressionStatement fuel
    | some t =>
      match t.kind with
      | .keyword .print_ => do
        advance
        let e ← expression fuel
        let _ ← expect .semicolon .afterValue
        pure (.print e)
      | .keyword .for_ => do advance; forStatement fuel
      | .keyword .if_ => do
        advance
        let _ ← expect .leftParen (.afterKeyword .if_)
        let condition ← expression fuel
        let _ ← expect .rightParen .afterIfCondition
        let yes ← statement fuel
        let no ← do
          if ← accept (.keyword .else_) then some <$> statement fuel else pure none
        pure (.if_ condition yes no)
      | .keyword .return_ => do
        advance
        let line ← passedLine t
        let value ← unlessAt (.symbol .semicolon) (expression fuel)
        let _ ← expect .semicolon .afterReturnValue
        pure (.return_ line value)
      | .keyword .while_ => do
        advance
        let _ ← expect .leftParen (.afterKeyword .while_)
        let condition ← expression fuel
        let _ ← expect .rightParen .afterCondition
        let body ← insideLoop (statement fuel)
        pure (.while_ condition body)
      | .keyword .break_ => do
        advance
        jumpStatement .break_ (← passedLine t)
      | .keyword .continue_ => do
        advance
        jumpStatement .continue_ (← passedLine t)
      | .symbol .leftBrace => do
        advance
        let body ← blockBody fuel
        pure (.block body)
      | _ => expressionStatement fuel

def forStatement : Nat → m RawStmt
  | 0 => exhaust
  | fuel + 1 => do
    let _ ← expect .leftParen (.afterKeyword .for_)
    let initial ← do
      if ← accept (.symbol .semicolon) then pure none
      else if ← at_ (.keyword .var_) then some <$> variableDeclaration fuel
      else some <$> expressionStatement fuel
    let condition ← unlessAt (.symbol .semicolon) (expression fuel)
    let _ ← expect .semicolon .afterLoopCondition
    let increment ← unlessAt (.symbol .rightParen) (expression fuel)
    let _ ← expect .rightParen .afterForClauses
    let body ← insideLoop (statement fuel)
    pure (.forLoop initial condition increment body)

end

def declarations : Nat → m (List RawStmt)
  | 0 => exhaust
  | fuel + 1 => do
    if ← atEnd then pure []
    else
      let first ← declaration fuel
      let more ← declarations fuel
      pure (first.toList ++ more)

end Script.Rules
