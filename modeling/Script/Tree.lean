import Script.Report

/-! The tree of a program.
Every node keeps the names and lines that a complaint or a failure about it needs. The parameter `β`
is what is known of each place where a variable is used: nothing as the tree is read, and the scope
it refers to once the tree is bound. A `for` loop has no node of its own; it is built from `while`,
and only the pair of a loop body with its increment is special. -/
namespace Script

structure Name where
  text : String
  line : Nat
deriving Repr, DecidableEq

inductive UnaryOp where
  | negate | not
deriving Repr, DecidableEq

def UnaryOp.symbol : UnaryOp → Symbol
  | negate => .minus
  | not => .bang

inductive BinaryOp where
  | equal | notEqual | less | lessEqual | greater | greaterEqual
  | add | subtract | multiply | divide
deriving Repr, DecidableEq

def BinaryOp.symbol : BinaryOp → Symbol
  | equal => .equalEqual
  | notEqual => .bangEqual
  | less => .less
  | lessEqual => .lessEqual
  | greater => .greater
  | greaterEqual => .greaterEqual
  | add => .plus
  | subtract => .minus
  | multiply => .star
  | divide => .slash

def BinaryOp.all : List BinaryOp :=
  [equal, notEqual, less, lessEqual, greater, greaterEqual, add, subtract, multiply, divide]

inductive LogicalOp where
  | and | or
deriving Repr, DecidableEq

def LogicalOp.keyword : LogicalOp → Keyword
  | and => .and_
  | or => .or_

inductive Literal where
  | nil
  | bool (value : Bool)
  | number (value : Float)
  | string (text : String)
deriving Repr, DecidableEq

mutual

/-- An expression. In a sequence the earlier expressions are themselves the left part, so a
sequence has two elements or more. -/
inductive Expr (β : Type) where
  | literal (value : Literal)
  | grouping (inner : Expr β)
  | variable (name : Name) (site : β)
  | assign (name : Name) (site : β) (value : Expr β)
  | this (line : Nat) (site : β)
  | unary (op : UnaryOp) (line : Nat) (operand : Expr β)
  | binary (left : Expr β) (op : BinaryOp) (line : Nat) (right : Expr β)
  | logical (left : Expr β) (op : LogicalOp) (line : Nat) (right : Expr β)
  | ternary (condition yes no : Expr β)
  | sequence (earlier last : Expr β)
  | call (callee : Expr β) (parenLine : Nat) (arguments : List (Expr β))
  | get (object : Expr β) (property : Name)
  | set (object : Expr β) (property : Name) (value : Expr β)
  | function (params : List Name) (body : List (Stmt β))

/-- A statement. `step` is the body of a `for` loop followed by its increment, both in one scope
of their own. -/
inductive Stmt (β : Type) where
  | expression (e : Expr β)
  | print (e : Expr β)
  | var (name : Name) (initial : Option (Expr β))
  | block (body : List (Stmt β))
  | step (body : Stmt β) (increment : Expr β)
  | if_ (condition : Expr β) (yes : Stmt β) (no : Option (Stmt β))
  | while_ (condition : Expr β) (body : Stmt β)
  | jump (jump : Jump) (line : Nat)
  | function (name : Name) (params : List Name) (body : List (Stmt β))
  | return_ (line : Nat) (value : Option (Expr β))
  | class_ (name : Name) (methods : List (Method β))

inductive Method (β : Type) where
  | mk (name : Name) (params : List Name) (body : List (Stmt β))

end

abbrev RawExpr := Expr Unit
abbrev RawStmt := Stmt Unit
abbrev RawMethod := Method Unit

variable {β : Type}

def Method.name : Method β → Name
  | mk name _ _ => name

def Method.params : Method β → List Name
  | mk _ params _ => params

def Method.body : Method β → List (Stmt β)
  | mk _ _ body => body

/-- A `for` loop: the initializer runs once in a scope around the loop, a missing condition holds
always, and the increment runs behind the body in the scope of each round. -/
def Stmt.forLoop (initial : Option (Stmt β)) (condition increment : Option (Expr β))
    (body : Stmt β) : Stmt β :=
  let round := match increment with
    | some e => .step body e
    | none => body
  let loop := .while_ (condition.getD (.literal (.bool true))) round
  match initial with
  | some s => .block [s, loop]
  | none => loop

end Script
