import Script.Proofs.Grammar.Accounting
import Script.Proofs.Grammar.Writing
import Script.Proofs.Lexical.Position

/-! The productions of the grammar.
What a stretch of tokens is read as is said here without reading it. A production takes its parts
from left to right, and each part is a stretch of its own. Two productions are there for malformed
input: a list of declarations may leave tokens out, which a complaint has cost, and an assignment to
what is no target leaves its value out. -/
namespace Script

open Lexical

def Stmt.isStep {β : Type} : Stmt β → Bool
  | step _ _ => true
  | _ => false

/-- A statement that may be a branch or the body of a loop: it declares nothing. -/
def Stmt.Bare {β : Type} (s : Stmt β) : Prop := declared? s = none ∧ s.isStep = false

def Stmt.looped {β : Type} (increment : Option (Expr β)) (body : Stmt β) : Stmt β :=
  match increment with
  | some e => step body e
  | none => body

def Expr.orTrue {β : Type} (condition : Option (Expr β)) : Expr β :=
  condition.getD (literal (.bool true))

/-- The loop of a `for` statement, behind its initializer if it has one. -/
def Stmt.initialized {β : Type} (initial : Option (Stmt β)) (loop : Stmt β) : Stmt β :=
  match initial with
  | some s => block [s, loop]
  | none => loop

theorem Stmt.forLoop_eq {β : Type} (initial : Option (Stmt β)) (condition increment : Option (Expr β))
    (body : Stmt β) : forLoop initial condition increment body =
      initialized initial (while_ (Expr.orTrue condition) (looped increment body)) := rfl

namespace Grammar

def literal? : Kind → Option Literal
  | .keyword .nil_ => some .nil
  | .keyword .true_ => some (.bool true)
  | .keyword .false_ => some (.bool false)
  | .number value => some (.number value)
  | .string text => some (.string text)
  | _ => none

/-- What an operand on the right of an operator is at least. -/
def Level.right (level : Level) : Grade :=
  match level.tighter? with
  | some tighter => .level tighter
  | none => .unary

/-- An assignment to what stands on the left of an equals sign. What is no target stays alone. -/
def assigned (target value : RawExpr) : RawExpr :=
  match target with
  | .variable name _ => .assign name () value
  | .get object property => .set object property value
  | _ => target

def One (kind : Kind) (ts : List Token) : Prop := ∃ line, Took kind line ts

def TookName (name : Name) (ts : List Token) : Prop :=
  ∃ t, ts = [t] ∧ t.kind = .name ∧ name = ⟨t.lexeme, t.line⟩

/-- What tokens may be read as. -/
inductive Phrase where
  /-- An expression where one of the grade is asked for. -/
  | expr (grade : Grade) (e : RawExpr)
  | arguments (arguments : List RawExpr)
  | params (params : List Name)
  /-- Parameters in parentheses and a body in braces. -/
  | code (params : List Name) (body : List RawStmt)
  | statement (s : RawStmt)
  | declaration (s : RawStmt)
  | body (body : List RawStmt)
  | methods (methods : List RawMethod)
  /-- An expression that may be left out. -/
  | clause (e : Option RawExpr)
  /-- What a `for` loop starts with, up to its semicolon. -/
  | initial (s : Option RawStmt)
  | whileLoop (condition : RawExpr) (body : RawStmt)
  | forLoop (initial : Option RawStmt) (condition increment : Option RawExpr) (body : RawStmt)

/-- The tokens are a phrase by the productions of the grammar. -/
inductive Derives : Phrase → List Token → Prop
  -- expressions
  | tighter {g g' e ts} : Derives (.expr g' e) ts → g.rank ≤ g'.rank → Derives (.expr g e) ts
  | literal {t value} : literal? t.kind = some value → Derives (.expr .call (.literal value)) [t]
  | this {line ts} : Took (.keyword .this_) line ts → Derives (.expr .call (.this line ())) ts
  | «variable» {name ts} : TookName name ts → Derives (.expr .call (.variable name ())) ts
  | grouping {e ts us vs} : One (.symbol .leftParen) ts → Derives (.expr .sequence e) us →
    One (.symbol .rightParen) vs → Derives (.expr .call (.grouping e)) (ts ++ (us ++ vs))
  | literalFunction {params body ts us} : One (.keyword .fun_) ts → Derives (.code params body) us →
    Derives (.expr .call (.function params body)) (ts ++ us)
  | call {e es line ts us vs ws} : Derives (.expr .call e) ts → One (.symbol .leftParen) us →
    Derives (.arguments es) vs → Took (.symbol .rightParen) line ws →
    Derives (.expr .call (.call e line es)) (ts ++ (us ++ (vs ++ ws)))
  | get {e property ts us vs} : Derives (.expr .call e) ts → One (.symbol .dot) us →
    TookName property vs → Derives (.expr .call (.get e property)) (ts ++ (us ++ vs))
  | unary {op line e ts us} : Took (.symbol (UnaryOp.symbol op)) line ts →
    Derives (.expr .unary e) us → Derives (.expr .unary (.unary op line e)) (ts ++ us)
  | binary {e op line e' ts us vs} : Derives (.expr (.level (BinaryOp.level op)) e) ts →
    Took (.symbol op.symbol) line us → Derives (.expr op.level.right e') vs →
    Derives (.expr (.level op.level) (.binary e op line e')) (ts ++ (us ++ vs))
  | logical {e op line e' ts us vs} : Derives (.expr (.level (LogicalOp.level op)) e) ts →
    Took (.keyword op.keyword) line us → Derives (.expr op.level.right e') vs →
    Derives (.expr (.level op.level) (.logical e op line e')) (ts ++ (us ++ vs))
  | assign {e e' ts us vs} : Derives (.expr (.level .or) e) ts → One (.symbol .equal) us →
    Derives (.expr .conditional e') vs →
    Derives (.expr .conditional (assigned e e')) (ts ++ (us ++ vs))
  | ternary {e e' e'' ts us vs ws xs} : Derives (.expr (.level .or) e) ts →
    One (.symbol .question) us → Derives (.expr .conditional e') vs → One (.symbol .colon) ws →
    Derives (.expr .conditional e'') xs →
    Derives (.expr .conditional (.ternary e e' e'')) (ts ++ (us ++ (vs ++ (ws ++ xs))))
  | sequence {e e' ts us vs} : Derives (.expr .sequence e) ts → One (.symbol .comma) us →
    Derives (.expr .conditional e') vs →
    Derives (.expr .sequence (.sequence e e')) (ts ++ (us ++ vs))
  -- arguments and parameters
  | noArguments : Derives (.arguments []) []
  | lastArgument {e ts} : Derives (.expr .conditional e) ts → Derives (.arguments [e]) ts
  | moreArguments {e e' es ts us vs} : Derives (.expr .conditional e) ts →
    One (.symbol .comma) us → Derives (.arguments (e' :: es)) vs →
    Derives (.arguments (e :: e' :: es)) (ts ++ (us ++ vs))
  | noParams : Derives (.params []) []
  | lastParam {n ts} : TookName n ts → Derives (.params [n]) ts
  | moreParams {n n' ns ts us vs} : TookName n ts → One (.symbol .comma) us →
    Derives (.params (n' :: ns)) vs → Derives (.params (n :: n' :: ns)) (ts ++ (us ++ vs))
  | code {params body ts us vs ws xs ys} : One (.symbol .leftParen) ts →
    Derives (.params params) us → One (.symbol .rightParen) vs → One (.symbol .leftBrace) ws →
    Derives (.body body) xs → One (.symbol .rightBrace) ys →
    Derives (.code params body) (ts ++ (us ++ (vs ++ (ws ++ (xs ++ ys)))))
  -- statements
  | expression {e ts us} : Derives (.expr .sequence e) ts → One (.symbol .semicolon) us →
    Derives (.statement (.expression e)) (ts ++ us)
  | print {e ts us vs} : One (.keyword .print_) ts → Derives (.expr .sequence e) us →
    One (.symbol .semicolon) vs → Derives (.statement (.print e)) (ts ++ (us ++ vs))
  | block {body ts us vs} : One (.symbol .leftBrace) ts → Derives (.body body) us →
    One (.symbol .rightBrace) vs → Derives (.statement (.block body)) (ts ++ (us ++ vs))
  | if_ {e s ts us vs ws xs} : One (.keyword .if_) ts → One (.symbol .leftParen) us →
    Derives (.expr .sequence e) vs → One (.symbol .rightParen) ws → Derives (.statement s) xs →
    Derives (.statement (.if_ e s none)) (ts ++ (us ++ (vs ++ (ws ++ xs))))
  | ifElse {e s s' ts us vs ws xs ys zs} : One (.keyword .if_) ts → One (.symbol .leftParen) us →
    Derives (.expr .sequence e) vs → One (.symbol .rightParen) ws → Derives (.statement s) xs →
    One (.keyword .else_) ys → Derives (.statement s') zs →
    Derives (.statement (.if_ e s (some s'))) (ts ++ (us ++ (vs ++ (ws ++ (xs ++ (ys ++ zs))))))
  | jump {jump line ts us} : Took (.keyword (Jump.keyword jump)) line ts →
    One (.symbol .semicolon) us → Derives (.statement (.jump jump line)) (ts ++ us)
  | return_ {e line ts us vs} : Took (.keyword .return_) line ts → Derives (.clause e) us →
    One (.symbol .semicolon) vs → Derives (.statement (.return_ line e)) (ts ++ (us ++ vs))
  | while_ {e s ts} : Derives (.whileLoop e s) ts → Derives (.statement (.while_ e s)) ts
  | for_ {i e e' s ts} : Derives (.forLoop i e e' s) ts → Derives (.statement (.forLoop i e e' s)) ts
  -- loops
  | whileLoop {e s ts us vs ws xs} : One (.keyword .while_) ts → One (.symbol .leftParen) us →
    Derives (.expr .sequence e) vs → One (.symbol .rightParen) ws → Derives (.statement s) xs →
    Derives (.whileLoop e s) (ts ++ (us ++ (vs ++ (ws ++ xs))))
  | forLoop {i e e' s ts us vs ws xs ys zs as} : One (.keyword .for_) ts →
    One (.symbol .leftParen) us → Derives (.initial i) vs → Derives (.clause e) ws →
    One (.symbol .semicolon) xs → Derives (.clause e') ys → One (.symbol .rightParen) zs →
    Derives (.statement s) as →
    Derives (.forLoop i e e' s) (ts ++ (us ++ (vs ++ (ws ++ (xs ++ (ys ++ (zs ++ as)))))))
  | noClause : Derives (.clause none) []
  | clause {e ts} : Derives (.expr .sequence e) ts → Derives (.clause (some e)) ts
  | noInitial {ts} : One (.symbol .semicolon) ts → Derives (.initial none) ts
  | initialVar {name e ts} : Derives (.declaration (.var name e)) ts →
    Derives (.initial (some (.var name e))) ts
  | initialExpression {e ts} : Derives (.statement (.expression e)) ts →
    Derives (.initial (some (.expression e))) ts
  -- declarations
  | statement {s ts} : Derives (.statement s) ts → Derives (.declaration s) ts
  | var {name ts us vs} : One (.keyword .var_) ts → TookName name us → One (.symbol .semicolon) vs →
    Derives (.declaration (.var name none)) (ts ++ (us ++ vs))
  | varInitial {name e ts us vs ws xs} : One (.keyword .var_) ts → TookName name us →
    One (.symbol .equal) vs → Derives (.expr .sequence e) ws → One (.symbol .semicolon) xs →
    Derives (.declaration (.var name (some e))) (ts ++ (us ++ (vs ++ (ws ++ xs))))
  | function {name params body ts us vs} : One (.keyword .fun_) ts → TookName name us →
    Derives (.code params body) vs →
    Derives (.declaration (.function name params body)) (ts ++ (us ++ vs))
  | class_ {name methods ts us vs ws xs} : One (.keyword .class_) ts → TookName name us →
    One (.symbol .leftBrace) vs → Derives (.methods methods) ws → One (.symbol .rightBrace) xs →
    Derives (.declaration (.class_ name methods)) (ts ++ (us ++ (vs ++ (ws ++ xs))))
  | noMethods : Derives (.methods []) []
  | moreMethods {name params body methods ts us vs} : TookName name ts →
    Derives (.code params body) us → Derives (.methods methods) vs →
    Derives (.methods (.mk name params body :: methods)) (ts ++ (us ++ vs))
  | noBody : Derives (.body []) []
  | moreBody {s body ts us} : Derives (.declaration s) ts → Derives (.body body) us →
    Derives (.body (s :: body)) (ts ++ us)
  /-- Tokens that a complaint has cost. -/
  | lost {body ts us} : Derives (.body body) us → Derives (.body body) (ts ++ us)

end Grammar

end Script
