import Script.Grammar.Reader
import Script.Number.Numeral
import Script.Proofs.Lexical.Position

/-! Writing a tree as tokens.
Every node is written in its own syntax and no parentheses are added, so a tree comes back from its
tokens only if it is proper: each part has to be as tight as its place asks for. -/
namespace Script

namespace Grammar

def Level.rank : Level → Nat
  | or => 2
  | and => 3
  | equality => 4
  | comparison => 5
  | term => 6
  | factor => 7

/-- What an expression is from outside, from the loosest to the tightest. -/
inductive Grade where
  | sequence
  | conditional
  | level (level : Level)
  | unary
  | call
deriving Repr, DecidableEq

def Grade.rank : Grade → Nat
  | sequence => 0
  | conditional => 1
  | level l => l.rank
  | unary => 8
  | call => 9

end Grammar

open Grammar

def LogicalOp.level : LogicalOp → Level
  | or => .or
  | and => .and

def BinaryOp.level : BinaryOp → Level
  | equal | notEqual => .equality
  | less | lessEqual | greater | greaterEqual => .comparison
  | add | subtract => .term
  | multiply | divide => .factor

def Expr.grade {β : Type} : Expr β → Grade
  | sequence _ _ => .sequence
  | ternary _ _ _ => .conditional
  | assign _ _ _ => .conditional
  | set _ _ _ => .conditional
  | logical _ op _ _ => .level op.level
  | binary _ op _ _ => .level op.level
  | unary _ _ _ => .unary
  | _ => .call

/-- The statement ends with an `if` that could still get an `else`. -/
def Stmt.endsOpen {β : Type} : Stmt β → Bool
  | if_ _ _ none => true
  | if_ _ _ (some no) => no.endsOpen
  | while_ _ body => body.endsOpen
  | _ => false

namespace Grammar

/-- An expression may stand where one of the grade is asked for. -/
def Grade.Admits (g : Grade) (e : RawExpr) : Prop := g.rank ≤ e.grade.rank

instance (g : Grade) (e : RawExpr) : Decidable (g.Admits e) :=
  inferInstanceAs (Decidable (g.rank ≤ e.grade.rank))

def keywordAt (k : Keyword) (line : Nat) : Token := ⟨.keyword k, k.spelling, line⟩

def symbolAt (s : Symbol) (line : Nat) : Token := ⟨.symbol s, s.spelling, line⟩

/-- A keyword of which the tree does not keep the line. -/
def keyword (k : Keyword) : Token := keywordAt k 0

def symbol (s : Symbol) : Token := symbolAt s 0

def nameToken (n : Name) : Token := ⟨.name, n.text, n.line⟩

def literalToken : Literal → Token
  | .nil => keyword .nil_
  | .bool true => keyword .true_
  | .bool false => keyword .false_
  | .number value => ⟨.number value, Number.written value, 0⟩
  | .string text => ⟨.string text, "\"" ++ text ++ "\"", 0⟩

def writeParams : List Name → List Token
  | [] => []
  | [n] => [nameToken n]
  | n :: more => nameToken n :: symbol .comma :: writeParams more

def writeCode (params : List Name) (body : List Token) : List Token :=
  symbol .leftParen :: (writeParams params ++
    symbol .rightParen :: symbol .leftBrace :: (body ++ [symbol .rightBrace]))

mutual

@[simp] def writeExpr : RawExpr → List Token
  | .literal value => [literalToken value]
  | .grouping inner => symbol .leftParen :: (writeExpr inner ++ [symbol .rightParen])
  | .variable name _ => [nameToken name]
  | .assign name _ value => nameToken name :: symbol .equal :: writeExpr value
  | .this line _ => [keywordAt .this_ line]
  | .unary op line operand => symbolAt op.symbol line :: writeExpr operand
  | .binary left op line right => writeExpr left ++ symbolAt op.symbol line :: writeExpr right
  | .logical left op line right => writeExpr left ++ keywordAt op.keyword line :: writeExpr right
  | .ternary condition yes no =>
    writeExpr condition ++ symbol .question :: (writeExpr yes ++ symbol .colon :: writeExpr no)
  | .sequence earlier last => writeExpr earlier ++ symbol .comma :: writeExpr last
  | .call callee parenLine arguments =>
    writeExpr callee ++ symbol .leftParen ::
      (writeArguments arguments ++ [symbolAt .rightParen parenLine])
  | .get object property => writeExpr object ++ [symbol .dot, nameToken property]
  | .set object property value =>
    writeExpr object ++ symbol .dot :: nameToken property :: symbol .equal :: writeExpr value
  | .function params body => keyword .fun_ :: writeCode params (writeStmts body)

@[simp] def writeArguments : List RawExpr → List Token
  | [] => []
  | [e] => writeExpr e
  | e :: more => writeExpr e ++ symbol .comma :: writeArguments more

@[simp] def writeStmt : RawStmt → List Token
  | .expression e => writeExpr e ++ [symbol .semicolon]
  | .print e => keyword .print_ :: (writeExpr e ++ [symbol .semicolon])
  | .var name none => [keyword .var_, nameToken name, symbol .semicolon]
  | .var name (some e) =>
    keyword .var_ :: nameToken name :: symbol .equal :: (writeExpr e ++ [symbol .semicolon])
  | .block body => symbol .leftBrace :: (writeStmts body ++ [symbol .rightBrace])
  | .step _ _ => []
  | .if_ condition yes none =>
    keyword .if_ :: symbol .leftParen ::
      (writeExpr condition ++ symbol .rightParen :: writeStmt yes)
  | .if_ condition yes (some no) =>
    keyword .if_ :: symbol .leftParen :: (writeExpr condition ++
      symbol .rightParen :: (writeStmt yes ++ keyword .else_ :: writeStmt no))
  | .while_ condition body =>
    keyword .while_ :: symbol .leftParen ::
      (writeExpr condition ++ symbol .rightParen :: writeStmt body)
  | .jump jump line => [keywordAt jump.keyword line, symbol .semicolon]
  | .function name params body =>
    keyword .fun_ :: nameToken name :: writeCode params (writeStmts body)
  | .return_ line none => [keywordAt .return_ line, symbol .semicolon]
  | .return_ line (some e) => keywordAt .return_ line :: (writeExpr e ++ [symbol .semicolon])
  | .class_ name methods =>
    keyword .class_ :: nameToken name :: symbol .leftBrace ::
      (writeMethods methods ++ [symbol .rightBrace])

@[simp] def writeStmts : List RawStmt → List Token
  | [] => []
  | s :: ss => writeStmt s ++ writeStmts ss

@[simp] def writeMethods : List RawMethod → List Token
  | [] => []
  | .mk name params body :: methods =>
    nameToken name :: (writeCode params (writeStmts body) ++ writeMethods methods)

end

mutual

/-- Every part of an expression is as tight as its place asks for. A left operand may be of the same
level as its operator, a right one has to be tighter. -/
def ProperExpr : RawExpr → Prop
  | .literal _ => True
  | .grouping inner => ProperExpr inner
  | .variable _ _ => True
  | .assign _ _ value => Grade.conditional.Admits value ∧ ProperExpr value
  | .this _ _ => True
  | .unary _ _ operand => Grade.unary.Admits operand ∧ ProperExpr operand
  | .binary left op _ right =>
    (Grade.level op.level).Admits left ∧ op.level.rank < right.grade.rank ∧
      ProperExpr left ∧ ProperExpr right
  | .logical left op _ right =>
    (Grade.level op.level).Admits left ∧ op.level.rank < right.grade.rank ∧
      ProperExpr left ∧ ProperExpr right
  | .ternary condition yes no =>
    (Grade.level .or).Admits condition ∧ Grade.conditional.Admits yes ∧
      Grade.conditional.Admits no ∧ ProperExpr condition ∧ ProperExpr yes ∧ ProperExpr no
  | .sequence earlier last =>
    Grade.conditional.Admits last ∧ ProperExpr earlier ∧ ProperExpr last
  | .call callee _ arguments =>
    Grade.call.Admits callee ∧ arguments.length ≤ maxArguments ∧ ProperExpr callee ∧
      ProperArguments arguments
  | .get object _ => Grade.call.Admits object ∧ ProperExpr object
  | .set object _ value =>
    Grade.call.Admits object ∧ Grade.conditional.Admits value ∧ ProperExpr object ∧
      ProperExpr value
  | .function params body => params.length ≤ maxArguments ∧ ProperStmts false body

def ProperArguments : List RawExpr → Prop
  | [] => True
  | e :: more => Grade.conditional.Admits e ∧ ProperExpr e ∧ ProperArguments more

/-- Declarations stand in lists only, jumps within loops only, and no `else` could be taken for that
of an inner `if`. -/
def ProperStmt (inLoop : Bool) : RawStmt → Prop
  | .expression e => ProperExpr e
  | .print e => ProperExpr e
  | .var _ none => True
  | .var _ (some e) => ProperExpr e
  | .block body => ProperStmts inLoop body
  | .step _ _ => False
  | .if_ condition yes none =>
    ProperExpr condition ∧ Lexical.declared? yes = none ∧ ProperStmt inLoop yes
  | .if_ condition yes (some no) =>
    ProperExpr condition ∧ Lexical.declared? yes = none ∧ Lexical.declared? no = none ∧
      yes.endsOpen = false ∧ ProperStmt inLoop yes ∧ ProperStmt inLoop no
  | .while_ condition body =>
    ProperExpr condition ∧ Lexical.declared? body = none ∧ ProperStmt true body
  | .jump _ _ => inLoop = true
  | .function _ params body => params.length ≤ maxArguments ∧ ProperStmts false body
  | .return_ _ none => True
  | .return_ _ (some e) => ProperExpr e
  | .class_ _ methods => ProperMethods methods

def ProperStmts (inLoop : Bool) : List RawStmt → Prop
  | [] => True
  | s :: ss => ProperStmt inLoop s ∧ ProperStmts inLoop ss

def ProperMethods : List RawMethod → Prop
  | [] => True
  | .mk _ params body :: methods =>
    params.length ≤ maxArguments ∧ ProperStmts false body ∧ ProperMethods methods

end

mutual

def decideExpr : (e : RawExpr) → Decidable (ProperExpr e)
  | .literal _ => isTrue trivial
  | .grouping inner => decideExpr inner
  | .variable _ _ => isTrue trivial
  | .assign _ _ value =>
    have := decideExpr value
    inferInstanceAs (Decidable (_ ∧ _))
  | .this _ _ => isTrue trivial
  | .unary _ _ operand =>
    have := decideExpr operand
    inferInstanceAs (Decidable (_ ∧ _))
  | .binary left _ _ right =>
    have := decideExpr left
    have := decideExpr right
    inferInstanceAs (Decidable (_ ∧ _ ∧ _ ∧ _))
  | .logical left _ _ right =>
    have := decideExpr left
    have := decideExpr right
    inferInstanceAs (Decidable (_ ∧ _ ∧ _ ∧ _))
  | .ternary condition yes no =>
    have := decideExpr condition
    have := decideExpr yes
    have := decideExpr no
    inferInstanceAs (Decidable (_ ∧ _ ∧ _ ∧ _ ∧ _ ∧ _))
  | .sequence earlier last =>
    have := decideExpr earlier
    have := decideExpr last
    inferInstanceAs (Decidable (_ ∧ _ ∧ _))
  | .call callee _ arguments =>
    have := decideExpr callee
    have := decideArguments arguments
    inferInstanceAs (Decidable (_ ∧ _ ∧ _ ∧ _))
  | .get object _ =>
    have := decideExpr object
    inferInstanceAs (Decidable (_ ∧ _))
  | .set object _ value =>
    have := decideExpr object
    have := decideExpr value
    inferInstanceAs (Decidable (_ ∧ _ ∧ _ ∧ _))
  | .function _ body =>
    have := decideStmts false body
    inferInstanceAs (Decidable (_ ∧ _))

def decideArguments : (arguments : List RawExpr) → Decidable (ProperArguments arguments)
  | [] => isTrue trivial
  | e :: more =>
    have := decideExpr e
    have := decideArguments more
    inferInstanceAs (Decidable (_ ∧ _ ∧ _))

def decideStmt (inLoop : Bool) : (s : RawStmt) → Decidable (ProperStmt inLoop s)
  | .expression e => decideExpr e
  | .print e => decideExpr e
  | .var _ none => isTrue trivial
  | .var _ (some e) => decideExpr e
  | .block body => decideStmts inLoop body
  | .step _ _ => isFalse id
  | .if_ condition yes none =>
    have := decideExpr condition
    have := decideStmt inLoop yes
    inferInstanceAs (Decidable (_ ∧ _ ∧ _))
  | .if_ condition yes (some no) =>
    have := decideExpr condition
    have := decideStmt inLoop yes
    have := decideStmt inLoop no
    inferInstanceAs (Decidable (_ ∧ _ ∧ _ ∧ _ ∧ _ ∧ _))
  | .while_ condition body =>
    have := decideExpr condition
    have := decideStmt true body
    inferInstanceAs (Decidable (_ ∧ _ ∧ _))
  | .jump _ _ => inferInstanceAs (Decidable (_ = _))
  | .function _ _ body =>
    have := decideStmts false body
    inferInstanceAs (Decidable (_ ∧ _))
  | .return_ _ none => isTrue trivial
  | .return_ _ (some e) => decideExpr e
  | .class_ _ methods => decideMethods methods

def decideStmts (inLoop : Bool) : (ss : List RawStmt) → Decidable (ProperStmts inLoop ss)
  | [] => isTrue trivial
  | s :: ss =>
    have := decideStmt inLoop s
    have := decideStmts inLoop ss
    inferInstanceAs (Decidable (_ ∧ _))

def decideMethods : (methods : List RawMethod) → Decidable (ProperMethods methods)
  | [] => isTrue trivial
  | .mk _ _ body :: methods =>
    have := decideStmts false body
    have := decideMethods methods
    inferInstanceAs (Decidable (_ ∧ _ ∧ _))

end

instance (inLoop : Bool) (ss : List RawStmt) : Decidable (ProperStmts inLoop ss) :=
  decideStmts inLoop ss

end Grammar

end Script
