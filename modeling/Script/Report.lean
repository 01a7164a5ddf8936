import Script.Token

/-! What is found wrong with a source before it runs.
A report is a cause with a line and a place. The wording of every cause is here and nowhere else. -/
namespace Script

inductive Jump where
  | break_ | continue_
deriving Repr, DecidableEq

def Jump.keyword : Jump → Keyword
  | break_ => .break_
  | continue_ => .continue_

/-- A function of a class is a method; any other is a plain function. -/
inductive Role where
  | function | method
deriving Repr, DecidableEq

def Role.noun : Role → String
  | function => "function"
  | method => "method"

/-- Where in its construct a missing symbol was expected. -/
inductive Landmark where
  | beforeClassBody
  | afterClassBody
  | afterRoleName (role : Role)
  | afterParameters
  | beforeRoleBody (role : Role)
  | afterVariable
  | afterBlock
  | afterValue
  | afterExpression
  | afterKeyword (keyword : Keyword)
  | afterIfCondition
  | afterCondition
  | afterLoopCondition
  | afterForClauses
  | afterReturnValue
  | afterThenBranch
  | afterArguments
deriving Repr, DecidableEq

def Landmark.phrase : Landmark → String
  | beforeClassBody => "before class body"
  | afterClassBody => "after class body"
  | afterRoleName role => "after " ++ role.noun ++ " name"
  | afterParameters => "after parameters"
  | beforeRoleBody role => "before " ++ role.noun ++ " body"
  | afterVariable => "after variable declaration"
  | afterBlock => "after block"
  | afterValue => "after value"
  | afterExpression => "after expression"
  | afterKeyword keyword => "after '" ++ keyword.spelling ++ "'"
  | afterIfCondition => "after if condition"
  | afterCondition => "after condition"
  | afterLoopCondition => "after loop condition"
  | afterForClauses => "after for clauses"
  | afterReturnValue => "after return value"
  | afterThenBranch => "after then branch of conditional expression"
  | afterArguments => "after arguments"

/-- What the grammar asked for and did not find. -/
inductive Missing where
  | symbol (symbol : Symbol) (landmark : Landmark)
  | className
  | roleName (role : Role)
  | parameterName
  | variableName
  | propertyName
  | expression
deriving Repr, DecidableEq

def Missing.phrase : Missing → String
  | symbol s landmark => "'" ++ s.spelling ++ "' " ++ landmark.phrase
  | className => "class name"
  | roleName role => role.noun ++ " name"
  | parameterName => "parameter name"
  | variableName => "variable name"
  | propertyName => "property name after '.'"
  | expression => "expression"

def maxArguments : Nat := 255

inductive Complaint where
  -- about the characters
  | unexpectedCharacter
  | unterminatedString
  | unterminatedComment
  -- about the grammar
  | expected (missing : Missing)
  | tooManyParameters
  | tooManyArguments
  | assignmentTarget
  | strayJump (jump : Jump)
  -- about scopes
  | declaredTwice
  | unused
  | ownInitializer
  | jumpOutsideLoop (jump : Jump)
  | returnAtTopLevel
  | returnFromInitializer
  | thisOutsideClass
deriving Repr, DecidableEq

def Complaint.message : Complaint → String
  | unexpectedCharacter => "Unexpected character."
  | unterminatedString => "Unterminated string."
  | unterminatedComment => "Unterminated block comment."
  | expected missing => "Expect " ++ missing.phrase ++ "."
  | tooManyParameters => "Can't have more than " ++ toString maxArguments ++ " parameters."
  | tooManyArguments => "Can't have more than " ++ toString maxArguments ++ " arguments."
  | assignmentTarget => "Invalid assignment target."
  | strayJump jump => "Must be inside a loop to use '" ++ jump.keyword.spelling ++ "'."
  | declaredTwice => "Already a variable with this name in this scope."
  | unused => "Local variable is not used."
  | ownInitializer => "Can't read local variable in its own initializer."
  | jumpOutsideLoop jump => "Can't use '" ++ jump.keyword.spelling ++ "' outside of a loop."
  | returnAtTopLevel => "Can't return from top-level code."
  | returnFromInitializer => "Can't return a value from an initializer."
  | thisOutsideClass => "Can't use 'this' outside of a class."

/-- A complaint about characters names no place; any other is at a token or at the end. -/
inductive Place where
  | unnamed
  | atEnd
  | atToken (lexeme : String)
deriving Repr, DecidableEq

def Place.text : Place → String
  | unnamed => ""
  | atEnd => " at end"
  | atToken lexeme => " at '" ++ lexeme ++ "'"

structure Report where
  line : Nat
  place : Place
  complaint : Complaint
deriving Repr, DecidableEq

namespace Report

def text (r : Report) : String :=
  "[line " ++ toString r.line ++ "] Error" ++ r.place.text ++ ": " ++ r.complaint.message

def insertByLine (r : Report) : List Report → List Report
  | [] => [r]
  | s :: rest => if r.line ≤ s.line then r :: s :: rest else s :: insertByLine r rest

/-- Reports in line order; those of one line keep their order. -/
def byLine : List Report → List Report
  | [] => []
  | r :: rest => insertByLine r (byLine rest)

def merge (found more : List Report) : List Report := byLine (found ++ more)

end Report

end Script
