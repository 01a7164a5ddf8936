import Script.Scope

/-! Binding: each use of a variable is given the scope it refers to.
The traversal is in the order of evaluation, but for an assignment to a property, where the value is
bound before the object. -/
namespace Script.Binding

/-- What is known at a place of the program, and what was found so far. -/
structure Context where
  scopes : List Scope
  enclosing : Enclosing
  inClass : Bool
  loops : Nat
  reports : List Report
  occurrences : List Occurrence
deriving Repr, DecidableEq

abbrev Binder := StateM Context

variable {α : Type}

def complain (name : Name) (complaint : Complaint) : Binder Unit :=
  modify fun s => { s with reports := s.reports ++ [⟨name.line, .atToken name.text, complaint⟩] }

def complainAt (keyword : Keyword) (line : Nat) (complaint : Complaint) : Binder Unit :=
  complain ⟨keyword.spelling, line⟩ complaint

/-- Declares a name in the innermost scope; at the top level nothing is recorded. -/
def declare (name : Name) : Binder Unit := do
  match (← get).scopes with
  | [] => pure ()
  | scope :: outer =>
    if scope.holds name.text then complain name .declaredTwice
    modify fun s => { s with scopes := scope.declare name :: outer }

/-- Marks a name of the innermost scope as defined, whatever was read of it before. -/
def define (name : Name) : Binder Unit :=
  modify fun s =>
    match s.scopes with
    | [] => s
    | scope :: outer => { s with scopes := scope.advance name.text .defined :: outer }

def declareAndDefine (name : Name) : Binder Unit := do
  declare name
  define name

/-- The site of a use. A name that no scope holds is a global. -/
def occur (use : Use) (name : Name) : Binder Site := do
  match Scope.distance? (← get).scopes name.text with
  | none => pure .global
  | some distance =>
    modify fun s =>
      { s with
        scopes := if use = .assign then s.scopes
          else s.scopes.modify distance fun scope => scope.advance name.text .read
        occurrences := s.occurrences ++ [⟨use, name, distance⟩] }
    pure (.local_ distance)

def checkInitialized (name : Name) : Binder Unit := do
  match (← get).scopes with
  | [] => pure ()
  | scope :: _ =>
    match scope.find? name.text with
    | some l => if l.progress = .declared then complain name .ownInitializer
    | none => pure ()

def inScope (first : Scope) (binding : Binder α) : Binder α := do
  modify fun s => { s with scopes := first :: s.scopes }
  let a ← binding
  modify fun s =>
    match s.scopes with
    | [] => s
    | scope :: outer => { s with scopes := outer, reports := s.reports ++ scope.unused }
  pure a

/-- Binds a function: in a scope of its own and outside the loops around it. -/
def inFunction (enclosing : Enclosing) (binding : Binder α) : Binder α := do
  let around ← get
  modify fun s => { s with enclosing := enclosing, loops := 0 }
  let a ← inScope [] binding
  modify fun s => { s with enclosing := around.enclosing, loops := around.loops }
  pure a

def inLoop (binding : Binder α) : Binder α := do
  let around ← get
  modify fun s => { s with loops := s.loops + 1 }
  let a ← binding
  modify fun s => { s with loops := around.loops }
  pure a

/-- Binds a class. Its own name belongs to the scope around it. -/
def inClass (name : Name) (binding : Binder α) : Binder α := do
  let around ← get
  modify fun s => { s with inClass := true }
  declareAndDefine name
  let a ← inScope (Scope.ofClass name) binding
  modify fun s => { s with inClass := around.inClass }
  pure a

def methodEnclosing (name : Name) : Enclosing :=
  if name.text = initializerName then .initializer else .method

mutual

def bindExpr : RawExpr → Binder BoundExpr
  | .literal value => pure (.literal value)
  | .grouping inner => do
    let inner ← bindExpr inner
    pure (.grouping inner)
  | .variable name _ => do
    checkInitialized name
    let site ← occur .variable name
    pure (.variable name site)
  | .assign name _ value => do
    let value ← bindExpr value
    let site ← occur .assign name
    pure (.assign name site value)
  | .this line _ => do
    if (← get).inClass then
      let site ← occur .this ⟨Keyword.this_.spelling, line⟩
      pure (.this line site)
    else
      complainAt .this_ line .thisOutsideClass
      pure (.this line .global)
  | .unary op line operand => do
    let operand ← bindExpr operand
    pure (.unary op line operand)
  | .binary left op line right => do
    let left ← bindExpr left
    let right ← bindExpr right
    pure (.binary left op line right)
  | .logical left op line right => do
    let left ← bindExpr left
    let right ← bindExpr right
    pure (.logical left op line right)
  | .ternary condition yes no => do
    let condition ← bindExpr condition
    let yes ← bindExpr yes
    let no ← bindExpr no
    pure (.ternary condition yes no)
  | .sequence earlier last => do
    let earlier ← bindExpr earlier
    let last ← bindExpr last
    pure (.sequence earlier last)
  | .call callee parenLine arguments => do
    let callee ← bindExpr callee
    let arguments ← bindExprs arguments
    pure (.call callee parenLine arguments)
  | .get object property => do
    let object ← bindExpr object
    pure (.get object property)
  | .set object property value => do
    let value ← bindExpr value
    let object ← bindExpr object
    pure (.set object property value)
  | .function params body => do
    let body ← inFunction .function do
      params.forM declareAndDefine
      bindStmts body
    pure (.function params body)

def bindExprs : List RawExpr → Binder (List BoundExpr)
  | [] => pure []
  | e :: es => do
    let e ← bindExpr e
    let es ← bindExprs es
    pure (e :: es)

def bindStmt : RawStmt → Binder BoundStmt
  | .expression e => do
    let e ← bindExpr e
    pure (.expression e)
  | .print e => do
    let e ← bindExpr e
    pure (.print e)
  | .var name none => do
    declareAndDefine name
    pure (.var name none)
  | .var name (some e) => do
    declare name
    let e ← bindExpr e
    define name
    pure (.var name (some e))
  | .block body => do
    let body ← inScope [] (bindStmts body)
    pure (.block body)
  | .step body increment =>
    inScope [] do
      let body ← bindStmt body
      let increment ← bindExpr increment
      pure (.step body increment)
  | .if_ condition yes none => do
    let condition ← bindExpr condition
    let yes ← bindStmt yes
    pure (.if_ condition yes none)
  | .if_ condition yes (some no) => do
    let condition ← bindExpr condition
    let yes ← bindStmt yes
    let no ← bindStmt no
    pure (.if_ condition yes (some no))
  | .while_ condition body => do
    let condition ← bindExpr condition
    let body ← inLoop (bindStmt body)
    pure (.while_ condition body)
  | .jump jump line => do
    if (← get).loops = 0 then complainAt jump.keyword line (.jumpOutsideLoop jump)
    pure (.jump jump line)
  | .function name params body => do
    declareAndDefine name
    let body ← inFunction .function do
      params.forM declareAndDefine
      bindStmts body
    pure (.function name params body)
  | .return_ line none => do
    if (← get).enclosing = .none then complainAt .return_ line .returnAtTopLevel
    pure (.return_ line none)
  | .return_ line (some e) => do
    if (← get).enclosing = .none then complainAt .return_ line .returnAtTopLevel
    if (← get).enclosing = .initializer then complainAt .return_ line .returnFromInitializer
    let e ← bindExpr e
    pure (.return_ line (some e))
  | .class_ name methods => do
    let methods ← inClass name (bindMethods methods)
    pure (.class_ name methods)

def bindStmts : List RawStmt → Binder (List BoundStmt)
  | [] => pure []
  | s :: ss => do
    let s ← bindStmt s
    let ss ← bindStmts ss
    pure (s :: ss)

def bindMethods : List RawMethod → Binder (List BoundMethod)
  | [] => pure []
  | .mk name params body :: methods => do
    let body ← inFunction (methodEnclosing name) do
      params.forM declareAndDefine
      bindStmts body
    let methods ← bindMethods methods
    pure (.mk name params body :: methods)

end

/-- A bound program with the complaints and the uses of locals, in the order they were found. -/
structure Bound where
  statements : List BoundStmt
  reports : List Report
  occurrences : List Occurrence

def bindProgram (program : List RawStmt) : Bound :=
  let (statements, s) := (bindStmts program).run ⟨[], .none, false, 0, [], []⟩
  ⟨statements, s.reports, s.occurrences⟩

end Script.Binding
