import Script.Grammar.Reader
import Script.Proofs.Lexical.Renaming

/-! Reading tokens that stand on other lines.
No reading looks at a line: on other lines it takes the same tokens and gives the same tree and the
same complaints, each with the line that stands for the one it had. -/
namespace Script

open Lexical

def Token.relined (line : Nat → Nat) (t : Token) : Token := { t with line := line t.line }

theorem relined_numbers {numbered tokens : List Token} (line : Nat → Nat)
    (numbers : ∀ i : Nat, numbered[i]? = tokens[i]?.map fun t => { t with line := i })
    (lines : ∀ i : Nat, ∀ t ∈ tokens[i]?, line i = t.line) :
    numbered.map (Token.relined line) = tokens := by
  refine List.ext_getElem? fun i => ?_
  rw [List.getElem?_map, numbers]
  cases found : tokens[i]? with
  | none => rfl
  | some t => simp only [Option.map_some, Token.relined, lines i t found]

def Report.relined (line : Nat → Nat) (r : Report) : Report := { r with line := line r.line }

namespace Grammar

variable {α β γ δ : Type}

def Reader.relined (line : Nat → Nat) (r : Reader) : Reader where
  rest := r.rest.map (Token.relined line)
  endLine := line r.endLine
  reports := r.reports.map (Report.relined line)
  loops := r.loops

def Stop.relined (line : Nat → Nat) : Stop → Stop
  | .complaint report => .complaint (report.relined line)
  | .exhausted => .exhausted

def onLines (line : Nat → Nat) (f : α → β) :
    EStateM.Result Stop Reader α → EStateM.Result Stop Reader β
  | .ok a r => .ok (f a) (r.relined line)
  | .error e r => .error (e.relined line) (r.relined line)

/-- On other lines the second reading ends as the first one does. -/
def Carries (line : Nat → Nat) (x : Reading α) (f : α → β) (y : Reading β) : Prop :=
  ∀ r, y (r.relined line) = onLines line f (x r)

theorem Reader.report_relined (line : Nat → Nat) (r : Reader) (complaint : Complaint) :
    (r.relined line).report complaint = (r.report complaint).relined line := by
  simp only [Reader.report, Reader.relined]
  cases r.rest <;> rfl

theorem Reader.leads_relined (line : Nat → Nat) (r : Reader) (kind : Kind) :
    (r.relined line).leads kind = r.leads kind := by
  simp only [Reader.leads, Reader.relined]
  cases r.rest <;> rfl

/-- What is skipped behind a complaint does not depend on lines. -/
theorem resume_relined (line : Nat → Nat) (tokens : List Token) :
    resume (tokens.map (Token.relined line)) = (resume tokens).map (Token.relined line) := by
  have after : ∀ (rest : List Token) (t : Token), resumeAfter (t.relined line)
      (rest.map (Token.relined line)) = (resumeAfter t rest).map (Token.relined line) := by
    intro rest
    induction rest with
    | nil => exact fun _ => rfl
    | cons u rest ih =>
      intro t
      have same : ((t.relined line).kind = .symbol .semicolon ∨ opensStatement (u.relined line)) ↔
          (t.kind = .symbol .semicolon ∨ opensStatement u) := Iff.rfl
      simp only [List.map_cons, resumeAfter, same]
      split
      · rfl
      · exact ih u
  cases tokens with
  | nil => rfl
  | cons t rest => exact after rest t

namespace Carries

variable {line : Nat → Nat} {f : α → β} {x : Reading α} {y : Reading β}

theorem pure (a : α) : Carries line (Pure.pure a) f (Pure.pure (f a)) := fun _ => rfl

theorem bind {g : α → Reading γ} {h : γ → δ} {k : β → Reading δ} (hx : Carries line x f y)
    (hg : ∀ a, Carries line (g a) h (k (f a))) : Carries line (x >>= g) h (y >>= k) := by
  intro r
  simp only [Bind.bind, EStateM.bind, hx r]
  cases x r with
  | ok a r => exact hg a r
  | error e r => rfl

theorem given (hx : Carries line x f y) :
    Carries line (some <$> x) (Option.map f) (some <$> y) := by
  intro r
  simp only [Functor.map, EStateM.map, hx r]
  cases x r <;> rfl

theorem exhaust : Carries line exhaust f exhaust := fun _ => rfl

theorem stop (missing : Missing) : Carries line (stop missing) f (stop missing) := by
  intro r
  simp only [Grammar.stop, Reader.report_relined]
  rfl

theorem noteHere (complaint : Complaint) :
    Carries line (noteHere complaint) (fun u => u) (noteHere complaint) := by
  intro r
  simp only [Grammar.noteHere, Reader.report_relined, onLines]
  simp only [Reader.relined, List.map_append, List.map_cons, List.map_nil]

theorem note (report : Report) :
    Carries line (note report) (fun u => u) (note (report.relined line)) := by
  intro r
  simp only [Grammar.note, onLines]
  simp only [Reader.relined, List.map_append, List.map_cons, List.map_nil]

theorem peek : Carries line peek (Option.map (Token.relined line)) peek := by
  intro r
  simp only [Grammar.peek, onLines, Reader.relined, List.head?_map]

theorem advance : Carries line advance (fun u => u) advance := by
  intro r
  simp only [Grammar.advance, onLines, Reader.relined, List.map_tail]

theorem atEnd : Carries line atEnd (fun b => b) atEnd := by
  intro r
  simp only [Grammar.atEnd, onLines, Reader.relined, List.isEmpty_map]

theorem loopsAround : Carries line loopsAround (fun n => n) loopsAround := fun _ => rfl

theorem at_ (kind : Kind) : Carries line (at_ kind) (fun b => b) (at_ kind) := by
  intro r
  simp only [Grammar.at_, Reader.leads_relined, onLines]

theorem nameFollows : Carries line nameFollows (fun b => b) nameFollows := by
  intro r
  obtain ⟨rest, endLine, reports, loops⟩ := r
  match rest with
  | [] => rfl
  | [_] => rfl
  | _ :: _ :: _ => rfl

theorem accept (kind : Kind) : Carries line (accept kind) (fun b => b) (accept kind) := by
  intro r
  simp only [Grammar.accept, Reader.leads_relined]
  split
  · simp only [onLines, Reader.relined, List.map_tail]
  · rfl

theorem acceptMeaning (meaning : Kind → Option α) : Carries line (acceptMeaning meaning)
    (Option.map fun found => (found.1, line found.2)) (acceptMeaning meaning) := by
  intro r
  obtain ⟨rest, endLine, reports, loops⟩ := r
  cases rest with
  | nil => rfl
  | cons t rest =>
    have kind : (t.relined line).kind = t.kind := rfl
    simp only [Grammar.acceptMeaning, Reader.relined, List.map_cons, kind]
    cases meaning t.kind <;> rfl

theorem expect (symbol : Symbol) (landmark : Landmark) :
    Carries line (expect symbol landmark) line (expect symbol landmark) := by
  intro r
  obtain ⟨rest, endLine, reports, loops⟩ := r
  cases rest with
  | nil => rfl
  | cons t rest =>
    have kind : (t.relined line).kind = t.kind := rfl
    simp only [Grammar.expect, Reader.relined, List.map_cons, kind]
    split <;> rfl

theorem expectName (missing : Missing) :
    Carries line (expectName missing) (Renaming.relined line).name (expectName missing) := by
  intro r
  obtain ⟨rest, endLine, reports, loops⟩ := r
  cases rest with
  | nil => rfl
  | cons t rest =>
    have kind : (t.relined line).kind = t.kind := rfl
    simp only [Grammar.expectName, Reader.relined, List.map_cons, kind]
    split <;> rfl

theorem withLoops (change : Nat → Nat) (h : Carries line x f y) :
    Carries line (withLoops change x) f (withLoops change y) := by
  intro r
  have inside := h { r with loops := change r.loops }
  have same : { r.relined line with loops := change (r.relined line).loops } =
      Reader.relined line { r with loops := change r.loops } := rfl
  simp only [Grammar.withLoops, same, inside]
  cases x { r with loops := change r.loops } <;> rfl

theorem recovering (h : Carries line x f y) :
    Carries line (recovering x) (Option.map f) (recovering y) := by
  intro r
  simp only [Grammar.recovering, h r]
  cases x r with
  | ok a r => rfl
  | error e r =>
    cases e with
    | exhausted => rfl
    | complaint report =>
      simp only [onLines, Stop.relined, Reader.relined, List.map_append, List.map_cons,
        List.map_nil, resume_relined, Option.map_none]

theorem ite {x' : Reading α} {y' : Reading β} (c : Prop) [Decidable c] (h : Carries line x f y)
    (h' : Carries line x' f y') :
    Carries line (if c then x else x') f (if c then y else y') := by
  split
  · exact h
  · exact h'

theorem unlessAt (kind : Kind) (h : Carries line x f y) :
    Carries line (unlessAt kind x) (Option.map f) (unlessAt kind y) :=
  (at_ kind).bind fun found => .ite (found = true) (.pure none) h.given

end Carries

variable (line : Nat → Nat)

abbrev exprOn : RawExpr → RawExpr := translateExpr (.relined line) fun u => u
abbrev stmtOn : RawStmt → RawStmt := translateStmt (.relined line) fun u => u
abbrev stmtsOn : List RawStmt → List RawStmt := translateStmts (.relined line) fun u => u
abbrev nameOn : Name → Name := (Renaming.relined line).name

def namedOn (code : Name × List Name × List RawStmt) : Name × List Name × List RawStmt :=
  (nameOn line code.1, code.2.1.map (nameOn line), stmtsOn line code.2.2)

structure Carrying (fuel : Nat) : Prop where
  expression : Carries line (expression fuel) (exprOn line) (expression fuel)
  sequenceTail : ∀ e, Carries line (sequenceTail fuel e) (exprOn line)
    (sequenceTail fuel (exprOn line e))
  conditional : Carries line (conditional fuel) (exprOn line) (conditional fuel)
  assignment : Carries line (assignment fuel) (exprOn line) (assignment fuel)
  operation : ∀ level, Carries line (operation fuel level) (exprOn line) (operation fuel level)
  operationTail : ∀ level e, Carries line (operationTail fuel level e) (exprOn line)
    (operationTail fuel level (exprOn line e))
  operand : ∀ level, Carries line (operand fuel level) (exprOn line) (operand fuel level)
  unary : Carries line (unary fuel) (exprOn line) (unary fuel)
  callTail : ∀ e, Carries line (callTail fuel e) (exprOn line) (callTail fuel (exprOn line e))
  argumentsFrom : ∀ count, Carries line (argumentsFrom fuel count)
    (translateExprs (.relined line) fun u => u) (argumentsFrom fuel count)
  primary : Carries line (primary fuel) (exprOn line) (primary fuel)
  blockBody : Carries line (blockBody fuel) (stmtsOn line) (blockBody fuel)
  declaration : Carries line (declaration fuel) (Option.map (stmtOn line)) (declaration fuel)
  declared : Carries line (declared fuel) (stmtOn line) (declared fuel)
  named : ∀ role, Carries line (named fuel role) (namedOn line) (named fuel role)
  methodList : Carries line (methodList fuel) (translateMethods (.relined line) fun u => u)
    (methodList fuel)
  variableDeclaration : Carries line (variableDeclaration fuel) (stmtOn line)
    (variableDeclaration fuel)
  expressionStatement : Carries line (expressionStatement fuel) (stmtOn line)
    (expressionStatement fuel)
  statement : Carries line (statement fuel) (stmtOn line) (statement fuel)
  forStatement : Carries line (forStatement fuel) (stmtOn line) (forStatement fuel)

namespace Carrying

theorem zero : Carrying line 0 where
  expression := .exhaust
  sequenceTail _ := .exhaust
  conditional := .exhaust
  assignment := .exhaust
  operation _ := .exhaust
  operationTail _ _ := .exhaust
  operand _ := .exhaust
  unary := .exhaust
  callTail _ := .exhaust
  argumentsFrom _ := .exhaust
  primary := .exhaust
  blockBody := .exhaust
  declaration := .exhaust
  declared := .exhaust
  named _ := .exhaust
  methodList := .exhaust
  variableDeclaration := .exhaust
  expressionStatement := .exhaust
  statement := .exhaust
  forStatement := .exhaust

variable {line} {fuel : Nat}

theorem expression_succ (ih : Carrying line fuel) :
    Carries line (Grammar.expression (fuel + 1)) (exprOn line) (Grammar.expression (fuel + 1)) :=
  ih.conditional.bind fun first => ih.sequenceTail first

theorem sequenceTail_succ (ih : Carrying line fuel) (e : RawExpr) :
    Carries line (Grammar.sequenceTail (fuel + 1) e) (exprOn line)
      (Grammar.sequenceTail (fuel + 1) (exprOn line e)) := by
  refine (Carries.accept _).bind fun comma => ?_
  cases comma with
  | true => exact ih.conditional.bind fun last => ih.sequenceTail (.sequence e last)
  | false => exact .pure e

theorem conditional_succ (ih : Carrying line fuel) :
    Carries line (Grammar.conditional (fuel + 1)) (exprOn line)
      (Grammar.conditional (fuel + 1)) := by
  refine ih.assignment.bind fun condition => (Carries.accept _).bind fun mark => ?_
  cases mark with
  | true =>
    exact ih.conditional.bind fun yes => (Carries.expect _ _).bind fun _ =>
      ih.conditional.bind fun no => .pure (Expr.ternary condition yes no)
  | false => exact .pure condition

theorem assignTo_carries (target value : RawExpr) (l : Nat) :
    Carries line (assignTo target l value) (exprOn line)
      (assignTo (exprOn line target) (line l) (exprOn line value)) := by
  cases target with
  | «variable» name site => exact .pure (Expr.assign name () value)
  | get object property => exact .pure (Expr.set object property value)
  | _ => exact (Carries.note _).bind fun _ => .pure _

theorem assignment_succ (ih : Carrying line fuel) :
    Carries line (Grammar.assignment (fuel + 1)) (exprOn line) (Grammar.assignment (fuel + 1)) := by
  refine (ih.operation .or).bind fun target => (Carries.acceptMeaning _).bind fun found => ?_
  cases found with
  | none => exact .pure target
  | some found => exact ih.conditional.bind fun value => assignTo_carries target value found.2

theorem operation_succ (ih : Carrying line fuel) (level : Level) :
    Carries line (Grammar.operation (fuel + 1) level) (exprOn line)
      (Grammar.operation (fuel + 1) level) :=
  (ih.operand level).bind fun left => ih.operationTail level left

theorem join_on (connective : Connective) (left right : RawExpr) (l : Nat) :
    exprOn line (connective.join left l right) =
      connective.join (exprOn line left) (line l) (exprOn line right) := by
  cases connective <;> rfl

theorem operationTail_succ (ih : Carrying line fuel) (level : Level) (left : RawExpr) :
    Carries line (Grammar.operationTail (fuel + 1) level left) (exprOn line)
      (Grammar.operationTail (fuel + 1) level (exprOn line left)) := by
  refine (Carries.acceptMeaning _).bind fun found => ?_
  cases found with
  | none => exact .pure left
  | some found =>
    refine (ih.operand level).bind fun right => ?_
    have tail := ih.operationTail level (found.1.join left found.2 right)
    rwa [join_on] at tail

theorem operand_succ (ih : Carrying line fuel) (level : Level) :
    Carries line (Grammar.operand (fuel + 1) level) (exprOn line)
      (Grammar.operand (fuel + 1) level) := by
  cases level with
  | factor => exact ih.unary
  | or => exact ih.operation .and
  | and => exact ih.operation .equality
  | equality => exact ih.operation .comparison
  | comparison => exact ih.operation .term
  | term => exact ih.operation .factor

theorem unary_succ (ih : Carrying line fuel) :
    Carries line (Grammar.unary (fuel + 1)) (exprOn line) (Grammar.unary (fuel + 1)) := by
  refine (Carries.acceptMeaning _).bind fun found => ?_
  cases found with
  | none => exact ih.primary.bind fun head => ih.callTail head
  | some found => exact ih.unary.bind fun inner => .pure (Expr.unary found.1 found.2 inner)

theorem callTail_succ (ih : Carrying line fuel) (head : RawExpr) :
    Carries line (Grammar.callTail (fuel + 1) head) (exprOn line)
      (Grammar.callTail (fuel + 1) (exprOn line head)) := by
  refine (Carries.accept _).bind fun paren => ?_
  cases paren with
  | true =>
    refine ((ih.argumentsFrom 0).unlessAt _).bind fun arguments =>
      (Carries.expect _ _).bind fun l => ?_
    cases arguments with
    | none => exact ih.callTail (.call head l [])
    | some arguments => exact ih.callTail (.call head l arguments)
  | false =>
    refine (Carries.accept _).bind fun dot => ?_
    cases dot with
    | true => exact (Carries.expectName _).bind fun property => ih.callTail (.get head property)
    | false => exact .pure head

theorem noteIf_carries {f : α → β} {x : Reading α} {y : Reading β} (c : Prop) [Decidable c]
    (complaint : Complaint) (h : Carries line x f y) :
    Carries line (if c then noteHere complaint >>= fun _ => x else x) f
      (if c then noteHere complaint >>= fun _ => y else y) :=
  .ite c ((Carries.noteHere complaint).bind fun _ => h) h

theorem argumentsFrom_succ (ih : Carrying line fuel) (count : Nat) :
    Carries line (Grammar.argumentsFrom (fuel + 1) count)
      (translateExprs (.relined line) fun u => u) (Grammar.argumentsFrom (fuel + 1) count) := by
  refine noteIf_carries _ _ (ih.conditional.bind fun argument =>
    (Carries.accept _).bind fun comma => ?_)
  cases comma with
  | true => exact (ih.argumentsFrom (count + 1)).bind fun more => .pure (argument :: more)
  | false => exact .pure [argument]

theorem parametersFrom_carries (fuel count : Nat) :
    Carries line (parametersFrom fuel count) (List.map (nameOn line))
      (parametersFrom fuel count) := by
  induction fuel generalizing count with
  | zero => exact .exhaust
  | succ fuel ih =>
    refine noteIf_carries _ _ ((Carries.expectName _).bind fun param =>
      (Carries.accept _).bind fun comma => ?_)
    cases comma with
    | true => exact (ih (count + 1)).bind fun more => .pure (param :: more)
    | false => exact .pure [param]

theorem parameters_carries (fuel : Nat) (role : Role) :
    Carries line (parameters fuel role) (List.map (nameOn line)) (parameters fuel role) := by
  refine ((parametersFrom_carries fuel 0).unlessAt _).bind fun params =>
    (Carries.expect _ _).bind fun _ => (Carries.expect _ _).bind fun _ => ?_
  cases params with
  | none => exact .pure []
  | some params => exact .pure params

theorem primary_succ (ih : Carrying line fuel) :
    Carries line (Grammar.primary (fuel + 1)) (exprOn line) (Grammar.primary (fuel + 1)) := by
  refine Carries.peek.bind fun next => ?_
  cases next with
  | none => exact .stop _
  | some t =>
    have kind : (t.relined line).kind = t.kind := rfl
    simp only [Option.map_some, kind]
    split
    · exact Carries.advance.bind fun _ => .pure (Expr.literal (.bool false))
    · exact Carries.advance.bind fun _ => .pure (Expr.literal (.bool true))
    · exact Carries.advance.bind fun _ => .pure (Expr.literal .nil)
    · exact Carries.advance.bind fun _ => .pure (Expr.literal (.number _))
    · exact Carries.advance.bind fun _ => .pure (Expr.literal (.string _))
    · exact Carries.advance.bind fun _ => .pure (Expr.this t.line ())
    · exact Carries.advance.bind fun _ => .pure (Expr.variable ⟨t.lexeme, t.line⟩ ())
    · exact Carries.advance.bind fun _ => ih.expression.bind fun inner =>
        (Carries.expect _ _).bind fun _ => .pure (Expr.grouping inner)
    · exact Carries.advance.bind fun _ => (Carries.expect _ _).bind fun _ =>
        (parameters_carries fuel _).bind fun params => (ih.blockBody.withLoops _).bind fun body =>
          .pure (Expr.function params body)
    · exact .stop _

theorem stmtsOn_append (first : Option RawStmt) (more : List RawStmt) :
    stmtsOn line (first.toList ++ more) =
      (first.map (stmtOn line)).toList ++ stmtsOn line more := by
  cases first <;> rfl

theorem blockBody_succ (ih : Carrying line fuel) :
    Carries line (Grammar.blockBody (fuel + 1)) (stmtsOn line) (Grammar.blockBody (fuel + 1)) := by
  refine Carries.atEnd.bind fun ended => (Carries.at_ _).bind fun brace => ?_
  cases ended || brace with
  | true => exact (Carries.expect _ _).bind fun _ => .pure []
  | false =>
    refine ih.declaration.bind fun first => ih.blockBody.bind fun more => ?_
    rw [← stmtsOn_append]
    exact .pure (first.toList ++ more)

theorem named_succ (ih : Carrying line fuel) (role : Role) :
    Carries line (Grammar.named (fuel + 1) role) (namedOn line) (Grammar.named (fuel + 1) role) :=
  (Carries.expectName _).bind fun name => (Carries.expect _ _).bind fun _ =>
    (parameters_carries fuel role).bind fun params => (ih.blockBody.withLoops _).bind fun body =>
      .pure (name, params, body)

theorem methodList_succ (ih : Carrying line fuel) :
    Carries line (Grammar.methodList (fuel + 1)) (translateMethods (.relined line) fun u => u)
      (Grammar.methodList (fuel + 1)) := by
  refine Carries.atEnd.bind fun ended => (Carries.at_ _).bind fun brace => ?_
  cases ended || brace with
  | true => exact .pure []
  | false =>
    exact (ih.named .method).bind fun code => ih.methodList.bind fun more =>
      .pure (Method.mk code.1 code.2.1 code.2.2 :: more)

theorem variableDeclaration_succ (ih : Carrying line fuel) :
    Carries line (Grammar.variableDeclaration (fuel + 1)) (stmtOn line)
      (Grammar.variableDeclaration (fuel + 1)) := by
  refine Carries.advance.bind fun _ => (Carries.expectName _).bind fun name =>
    (Carries.accept _).bind fun equal => ?_
  cases equal with
  | true =>
    refine ih.expression.given.bind fun value => (Carries.expect _ _).bind fun _ => ?_
    cases value with
    | none => exact .pure (Stmt.var name none)
    | some e => exact .pure (Stmt.var name (some e))
  | false => exact (Carries.expect _ _).bind fun _ => .pure (Stmt.var name none)

theorem declared_succ (ih : Carrying line fuel) :
    Carries line (Grammar.declared (fuel + 1)) (stmtOn line) (Grammar.declared (fuel + 1)) := by
  refine (Carries.accept _).bind fun isClass => ?_
  cases isClass with
  | true =>
    exact (Carries.expectName _).bind fun name => (Carries.expect _ _).bind fun _ =>
      ih.methodList.bind fun methods => (Carries.expect _ _).bind fun _ =>
        .pure (Stmt.class_ name methods)
  | false =>
    refine (Carries.at_ _).bind fun isFunction => Carries.nameFollows.bind fun named => ?_
    cases isFunction && named with
    | true =>
      exact Carries.advance.bind fun _ => (ih.named .function).bind fun code =>
        .pure (Stmt.function code.1 code.2.1 code.2.2)
    | false =>
      exact (Carries.at_ _).bind fun isVar =>
        .ite (isVar = true) ih.variableDeclaration ih.statement

theorem expressionStatement_succ (ih : Carrying line fuel) :
    Carries line (Grammar.expressionStatement (fuel + 1)) (stmtOn line)
      (Grammar.expressionStatement (fuel + 1)) :=
  ih.expression.bind fun e => (Carries.expect _ _).bind fun _ => .pure (Stmt.expression e)

theorem jumpStatement_carries (jump : Jump) (l : Nat) :
    Carries line (jumpStatement jump l) (stmtOn line) (jumpStatement jump (line l)) := by
  have ending : Carries line (expect .semicolon (.afterKeyword jump.keyword) >>= fun _ =>
      pure (Stmt.jump jump l)) (stmtOn line) (expect .semicolon (.afterKeyword jump.keyword) >>=
        fun _ => pure (Stmt.jump jump (line l))) :=
    (Carries.expect _ _).bind fun _ => .pure (Stmt.jump jump l)
  refine Carries.loopsAround.bind fun loops => ?_
  exact .ite (loops = 0) ((Carries.note _).bind fun _ => ending) ending

theorem forLoop_on (initial : Option RawStmt) (condition increment : Option RawExpr)
    (body : RawStmt) : stmtOn line (.forLoop initial condition increment body) =
      .forLoop (initial.map (stmtOn line)) (condition.map (exprOn line))
        (increment.map (exprOn line)) (stmtOn line body) := by
  cases initial <;> cases condition <;> cases increment <;> rfl

theorem forStatement_succ (ih : Carrying line fuel) :
    Carries line (Grammar.forStatement (fuel + 1)) (stmtOn line)
      (Grammar.forStatement (fuel + 1)) := by
  have rest : ∀ initial : Option RawStmt, Carries line
      (do
        let condition ← unlessAt (.symbol .semicolon) (Grammar.expression fuel)
        let _ ← expect .semicolon .afterLoopCondition
        let increment ← unlessAt (.symbol .rightParen) (Grammar.expression fuel)
        let _ ← expect .rightParen .afterForClauses
        let body ← insideLoop (Grammar.statement fuel)
        pure (.forLoop initial condition increment body)) (stmtOn line)
      (do
        let condition ← unlessAt (.symbol .semicolon) (Grammar.expression fuel)
        let _ ← expect .semicolon .afterLoopCondition
        let increment ← unlessAt (.symbol .rightParen) (Grammar.expression fuel)
        let _ ← expect .rightParen .afterForClauses
        let body ← insideLoop (Grammar.statement fuel)
        pure (.forLoop (initial.map (stmtOn line)) condition increment body)) := by
    intro initial
    refine (ih.expression.unlessAt _).bind fun condition => (Carries.expect _ _).bind fun _ =>
      (ih.expression.unlessAt _).bind fun increment => (Carries.expect _ _).bind fun _ =>
        (ih.statement.withLoops _).bind fun body => ?_
    rw [← forLoop_on]
    exact .pure _
  refine (Carries.expect _ _).bind fun _ => (Carries.accept _).bind fun empty => ?_
  cases empty with
  | true => exact rest none
  | false =>
    refine (Carries.at_ _).bind fun isVar => ?_
    cases isVar with
    | true => exact ih.variableDeclaration.given.bind rest
    | false => exact ih.expressionStatement.given.bind rest

theorem statement_succ (ih : Carrying line fuel) :
    Carries line (Grammar.statement (fuel + 1)) (stmtOn line) (Grammar.statement (fuel + 1)) := by
  refine Carries.peek.bind fun next => ?_
  cases next with
  | none => exact ih.expressionStatement
  | some t =>
    have kind : (t.relined line).kind = t.kind := rfl
    simp only [Option.map_some, kind]
    split
    · exact Carries.advance.bind fun _ => ih.expression.bind fun e =>
        (Carries.expect _ _).bind fun _ => .pure (Stmt.print e)
    · exact Carries.advance.bind fun _ => ih.forStatement
    · refine Carries.advance.bind fun _ => (Carries.expect _ _).bind fun _ =>
        ih.expression.bind fun condition => (Carries.expect _ _).bind fun _ =>
          ih.statement.bind fun yes => (Carries.accept _).bind fun hasElse => ?_
      cases hasElse with
      | true =>
        refine ih.statement.given.bind fun no => ?_
        cases no with
        | none => exact .pure (Stmt.if_ condition yes none)
        | some no => exact .pure (Stmt.if_ condition yes (some no))
      | false => exact .pure (Stmt.if_ condition yes none)
    · refine Carries.advance.bind fun _ => (ih.expression.unlessAt _).bind fun value =>
        (Carries.expect _ _).bind fun _ => ?_
      cases value with
      | none => exact .pure (Stmt.return_ t.line none)
      | some e => exact .pure (Stmt.return_ t.line (some e))
    · exact Carries.advance.bind fun _ => (Carries.expect _ _).bind fun _ =>
        ih.expression.bind fun condition => (Carries.expect _ _).bind fun _ =>
          (ih.statement.withLoops _).bind fun body => .pure (Stmt.while_ condition body)
    · exact Carries.advance.bind fun _ => jumpStatement_carries _ t.line
    · exact Carries.advance.bind fun _ => jumpStatement_carries _ t.line
    · exact Carries.advance.bind fun _ => ih.blockBody.bind fun body => .pure (Stmt.block body)
    · exact ih.expressionStatement

theorem all (line : Nat → Nat) (fuel : Nat) : Carrying line fuel := by
  induction fuel with
  | zero => exact zero line
  | succ fuel ih =>
    exact
      { expression := expression_succ ih
        sequenceTail := sequenceTail_succ ih
        conditional := conditional_succ ih
        assignment := assignment_succ ih
        operation := operation_succ ih
        operationTail := operationTail_succ ih
        operand := operand_succ ih
        unary := unary_succ ih
        callTail := callTail_succ ih
        argumentsFrom := argumentsFrom_succ ih
        primary := primary_succ ih
        blockBody := blockBody_succ ih
        declaration := ih.declared.recovering
        declared := declared_succ ih
        named := named_succ ih
        methodList := methodList_succ ih
        variableDeclaration := variableDeclaration_succ ih
        expressionStatement := expressionStatement_succ ih
        statement := statement_succ ih
        forStatement := forStatement_succ ih }

end Carrying

theorem declarations_carries (fuel : Nat) :
    Carries line (declarations fuel) (stmtsOn line) (declarations fuel) := by
  induction fuel with
  | zero => exact .exhaust
  | succ fuel ih =>
    refine Carries.atEnd.bind fun ended => ?_
    cases ended with
    | true => exact .pure []
    | false =>
      refine (Carrying.all line fuel).declaration.bind fun first => ih.bind fun more => ?_
      rw [← Carrying.stmtsOn_append]
      exact .pure (first.toList ++ more)

def Result.relined (result : Result) : Result :=
  ⟨stmtsOn line result.statements, result.reports.map (Report.relined line)⟩

theorem readProgram_lines (tokens : List Token) (endLine : Nat) :
    readProgram (tokens.map (Token.relined line)) (line endLine) =
      (readProgram tokens endLine).relined line := by
  have read := declarations_carries line (fuelFor tokens) ⟨tokens, endLine, [], 0⟩
  have fuel : fuelFor (tokens.map (Token.relined line)) = fuelFor tokens := by
    rw [fuelFor, fuelFor, List.length_map]
  simp only [Reader.relined, List.map_nil] at read
  simp only [readProgram, fuel, read]
  cases declarations (fuelFor tokens) ⟨tokens, endLine, [], 0⟩ <;> rfl

end Grammar

end Script
