import Script.Proofs.Grammar.Accepted
import Script.Proofs.Grammar.Closing

/-! The first complaint that stops a reading is made as early as it can be.
By induction over the fuel, for all the readings of the grammar at once: one that is not stopped
reads the same before whatever may stand behind it, and one that is stopped could have been closed
from where it was stopped. -/
namespace Script.Grammar

open Filter

/-- How the readings of some fuel end. -/
structure Viables (fuel : Nat) : Prop where
  expression : Viable Anywhere OpensFunction 1 Closes fuel expression
  sequenceTail : ∀ e, Viable Anywhere never 0 Closes fuel fun m => sequenceTail m e
  conditional : Viable Anywhere OpensFunction 1 Closes fuel conditional
  assignment : Viable Anywhere OpensFunction 1 Closes fuel assignment
  operation : ∀ level, Viable Anywhere OpensFunction 1 Closes fuel fun m => operation m level
  operationTail : ∀ level e, Viable Anywhere never 0 Closes fuel fun m => operationTail m level e
  operand : ∀ level, Viable Anywhere OpensFunction 1 Closes fuel fun m => operand m level
  unary : Viable Anywhere OpensFunction 1 Closes fuel unary
  callTail : ∀ e, Viable Anywhere never 0 Closes fuel fun m => callTail m e
  argumentsFrom : ∀ count, Viable Anywhere never 1 Closes fuel fun m => argumentsFrom m count
  primary : Viable Anywhere OpensFunction 1 anything fuel primary
  blockBody : Viable Anywhere never 1 anything fuel blockBody
  declaration : Viable Anywhere never 2 NoElse fuel declaration
  declared : Viable Anywhere never 2 NoElse fuel declared
  named : ∀ role, Viable Anywhere (· = .name) 2 anything fuel fun m => named m role
  methodList : Viable Anywhere never 0 (· = some (.symbol .rightBrace)) fuel methodList
  variableDeclaration : Viable (ahead · = some (.keyword .var_)) OpensFunction 2 anything fuel
    variableDeclaration
  expressionStatement : Viable Anywhere OpensFunction 2 anything fuel expressionStatement
  statement : Viable Anywhere OpensFunction 2 NoElse fuel statement
  forStatement : Viable Anywhere never 1 NoElse fuel forStatement

namespace Viables

variable {fuel : Nat}

theorem zero : Viables 0 where
  expression := .exhaust (fun m => (steadies m).expression) fun _ => rfl
  sequenceTail e := .exhaust (fun m => (steadies m).sequenceTail e) fun _ => rfl
  conditional := .exhaust (fun m => (steadies m).conditional) fun _ => rfl
  assignment := .exhaust (fun m => (steadies m).assignment) fun _ => rfl
  operation level := .exhaust (fun m => (steadies m).operation level) fun _ => rfl
  operationTail level e := .exhaust (fun m => (steadies m).operationTail level e) fun _ => rfl
  operand level := .exhaust (fun m => (steadies m).operand level) fun _ => rfl
  unary := .exhaust (fun m => (steadies m).unary) fun _ => rfl
  callTail e := .exhaust (fun m => (steadies m).callTail e) fun _ => rfl
  argumentsFrom count := .exhaust (fun m => (steadies m).argumentsFrom count) fun _ => rfl
  primary := .exhaust (fun m => (steadies m).primary) fun _ => rfl
  blockBody := .exhaust (fun m => (steadies m).blockBody) fun _ => rfl
  declaration := .exhaust (fun m => (steadies m).declaration) fun _ => rfl
  declared := .exhaust (fun m => (steadies m).declared) fun _ => rfl
  named role := .exhaust (fun m => (steadies m).named role) fun _ => rfl
  methodList := .exhaust (fun m => (steadies m).methodList) fun _ => rfl
  variableDeclaration := .exhaust (fun m => (steadies m).variableDeclaration) fun _ => rfl
  expressionStatement := .exhaust (fun m => (steadies m).expressionStatement) fun _ => rfl
  statement := .exhaust (fun m => (steadies m).statement) fun _ => rfl
  forStatement := .exhaust (fun m => (steadies m).forStatement) fun _ => rfl

variable (h : Viables fuel)
include h

theorem expression_sure : Sure anything 1 Closes fuel Grammar.expression :=
  h.expression.sure expression_closable (.inl (Nat.le_refl 1))

theorem conditional_sure : Sure anything 1 Closes fuel Grammar.conditional :=
  h.conditional.sure conditional_closable (.inl (Nat.le_refl 1))

theorem operand_sure (level : Level) :
    Sure anything 1 Closes fuel fun m => Grammar.operand m level :=
  (h.operand level).sure (operand_closable level) (.inl (Nat.le_refl 1))

theorem unary_sure : Sure anything 1 Closes fuel Grammar.unary :=
  h.unary.sure unary_closable (.inl (Nat.le_refl 1))

theorem sequenceTail_sure (e : RawExpr) :
    Sure Closes 0 Closes fuel fun m => Grammar.sequenceTail m e :=
  (h.sequenceTail e).sure (sequenceTail_closable e) (.inr fun _ => id)

theorem operationTail_sure (level : Level) (e : RawExpr) :
    Sure Closes 0 Closes fuel fun m => Grammar.operationTail m level e :=
  (h.operationTail level e).sure (operationTail_closable level e) (.inr fun _ => id)

theorem callTail_sure (e : RawExpr) : Sure anything 0 Closes fuel fun m => Grammar.callTail m e :=
  ((h.callTail e).sure (callTail_closable e) (.inr fun _ => id)).anywhere

theorem argumentsFrom_sure (count : Nat) :
    Sure anything 1 Closes fuel fun m => Grammar.argumentsFrom m count :=
  (h.argumentsFrom count).sure (argumentsFrom_closable count) (.inl (Nat.le_refl 1))

theorem blockBody_sure :
    Sure (· = some (.symbol .rightBrace)) 1 anything fuel Grammar.blockBody :=
  h.blockBody.sure blockBody_closable (.inl (Nat.le_refl 1))

theorem methodList_sure : Sure (· = some (.symbol .rightBrace)) 0
    (· = some (.symbol .rightBrace)) fuel Grammar.methodList :=
  h.methodList.sure methodList_closable (.inr fun _ => id)

theorem statement_sure : Sure anything 2 NoElse fuel Grammar.statement :=
  h.statement.sure statement_closable (.inl (by decide))

theorem forStatement_sure : Sure anything 1 NoElse fuel Grammar.forStatement :=
  h.forStatement.sure forStatement_closable (.inl (Nat.le_refl 1))

end Viables

variable {fuel : Nat}

theorem expression_viable (ih : Viables fuel) :
    Viable Anywhere OpensFunction 1 Closes (fuel + 1) expression :=
  .succ (fun m => (steadies m).expression) <|
    ih.conditional.bind (fun first => ih.sequenceTail_sure first) (by omega)

theorem sequenceTail_viable (ih : Viables fuel) (earlier : RawExpr) :
    Viable Anywhere never 0 Closes (fuel + 1) fun m => sequenceTail m earlier := by
  refine .succ (fun m => (steadies m).sequenceTail earlier) ?_
  refine .accept_bind (m := 1) (l := 0) ?_ .pure (by omega)
    (.inr fun _ h => h.not_symbol (by decide))
  exact ih.conditional_sure.bind (fun last => (ih.sequenceTail_sure (.sequence earlier last))) rfl

theorem conditional_viable (ih : Viables fuel) :
    Viable Anywhere OpensFunction 1 Closes (fuel + 1) conditional := by
  refine .succ (fun m => (steadies m).conditional)
    (ih.assignment.bind (l := 0) (fun condition => ?_) (by omega))
  refine .accept_bind (m := 3) ?_ .pure (by omega) fun _ h => h.not_symbol (by decide)
  exact ih.conditional_sure.bind (fun yes => .bind (.expect (.inr (.inr rfl))) (fun _ =>
    ih.conditional_sure.bind (fun no => .pure) rfl) rfl) rfl

theorem assignTo_sure (target : RawExpr) (equalLine : Nat) (value : RawExpr) :
    Sure Closes 0 Closes fuel fun _ => assignTo target equalLine value := by
  have noted : Sure Closes 0 Closes fuel fun _ => (do
      note ⟨equalLine, .atToken Symbol.equal.spelling, .assignmentTarget⟩
      pure target : Reading RawExpr) :=
    Sure.pure.noting (fun _ => (Steady.notes (notesOnly_report rfl)).bind fun _ => .pure _)
      fun _ r => ⟨_, stops_noted rfl r.reports, rfl⟩
  cases target with
  | «variable» name site => exact .pure
  | get object property => exact .pure
  | _ => exact noted

theorem assignment_viable (ih : Viables fuel) :
    Viable Anywhere OpensFunction 1 Closes (fuel + 1) assignment := by
  refine .succ (fun m => (steadies m).assignment)
    ((ih.operation .or).bind (l := 0) (fun target => ?_) (by omega))
  refine .acceptMeaning_bind (m := 1) (fun _ line => ?_) .pure (by omega) fun next h kind hk => ?_
  · exact ih.conditional_sure.bind (fun value => assignTo_sure target line value) rfl
  · refine if_neg fun same => h.not_symbol (s := .equal) (by decide) ?_
    rw [Option.mem_def.mp hk, same]

theorem operation_viable (ih : Viables fuel) (level : Level) :
    Viable Anywhere OpensFunction 1 Closes (fuel + 1) fun m => operation m level :=
  .succ (fun m => (steadies m).operation level) <|
    (ih.operand level).bind (fun left => ih.operationTail_sure level left) (by omega)

theorem operationTail_viable (ih : Viables fuel) (level : Level) (left : RawExpr) :
    Viable Anywhere never 0 Closes (fuel + 1) fun m => operationTail m level left := by
  refine .succ (fun m => (steadies m).operationTail level left) ?_
  refine .acceptMeaning_bind (m := 1) (l := 0) (fun connective line => ?_) .pure (by omega)
    (.inr fun _ h => h.not_connective level)
  exact (ih.operand_sure level).bind
    (fun right => ih.operationTail_sure level (connective.join left line right)) rfl

theorem operand_viable (ih : Viables fuel) (level : Level) :
    Viable Anywhere OpensFunction 1 Closes (fuel + 1) fun m => operand m level := by
  refine .succ (fun m => (steadies m).operand level) ?_
  cases level with
  | factor => exact ih.unary
  | or => exact ih.operation .and
  | and => exact ih.operation .equality
  | equality => exact ih.operation .comparison
  | comparison => exact ih.operation .term
  | term => exact ih.operation .factor

theorem unary_viable (ih : Viables fuel) :
    Viable Anywhere OpensFunction 1 Closes (fuel + 1) unary := by
  refine .succ (fun m => (steadies m).unary) ?_
  refine .acceptMeaning_bind (m := 1) (l := 1) (fun op line => ?_) ?_ (by omega)
    (.inl (Nat.le_refl 1))
  · exact ih.unary_sure.bind (fun inner => .pure) rfl
  · exact ih.primary.bind (fun head => ih.callTail_sure head) (by omega)

theorem callTail_viable (ih : Viables fuel) (head : RawExpr) :
    Viable Anywhere never 0 Closes (fuel + 1) fun m => callTail m head := by
  refine .succ (fun m => (steadies m).callTail head) ?_
  have arguments : Sure anything 0 (· = some (.symbol .rightParen)) fuel
      fun m => unlessAt (.symbol .rightParen) (argumentsFrom m 0) :=
    .unlessAt (ih.argumentsFrom 0) (Nat.le_refl 1) (.inr (.inl rfl))
  refine .accept_bind (m := 1) (l := 0) ?_ (.accept_bind (m := 1) (l := 0) ?_ .pure (by omega)
    (.inr fun _ h => h.not_symbol (by decide))) (by omega)
    (.inr fun _ h => h.not_symbol (by decide))
  · exact arguments.bind (fun found => .bind (.expect rfl) (fun line => ih.callTail_sure _) rfl) rfl
  · exact Sure.expectName.bind (fun property => ih.callTail_sure _) rfl

theorem argumentsFrom_viable (ih : Viables fuel) (count : Nat) :
    Viable Anywhere never 1 Closes (fuel + 1) fun m => argumentsFrom m count := by
  refine .succ (fun m => (steadies m).argumentsFrom count) (.noteIf (notesOnly_here nofun) ?_)
  refine ih.conditional_sure.viable.bind (l := 0) (fun argument => ?_) (by omega)
  refine .accept_bind (m := 1) ?_ .pure (by omega) fun _ h => h.not_symbol (by decide)
  exact (ih.argumentsFrom_sure (count + 1)).bind (fun more => .pure) rfl

theorem parametersFrom_viable (fuel count : Nat) :
    Viable Anywhere never 1 Closes fuel fun m => parametersFrom m count := by
  induction fuel generalizing count with
  | zero => exact .exhaust (fun m => parametersFrom_steady m count) fun _ => rfl
  | succ fuel ih =>
    refine .succ (fun m => parametersFrom_steady m count) (.noteIf (notesOnly_here nofun) ?_)
    have first : Viable Anywhere never 1 Closes fuel fun _ => expectName .parameterName :=
      Viable.expectName.unasked.ends
    refine first.bind (l := 0) (fun param => ?_) (by omega)
    refine .accept_bind (m := 1) ?_ .pure (by omega) fun _ h => h.not_symbol (by decide)
    exact ((ih (count + 1)).sure (parametersFrom_closable (count + 1))
      (.inl (Nat.le_refl 1))).bind (fun more => .pure) rfl

theorem parameters_sure (role : Role) :
    Sure anything 2 anything fuel fun m => parameters m role := by
  have names : Sure anything 0 (· = some (.symbol .rightParen)) fuel
      fun m => unlessAt (.symbol .rightParen) (parametersFrom m 0) :=
    .unlessAt (parametersFrom_viable fuel 0) (Nat.le_refl 1) (.inr (.inl rfl))
  exact names.bind (fun _ => .bind (.expect rfl) (fun _ =>
    .bind (.expect trivial) (fun _ => .pure) rfl) rfl) rfl

theorem code_sure {α : Type} (ih : Viables fuel) (role : Role)
    (f : List Name → List RawStmt → α) : Sure anything 3 anything fuel fun m => (do
      let params ← parameters m role
      let body ← outsideLoops (blockBody m)
      pure (f params body)) :=
  (parameters_sure role).bind (fun _ =>
    ih.blockBody_sure.anywhere.withLoops.bind (fun _ => .pure) rfl) rfl

theorem primary_viable (ih : Viables fuel) :
    Viable Anywhere OpensFunction 1 anything (fuel + 1) primary := by
  refine .succ (fun m => (steadies m).primary) (.peek_bind (fun tokens => ?_) (Nat.le_refl 1))
  cases tokens with
  | nil => exact .stop fun _ h => by rw [h]; exact nofun
  | cons t rest =>
    have some : ∀ tokens, tokens = t :: rest → tokens ≠ [] := by
      rintro _ rfl
      exact List.cons_ne_nil t rest
    have other (h : t.kind ≠ .keyword .fun_) :
        Viable (· = t :: rest) OpensFunction 1 anything fuel
          fun _ => (stop .expression : Reading RawExpr) := by
      refine .stop ?_
      rintro _ rfl _ ⟨⟩
      exact h
    have literal (e : RawExpr) : Viable (· = t :: rest) OpensFunction 1 anything fuel
        fun _ => (do advance; pure e : Reading RawExpr) := .advance_bind .pure (by omega) some
    simp only [List.head?_cons]
    cases hk : t.kind with
    | name => exact literal _
    | number value => exact literal _
    | string text => exact literal _
    | keyword k =>
      cases k with
      | false_ => exact literal _
      | true_ => exact literal _
      | nil_ => exact literal _
      | this_ => exact literal _
      | fun_ =>
        exact .advance_bind (Sure.bind (.expect trivial) (fun _ =>
          code_sure ih .function Expr.function) rfl) (by omega) some
      | _ => exact other (by rw [hk]; decide)
    | symbol s =>
      cases s with
      | leftParen =>
        exact .advance_bind (ih.expression_sure.bind (fun _ => .bind (.expect (.inr (.inl rfl)))
          (fun _ => .pure) rfl) rfl) (by omega) some
      | _ => exact other (by rw [hk]; decide)

theorem blockBody_viable (ih : Viables fuel) :
    Viable Anywhere never 1 anything (fuel + 1) blockBody := by
  refine .succ (fun m => (steadies m).blockBody) ?_
  refine .ends_bind (m := 1) (l := 3) ?_ ?_ (by omega) (.inl (Nat.le_refl 1))
  · exact Viable.expect.unasked.bind (fun _ => .pure) (by omega)
  · refine ih.declaration.bind (l := 1) (fun _ => ?_) (by omega)
    refine (ih.blockBody_sure.weaken ?_).bind (fun _ => .pure) rfl
    rintro _ rfl
    exact fun h => absurd h (by decide)

theorem declaration_viable (ih : Viables fuel) :
    Viable Anywhere never 2 NoElse (fuel + 1) declaration :=
  .succ (fun m => (steadies m).declaration) ih.declared.recovering

theorem named_viable (ih : Viables fuel) (role : Role) :
    Viable Anywhere (· = .name) 2 anything (fuel + 1) fun m => named m role := by
  refine .succ (fun m => (steadies m).named role) ?_
  exact .bind .expectName (fun name => .bind (.expect trivial)
    (fun _ => code_sure ih role fun params body => (name, params, body)) rfl) (by omega)

theorem methodList_viable (ih : Viables fuel) :
    Viable Anywhere never 0 (· = some (.symbol .rightBrace)) (fuel + 1) methodList := by
  refine .succ (fun m => (steadies m).methodList) ?_
  refine .ends_bind (m := 0) (l := 2) .pure ?_ (by omega) (.inr fun _ => id)
  exact (ih.named .method).unasked.bind
    (fun _ => ih.methodList_sure.anywhere.bind (fun _ => .pure) rfl) (by omega)

theorem variableDeclaration_viable (ih : Viables fuel) :
    Viable (ahead · = some (.keyword .var_)) OpensFunction 2 anything (fuel + 1)
      variableDeclaration := by
  refine .succ (fun m => (steadies m).variableDeclaration) ?_
  refine .advance_bind (l := 2) (Sure.expectName.bind (l := 1) (fun name => ?_) rfl) (by omega)
    fun _ => Viable.ne_nil_of_ahead
  have value : Sure (· = some (.symbol .semicolon)) 1 anything fuel fun m => (do
      let initial ← do
        if ← accept (.symbol .equal) then some <$> expression m else pure none
      let _ ← expect .semicolon .afterVariable
      pure (.var name initial) : Reading RawStmt) := by
    refine .accept_bind (m := 2) (l := 1) ?_ ?_ (by omega) (by rintro _ rfl; decide)
    · exact ih.expression_sure.map.bind (fun _ => .bind (.expect (.inl rfl)) (fun _ => .pure) rfl)
        rfl
    · exact Sure.pure.bind (fun _ => .bind (.expect rfl) (fun _ => .pure) rfl) rfl
  exact value.anywhere

theorem expressionStatement_viable (ih : Viables fuel) :
    Viable Anywhere OpensFunction 2 anything (fuel + 1) expressionStatement :=
  .succ (fun m => (steadies m).expressionStatement) <|
    ih.expression.bind (fun _ => .bind (.expect (.inl rfl)) (fun _ => .pure) rfl) (by omega)

theorem jumpStatement_sure (jump : Jump) (line : Nat) :
    Sure anything 1 anything fuel fun _ => jumpStatement jump line := by
  have steady := jumpStatement_steady jump line
  refine Sure.noting (y := fun _ => (do
    let _ ← expect .semicolon (.afterKeyword jump.keyword)
    pure (.jump jump line) : Reading RawStmt)) (.bind (.expect trivial) (fun _ => .pure) rfl)
      (fun _ => steady) fun _ r => ?_
  exact noteIf_same (c := r.loops = 0) (notesOnly_report rfl) (fun _ => (do
    let _ ← expect .semicolon (.afterKeyword jump.keyword)
    pure (.jump jump line) : Reading RawStmt)) 0 r

theorem condition_sure (ih : Viables fuel) {x : Nat → RawExpr → Reading RawStmt} {k : Nat}
    {landmark landmark' : Landmark} (h : ∀ e, Sure anything k NoElse fuel fun m => x m e) :
    Sure anything (k + 3) NoElse fuel fun m => (do
      let _ ← expect .leftParen landmark
      let e ← expression m
      let _ ← expect .rightParen landmark'
      x m e) :=
  .bind (.expect trivial) (fun _ => ih.expression_sure.bind (fun e =>
    .bind (.expect (.inr (.inl rfl))) (fun _ => h e) rfl) rfl) (by omega)

theorem statement_viable (ih : Viables fuel) :
    Viable Anywhere OpensFunction 2 NoElse (fuel + 1) statement := by
  refine .succ (fun m => (steadies m).statement) (.peek_bind (fun tokens => ?_) (by decide))
  have expression {P : List Token → Prop} :
      Viable P OpensFunction 2 NoElse fuel expressionStatement :=
    ih.expressionStatement.ends.within
  cases tokens with
  | nil => exact expression
  | cons t rest =>
    have some : ∀ tokens, tokens = t :: rest → tokens ≠ [] := by
      rintro _ rfl
      exact List.cons_ne_nil t rest
    have jumps (jump : Jump) : Viable (· = t :: rest) OpensFunction 2 NoElse fuel
        fun _ => (do advance; jumpStatement jump t.line : Reading RawStmt) :=
      (Viable.advance_bind (jumpStatement_sure jump t.line) (by omega) some).ends
    simp only [List.head?_cons]
    cases hk : t.kind with
    | keyword k =>
      cases k with
      | print_ =>
        exact (Viable.advance_bind (ih.expression_sure.bind (fun _ =>
          .bind (.expect (.inl rfl)) (fun _ => .pure) rfl) rfl) (by omega) some).ends
      | for_ => exact .advance_bind ih.forStatement_sure (by omega) some
      | if_ =>
        refine .advance_bind (condition_sure ih (k := 2) fun e => ?_) (by omega) some
        refine ih.statement_sure.bind (l := 0) (fun yes => ?_) rfl
        refine .accept_bind (m := 2) (l := 0) ?_ (Sure.pure.bind (fun _ => .pure) rfl) (by omega)
          fun _ => id
        exact ih.statement_sure.map.bind (fun _ => .pure) rfl
      | return_ =>
        exact (Viable.advance_bind ((Sure.unlessAt ih.expression (Nat.le_refl 1) (.inl rfl)).bind
          (fun _ => .bind (.expect rfl) (fun _ => .pure) rfl) rfl) (by omega) some).ends
      | while_ =>
        refine .advance_bind (condition_sure ih (k := 2) fun e => ?_) (by omega) some
        exact ih.statement_sure.withLoops.bind (fun _ => .pure) rfl
      | break_ => exact jumps .break_
      | continue_ => exact jumps .continue_
      | _ => exact expression
    | symbol s =>
      cases s with
      | leftBrace =>
        exact (Viable.advance_bind (ih.blockBody_sure.anywhere.bind (fun _ => .pure) rfl)
          (by omega) some).ends
      | _ => exact expression
    | _ => exact expression

theorem forStatement_viable (ih : Viables fuel) :
    Viable Anywhere never 1 NoElse (fuel + 1) forStatement := by
  refine .succ (fun m => (steadies m).forStatement) ?_
  let behind (m : Nat) (initial : Option RawStmt) : Reading RawStmt := do
    let condition ← unlessAt (.symbol .semicolon) (expression m)
    let _ ← expect .semicolon .afterLoopCondition
    let increment ← unlessAt (.symbol .rightParen) (expression m)
    let _ ← expect .rightParen .afterForClauses
    let body ← insideLoop (statement m)
    pure (.forLoop initial condition increment body)
  have condition : Sure anything 0 (· = some (.symbol .semicolon)) fuel
      fun m => unlessAt (.symbol .semicolon) (expression m) :=
    .unlessAt ih.expression (Nat.le_refl 1) (.inl rfl)
  have increment : Sure anything 0 (· = some (.symbol .rightParen)) fuel
      fun m => unlessAt (.symbol .rightParen) (expression m) :=
    .unlessAt ih.expression (Nat.le_refl 1) (.inr (.inl rfl))
  have clauses (initial : Option RawStmt) : Sure anything 4 NoElse fuel fun m => behind m initial :=
    condition.bind (fun _ => .bind (.expect rfl) (fun _ => increment.bind (fun _ =>
      .bind (.expect rfl) (fun _ => ih.statement_sure.withLoops.bind (fun _ => .pure) rfl) rfl)
        rfl) rfl) rfl
  have initial : Viable Anywhere never 1 NoElse fuel fun m => (do
      if ← accept (.symbol .semicolon) then behind m (← pure none)
      else if ← at_ (.keyword .var_) then behind m (← some <$> variableDeclaration m)
      else behind m (← some <$> expressionStatement m)) := by
    refine .accept_bind (m := 4) (l := 2) (Sure.pure.bind clauses rfl)
      (.at_bind (k := 2) ?_ ?_ (by decide)) (by omega) (.inl (by decide))
    · exact (ih.variableDeclaration.unasked.map (by decide)).bind clauses (by omega)
    · exact (ih.expressionStatement.unasked.map (by decide)).bind clauses (by omega)
  exact Viable.expect.unasked.bind (fun _ => initial.sure
    (.accept_taken (t := symbol .semicolon) rfl (Sure.pure.bind clauses rfl).closable)
      (.inl (Nat.le_refl 1))) (by omega)

/-- What is read where neither a class nor a function with a name stands. -/
def plain (m : Nat) : Reading RawStmt := do
  if ← at_ (.keyword .var_) then variableDeclaration m else statement m

theorem plain_viable (ih : Viables fuel) : Viable Anywhere OpensFunction 2 NoElse fuel plain :=
  .at_bind ih.variableDeclaration.ends ih.statement (by decide)

def namedFunction (m : Nat) : Reading RawStmt := do
  let (name, params, body) ← named m .function
  pure (.function name params body)

theorem namedFunction_viable (ih : Viables fuel) :
    Viable Anywhere (· = .name) 2 anything fuel namedFunction :=
  (ih.named .function).bind (fun _ => .pure) (by omega)

def atFunction (m : Nat) : Reading RawStmt := do
  if ← nameFollows then
    advance
    namedFunction m
  else plain m

/-- The keyword alone goes on as a function without a name. -/
theorem atFunction_passes {t : Token} (ht : t.kind = .keyword .fun_) (tail : List Token) :
    Passes atFunction (t :: symbol .leftParen :: symbol .rightParen :: symbol .leftBrace ::
      symbol .rightBrace :: symbol .semicolon :: tail) (.expression (.function [] [])) tail := by
  have statement : Passes statement (t :: symbol .leftParen :: symbol .rightParen ::
      symbol .leftBrace :: symbol .rightBrace :: symbol .semicolon :: tail)
      (.expression (.function [] [])) tail :=
    statement_passes (function_passes ht (.inl rfl)) (ht ▸ rfl)
  refine statement.led fun m loops => (Leads.nameFollows_no (Next.symbol (by decide))).bind ?_
  exact (Leads.at_no (Next.cons (by rw [ht]; decide))).bind .refl

/-- With no name behind the keyword, a statement is read. -/
theorem atFunction_plain {t : Token} {rest : List Token} {r : Reader}
    {result : EStateM.Result Stop Reader RawStmt} (hr : r.rest = t :: rest)
    (ht : t.kind = .keyword .fun_) (hn : Next (· ≠ .name) rest)
    (h : Judged OpensFunction 2 NoElse plain r result) :
    Judged never 2 NoElse atFunction r result := by
  have leads (tail : List Token) (same : tail.head? = rest.head?) (m loops : Nat) :
      Leads loops (atFunction m) (t :: tail) (t :: tail) (plain m) :=
    (Leads.nameFollows_no fun u hu => hn u (same ▸ hu)).bind .refl
  cases h with
  | exhausted => exact .exhausted
  | @passed a s taken split many endLine quiet again =>
    obtain ⟨t', taken, rfl⟩ := List.exists_cons_of_ne_nil
      (List.ne_nil_of_length_pos (Nat.lt_of_lt_of_le Nat.zero_lt_two many))
    obtain ⟨rfl, behind⟩ := List.cons.inj (hr.symm.trans split)
    have some : taken ≠ [] := List.ne_nil_of_length_pos (Nat.lt_of_succ_lt_succ many)
    exact .passed (t :: taken) split many endLine quiet fun tail htail =>
      (again tail htail).led (leads _ (behind ▸ head?_append_of (.inl some)))
  | stopped taken later split here enters balks mends =>
    cases taken with
    | nil => exact absurd ht (enters rfl t (by rw [hr]; rfl))
    | cons t' taken =>
      obtain ⟨rfl, behind⟩ := List.cons.inj (hr.symm.trans split)
      refine .stopped (t :: taken) later split here (fun none => absurd none (List.cons_ne_nil t _))
        (fun later' next =>
          (balks later' next).led (leads _ (behind ▸ head?_append_of (.inr next)))) fun _ => ?_
      by_cases none : taken = []
      · subst none
        exact ⟨[symbol .leftParen, symbol .rightParen, symbol .leftBrace, symbol .rightBrace,
          symbol .semicolon], _, fun tail _ => atFunction_passes ht tail⟩
      · obtain ⟨fix, a, mends⟩ := mends (List.cons_ne_nil t taken)
        exact ⟨fix, a, fun tail htail =>
          (mends tail htail).led (leads _ (behind ▸ head?_append_of (.inl none)))⟩

theorem atFunction_viable (ih : Viables fuel) :
    Viable (ahead · = some (.keyword .fun_)) never 2 NoElse fuel atFunction where
  steady m := Steady.nameFollows.bind fun _ => .ite
    (Steady.advance.bind fun _ => (namedFunction_viable ih).steady m) ((plain_viable ih).steady m)
  judged r hr := by
    obtain ⟨t, rest, split, ht⟩ := exists_cons_of_ahead hr
    obtain ⟨tokens, endLine, reports, loops⟩ := r
    cases split
    by_cases hn : Next (· ≠ .name) rest
    · have same : Leads loops (atFunction fuel) (t :: rest) (t :: rest) (plain fuel) :=
        (Leads.nameFollows_no hn).bind .refl
      rw [same endLine reports]
      exact atFunction_plain rfl ht hn ((plain_viable ih).judged _ trivial)
    · obtain ⟨u, hu, hk⟩ : ∃ u ∈ rest.head?, u.kind = .name := by
        simpa only [Next, not_forall, not_not, exists_prop] using hn
      have leads (tail : List Token) (same : tail.head? = rest.head?) (m loops : Nat) :
          Leads loops (atFunction m) (t :: tail) tail (namedFunction m) := by
        obtain ⟨others, rfl⟩ := List.head?_eq_some_iff.mp (same.trans hu)
        exact (Leads.nameFollows_yes hk).bind (Leads.advance.bind .refl)
      rw [leads rest rfl fuel loops endLine reports]
      exact (((namedFunction_viable ih).ends.judged _ trivial).led rfl hu hk (by decide) leads).mono
        (fun _ => id) (by decide) fun _ => id

theorem declared_viable (ih : Viables fuel) :
    Viable Anywhere never 2 NoElse (fuel + 1) declared := by
  refine .succ (fun m => (steadies m).declared) ?_
  refine .accept_bind (m := 3) (l := 2) ?_ ?_ (by omega) (.inl (by decide))
  · have methods {name : Name} : Sure anything 1 anything fuel fun m => (do
        let methods ← methodList m
        let _ ← expect .rightBrace .afterClassBody
        pure (.class_ name methods) : Reading RawStmt) :=
      ih.methodList_sure.anywhere.bind (fun _ => .bind (.expect rfl) (fun _ => .pure) rfl) rfl
    exact (Sure.expectName.bind (fun _ => .bind (.expect trivial) (fun _ => methods) rfl) rfl).ends
  · refine .at_bind (atFunction_viable ih) ?_ (by decide)
    exact (plain_viable ih).unasked

theorem viables (fuel : Nat) : Viables fuel := by
  induction fuel with
  | zero => exact .zero
  | succ fuel ih =>
    exact
      { expression := expression_viable ih
        sequenceTail := sequenceTail_viable ih
        conditional := conditional_viable ih
        assignment := assignment_viable ih
        operation := operation_viable ih
        operationTail := operationTail_viable ih
        operand := operand_viable ih
        unary := unary_viable ih
        callTail := callTail_viable ih
        argumentsFrom := argumentsFrom_viable ih
        primary := primary_viable ih
        blockBody := blockBody_viable ih
        declaration := declaration_viable ih
        declared := declared_viable ih
        named := named_viable ih
        methodList := methodList_viable ih
        variableDeclaration := variableDeclaration_viable ih
        expressionStatement := expressionStatement_viable ih
        statement := statement_viable ih
        forStatement := forStatement_viable ih }

theorem declarations_steady (fuel : Nat) :
    Steady (declarations fuel) (declarations (fuel + 1)) := by
  induction fuel with
  | zero => exact .exhaust
  | succ fuel ih =>
    exact Steady.atEnd.bind fun _ => .ite (.pure _) ((steadies fuel).declaration.bind fun _ =>
      ih.bind fun _ => .pure _)

theorem declarations_closable : Closable (· = none) (· = none) declarations := by
  refine .succ ⟨[], [], fun tail htail => ⟨htail, .of_takes 0 fun fuel _ loops => ?_⟩⟩
  obtain rfl := ahead_eq_none.mp htail
  exact Leads.atEnd_nil.bind .refl

theorem declarations_viable (fuel : Nat) :
    Viable Anywhere never 0 (· = none) fuel declarations := by
  induction fuel with
  | zero => exact .exhaust declarations_steady fun _ => rfl
  | succ fuel ih =>
    refine .succ declarations_steady (.atEnd_bind (m := 0) (l := 2) .pure ?_ (by omega)
      (.inr fun _ => id))
    have more : Sure NoElse 0 (· = none) fuel declarations :=
      (ih.sure declarations_closable (.inr fun _ => id)).weaken fun _ none h => by
        cases none.symm.trans h
    exact (viables fuel).declaration.bind (fun found => more.bind (fun more => .pure) rfl)
      (by omega)

/-- A program is read the same with any fuel that is enough. -/
theorem readProgram_settles (tokens : List Token) (endLine : Nat) :
    ∃ program s, readProgram tokens endLine = ⟨program, s.reports⟩ ∧
      ∀ fuel, fuelFor tokens ≤ fuel →
        declarations fuel ⟨tokens, endLine, [], 0⟩ = .ok program s := by
  obtain ⟨program, s, ends, -⟩ := declarations_ends (fuelFor tokens) ⟨tokens, endLine, [], 0⟩
    (by simp only [fuelFor]; omega)
  refine ⟨program, s, by rw [readProgram, ends], fun fuel enough => ?_⟩
  exact (Steady.settled declarations_steady (by simp [ends]) enough).trans ends

theorem readProgram_passes {tokens rest : List Token} {program : List RawStmt}
    (h : Passes declarations tokens program rest) (endLine : Nat) :
    stops (readProgram tokens endLine).reports = [] := by
  obtain ⟨program', s, read, settled⟩ := readProgram_settles tokens endLine
  obtain ⟨fuel, passes, enough⟩ := (h.and (eventually_ge_atTop (fuelFor tokens))).exists
  obtain ⟨noted, quiet, ends⟩ := passes ⟨tokens, endLine, [], 0⟩ rfl
  cases (settled fuel enough).symm.trans ends
  rw [read]
  exact quiet

theorem readProgram_balks {tokens : List Token} (h : Balks declarations tokens) (endLine : Nat) :
    stops (readProgram tokens endLine).reports ≠ [] := by
  obtain ⟨program, s, read, settled⟩ := readProgram_settles tokens endLine
  obtain ⟨fuel, balks, enough⟩ := (h.and (eventually_ge_atTop (fuelFor tokens))).exists
  have more := balks ⟨tokens, endLine, [], 0⟩ rfl program s (settled fuel enough)
  rw [read]
  exact List.ne_nil_of_length_pos (Nat.lt_of_le_of_lt (Nat.zero_le _) more)

/-- The first complaint that stops a part of a program is made at the earliest possible token: what
stands before it can be completed to a list that is read without such a complaint, and with it no
list can. -/
theorem readProgram_stopped_earliest (tokens : List Token) (endLine : Nat) (report : Report)
    (first : (stops (readProgram tokens endLine).reports).head? = some report) :
    ∃ k missing, k ≤ tokens.length ∧
      report = Reader.report ⟨tokens.drop k, endLine, [], 0⟩ (.expected missing) ∧
      (∃ fix, ∀ line, stops (readProgram (tokens.take k ++ fix) line).reports = []) ∧
      (k < tokens.length → ∀ others line,
        stops (readProgram (tokens.take (k + 1) ++ others) line).reports ≠ []) ∧
      (k = tokens.length → ∀ line, stops (readProgram tokens line).reports ≠ []) := by
  obtain ⟨program, s, read, settled⟩ := readProgram_settles tokens endLine
  have judged := (declarations_viable (fuelFor tokens)).judged ⟨tokens, endLine, [], 0⟩ trivial
  rw [read] at first
  rw [settled _ (Nat.le_refl _)] at judged
  cases judged with
  | passed taken split many sameEnd quiet again =>
    replace quiet : stops s.reports = [] := quiet
    rw [quiet] at first
    cases first
  | stopped taken later split here enters balks mends =>
    replace split : tokens = taken ++ later := split
    obtain ⟨missing, more, found⟩ := here
    replace found : stops s.reports = _ := found
    rw [found] at first
    subst split
    refine ⟨taken.length, missing, by simp, ?_, ?_, ?_, ?_⟩
    · rw [List.drop_left]
      exact (Option.some_inj.mp first).symm
    · rw [List.take_left]
      by_cases none : taken = []
      · subst none
        exact ⟨[], fun line => rfl⟩
      · obtain ⟨fix, program', mends⟩ := mends none
        refine ⟨fix, fun line => ?_⟩
        have passes := mends [] rfl
        rw [List.append_nil] at passes
        exact readProgram_passes passes line
    · intro short others line
      cases later with
      | nil => simp at short
      | cons t rest =>
        have balks' : Balks declarations (taken ++ t :: others) := balks _ rfl
        have begins : (taken ++ t :: rest).take (taken.length + 1) ++ others =
            taken ++ t :: others := by
          rw [List.take_length_add_append, List.append_assoc]
          rfl
        rw [begins]
        exact readProgram_balks balks' line
    · intro _ line
      have balks' : Balks declarations (taken ++ later) := balks later rfl
      exact readProgram_balks balks' line

/-- A condition that is not closed, and a value that is missing. -/
def unclosed : List Token :=
  [keywordAt .if_ 1, symbolAt .leftParen 1, nameToken ⟨"a", 2⟩, symbolAt .semicolon 3,
    keywordAt .print_ 4, symbolAt .semicolon 5]

theorem readProgram_stopped_earliest_unclosed :
    (stops (readProgram unclosed 6).reports).head? =
      some ⟨3, .atToken ";", .expected (.symbol .rightParen .afterIfCondition)⟩ ∧
    ∃ k missing, k ≤ unclosed.length ∧
      (⟨3, .atToken ";", .expected (.symbol .rightParen .afterIfCondition)⟩ : Report) =
        Reader.report ⟨unclosed.drop k, 6, [], 0⟩ (.expected missing) ∧
      (∃ fix, ∀ line, stops (readProgram (unclosed.take k ++ fix) line).reports = []) ∧
      (k < unclosed.length → ∀ others line,
        stops (readProgram (unclosed.take (k + 1) ++ others) line).reports ≠ []) ∧
      (k = unclosed.length → ∀ line, stops (readProgram unclosed line).reports ≠ []) :=
  ⟨by decide, readProgram_stopped_earliest unclosed 6 _ (by decide)⟩

end Script.Grammar
