import Mathlib.Data.List.Perm.Subperm
import Script.Proofs.Cursor.Following
import Script.Proofs.Grammar.Malformed

/-! The cursor makes progress and reaches the end.
Every nonterminal is walked as it is read: all but what goes on behind an operand, an argument or a
method take a token, and none but a body opens a declaration at its first place. -/
namespace Script.Walk

open Grammar (Level Before stops fuelFor readProgram)

variable {fuel : Nat} {t : Token}

/-- The walks and the readings of some fuel. -/
structure Walking (fuel : Nat) : Prop where
  expression : Follows true true (Rules.expression fuel) (Grammar.expression fuel)
  sequenceTail : ∀ e, Follows false true (Rules.sequenceTail fuel e) (Grammar.sequenceTail fuel e)
  conditional : Follows true true (Rules.conditional fuel) (Grammar.conditional fuel)
  assignment : Follows true true (Rules.assignment fuel) (Grammar.assignment fuel)
  operation : ∀ level,
    Follows true true (Rules.operation fuel level) (Grammar.operation fuel level)
  operationTail : ∀ level e,
    Follows false true (Rules.operationTail fuel level e) (Grammar.operationTail fuel level e)
  operand : ∀ level, Follows true true (Rules.operand fuel level) (Grammar.operand fuel level)
  unary : Follows true true (Rules.unary fuel) (Grammar.unary fuel)
  callTail : ∀ e, Follows false true (Rules.callTail fuel e) (Grammar.callTail fuel e)
  argumentsFrom : ∀ count,
    Follows true true (Rules.argumentsFrom fuel count) (Grammar.argumentsFrom fuel count)
  primary : Follows true true (Rules.primary fuel) (Grammar.primary fuel)
  blockBody : Follows true false (Rules.blockBody fuel) (Grammar.blockBody fuel)
  declaration : ∀ t,
    FollowsOn (Before t) true false (Rules.declaration fuel) (Grammar.declaration fuel)
  declared : Follows true true (Rules.declared fuel) (Grammar.declared fuel)
  named : ∀ role, Follows true true (Rules.named fuel role) (Grammar.named fuel role)
  methodList : Follows false true (Rules.methodList fuel) (Grammar.methodList fuel)
  variableDeclaration : ∀ t,
    FollowsOn (Before t) true true (Rules.variableDeclaration fuel)
      (Grammar.variableDeclaration fuel)
  expressionStatement :
    Follows true true (Rules.expressionStatement fuel) (Grammar.expressionStatement fuel)
  statement : Follows true true (Rules.statement fuel) (Grammar.statement fuel)
  forStatement : Follows true true (Rules.forStatement fuel) (Grammar.forStatement fuel)

theorem walking_zero : Walking 0 where
  expression := .exhaust
  sequenceTail _ := .exhaust
  conditional := .exhaust
  assignment := .exhaust
  operation _ := .exhaust
  operationTail _ _ := .exhaust
  operand _ := .exhaust
  unary := .exhaust
  callTail _ := .exhaust
  argumentsFrom _ := .exhaust
  primary := .exhaust
  blockBody := .exhaust
  declaration _ := .exhaust
  declared := .exhaust
  named _ := .exhaust
  methodList := .exhaust
  variableDeclaration _ := .exhaust
  expressionStatement := .exhaust
  statement := .exhaust
  forStatement := .exhaust

theorem expression_followed (ih : Walking fuel) :
    Follows true true (Rules.expression (fuel + 1)) (Grammar.expression (fuel + 1)) :=
  ih.conditional.bind fun first => ih.sequenceTail first

theorem sequenceTail_followed (ih : Walking fuel) (earlier : RawExpr) :
    Follows false true (Rules.sequenceTail (fuel + 1) earlier)
      (Grammar.sequenceTail (fuel + 1) earlier) :=
  .accept_bind (ih.conditional.bind fun _ => ih.sequenceTail _) (.pure _)

theorem conditional_followed (ih : Walking fuel) :
    Follows true true (Rules.conditional (fuel + 1)) (Grammar.conditional (fuel + 1)) := by
  apply ih.assignment.bind
  intro condition
  apply FollowsOn.accept_bind
  · exact ih.conditional.bind fun yes => FollowsOn.expect.bind fun _ =>
      ih.conditional.bind fun no => .pure _
  · exact .pure _

theorem assignTo_followed (target : RawExpr) (equalLine : Nat) (value : RawExpr) :
    Follows false true (Rules.assignTo target equalLine value)
      (Grammar.assignTo target equalLine value) := by
  cases target with
  | «variable» name site => exact .pure _
  | get object property => exact .pure _
  | _ => exact (FollowsOn.note rfl).andThen fun _ => .pure _

theorem assignment_followed (ih : Walking fuel) :
    Follows true true (Rules.assignment (fuel + 1)) (Grammar.assignment (fuel + 1)) := by
  apply (ih.operation .or).bind
  intro target
  apply FollowsOn.acceptMeaning_bind
  · exact fun _ line => ih.conditional.bind fun value => assignTo_followed target line value
  · exact .pure _

theorem operation_followed (ih : Walking fuel) (level : Level) :
    Follows true true (Rules.operation (fuel + 1) level) (Grammar.operation (fuel + 1) level) :=
  (ih.operand level).bind fun left => ih.operationTail level left

theorem operationTail_followed (ih : Walking fuel) (level : Level) (left : RawExpr) :
    Follows false true (Rules.operationTail (fuel + 1) level left)
      (Grammar.operationTail (fuel + 1) level left) :=
  .acceptMeaning_bind (fun _ _ => (ih.operand level).bind fun _ => ih.operationTail level _)
    (.pure _)

theorem operand_followed (ih : Walking fuel) (level : Level) :
    Follows true true (Rules.operand (fuel + 1) level) (Grammar.operand (fuel + 1) level) := by
  cases level with
  | factor => exact ih.unary
  | _ => exact ih.operation _

theorem unary_followed (ih : Walking fuel) :
    Follows true true (Rules.unary (fuel + 1)) (Grammar.unary (fuel + 1)) := by
  apply FollowsOn.acceptMeaning_bind
  · exact fun op line => ih.unary.bind fun inner => .pure _
  · exact ih.primary.bind fun head => ih.callTail head

theorem callTail_followed (ih : Walking fuel) (head : RawExpr) :
    Follows false true (Rules.callTail (fuel + 1) head) (Grammar.callTail (fuel + 1) head) := by
  apply FollowsOn.accept_bind
  · exact (ih.argumentsFrom 0).unlessAt.andThen fun _ => FollowsOn.expect.bind fun _ =>
      ih.callTail _
  · apply FollowsOn.accept_bind
    · exact FollowsOn.expectName.bind fun _ => ih.callTail _
    · exact .pure _

theorem argumentsFrom_followed (ih : Walking fuel) (count : Nat) :
    Follows true true (Rules.argumentsFrom (fuel + 1) count)
      (Grammar.argumentsFrom (fuel + 1) count) :=
  .noteIf (.noteHere nofun) (ih.conditional.bind fun _ =>
    .accept_bind ((ih.argumentsFrom (count + 1)).bind fun _ => .pure _) (.pure _))

theorem parametersFrom_followed (fuel count : Nat) :
    Follows true true (Rules.parametersFrom fuel count) (Grammar.parametersFrom fuel count) := by
  induction fuel generalizing count with
  | zero => exact .exhaust
  | succ fuel ih =>
    exact .noteIf (.noteHere nofun) (FollowsOn.expectName.bind fun _ =>
      .accept_bind ((ih (count + 1)).bind fun _ => .pure _) (.pure _))

theorem parameters_followed (fuel : Nat) (role : Role) :
    Follows true true (Rules.parameters fuel role) (Grammar.parameters fuel role) :=
  (parametersFrom_followed fuel 0).unlessAt.andThen fun _ => FollowsOn.expect.bind fun _ =>
    FollowsOn.expect.bind fun _ => .pure _

theorem primary_followed (ih : Walking fuel) :
    Follows true true (Rules.primary (fuel + 1)) (Grammar.primary (fuel + 1)) := by
  apply FollowsOn.peek_bind
  · exact .raise _
  · intro t
    dsimp only
    generalize t.kind = kind
    cases kind with
    | name => exact .pass_bind (.pure _)
    | number value => exact .pass_bind (.pure _)
    | string text => exact .pass_bind (.pure _)
    | symbol symbol =>
      cases symbol with
      | leftParen =>
        exact .pass_bind (ih.expression.bind fun _ => FollowsOn.expect.bind fun _ => .pure _)
      | _ => exact .raise _
    | keyword keyword =>
      cases keyword with
      | false_ | true_ | nil_ | this_ => exact .pass_bind (.pure _)
      | fun_ =>
        exact .pass_bind (FollowsOn.expect.bind fun _ => (parameters_followed fuel _).bind
          fun _ => ih.blockBody.withLoops.bind fun _ => .pure _)
      | _ => exact .raise _

theorem blockBody_followed (ih : Walking fuel) :
    Follows true false (Rules.blockBody (fuel + 1)) (Grammar.blockBody (fuel + 1)) := by
  have close : Follows true true
      (Walk.expect .rightBrace .afterBlock >>= fun _ => pure ([] : List RawStmt))
      (Grammar.expect .rightBrace .afterBlock >>= fun _ => pure []) :=
    FollowsOn.expect.bind fun _ => .pure _
  apply FollowsOn.atEnd_bind
  · apply FollowsOn.looking (at_sees _)
    exact fun _ => close.outside
  · intro t
    apply FollowsOn.looking (at_sees _)
    intro closes
    cases closes with
    | true => exact close.outside.within
    | false => exact (ih.declaration t).bind fun _ => ih.blockBody.bind fun _ => .pure _

theorem methodList_followed (ih : Walking fuel) :
    Follows false true (Rules.methodList (fuel + 1)) (Grammar.methodList (fuel + 1)) := by
  apply FollowsOn.looking atEnd_sees
  intro ends
  apply FollowsOn.looking (at_sees _)
  intro closes
  cases (ends || closes) with
  | true => exact .pure _
  | false =>
    exact ((ih.named .method).bind fun _ => ih.methodList.andThen fun _ => .pure _).lessen

theorem declaration_followed (ih : Walking fuel) (t : Token) :
    FollowsOn (Before t) true false (Rules.declaration (fuel + 1))
      (Grammar.declaration (fuel + 1)) := ih.declared.attempt

theorem named_followed (ih : Walking fuel) (role : Role) :
    Follows true true (Rules.named (fuel + 1) role) (Grammar.named (fuel + 1) role) :=
  FollowsOn.expectName.bind fun _ => FollowsOn.expect.bind fun _ =>
    (parameters_followed fuel role).bind fun _ => ih.blockBody.withLoops.bind fun _ => .pure _

theorem variableDeclaration_followed (ih : Walking fuel) (t : Token) :
    FollowsOn (Before t) true true (Rules.variableDeclaration (fuel + 1))
      (Grammar.variableDeclaration (fuel + 1)) := by
  apply FollowsOn.pass_bind
  apply FollowsOn.expectName.bind
  intro name
  apply FollowsOn.accept_bind
  · exact (ih.expression.map some).bind fun _ => FollowsOn.expect.bind fun _ => .pure _
  · exact FollowsOn.expect.bind fun _ => .pure _

theorem expressionStatement_followed (ih : Walking fuel) :
    Follows true true (Rules.expressionStatement (fuel + 1))
      (Grammar.expressionStatement (fuel + 1)) :=
  ih.expression.bind fun _ => FollowsOn.expect.bind fun _ => .pure _

theorem declared_followed (ih : Walking fuel) :
    Follows true true (Rules.declared (fuel + 1)) (Grammar.declared (fuel + 1)) := by
  apply FollowsOn.accept_bind
  · exact FollowsOn.expectName.bind fun _ => FollowsOn.expect.bind fun _ =>
      ih.methodList.andThen fun _ => FollowsOn.expect.bind fun _ => .pure _
  · apply FollowsOn.at_bind
    · intro t ht
      apply FollowsOn.looking nameFollows_sees
      intro named
      cases named with
      | true => exact .pass_bind ((ih.named .function).bind fun _ => .pure _)
      | false =>
        apply FollowsOn.looking (at_sees _)
        intro declares
        cases declares with
        | true => exact ih.variableDeclaration t
        | false => exact ih.statement.within
    · apply FollowsOn.looking nameFollows_sees
      intro _
      apply FollowsOn.at_bind
      · exact fun t _ => ih.variableDeclaration t
      · exact ih.statement

theorem jumpStatement_followed (jump : Jump) (t : Token) :
    FollowsOn (Before t) true true
      (Walk.pass >>= fun _ => Walk.passedLine >>= Rules.jumpStatement jump)
      (Grammar.advance >>= fun _ => pure t.line >>= Grammar.jumpStatement jump) :=
  .pass_line_bind (.loopsAround_bind fun _ =>
    .noteIf (.note rfl) (FollowsOn.expect.bind fun _ => .pure _))

theorem statement_followed (ih : Walking fuel) :
    Follows true true (Rules.statement (fuel + 1)) (Grammar.statement (fuel + 1)) := by
  apply FollowsOn.peek_bind
  · exact ih.expressionStatement
  · intro t
    dsimp only
    generalize t.kind = kind
    cases kind with
    | symbol symbol =>
      cases symbol with
      | leftBrace => exact .pass_bind (ih.blockBody.bind fun _ => .pure _)
      | _ => exact ih.expressionStatement.within
    | keyword keyword =>
      cases keyword with
      | print_ =>
        exact .pass_bind (ih.expression.bind fun _ => FollowsOn.expect.bind fun _ => .pure _)
      | for_ => exact .pass_bind ih.forStatement
      | if_ =>
        apply FollowsOn.pass_bind
        exact FollowsOn.expect.bind fun _ => ih.expression.bind fun _ => FollowsOn.expect.bind
          fun _ => ih.statement.bind fun _ => .accept_bind
            ((ih.statement.map some).bind fun _ => .pure _) (.pure _)
      | return_ =>
        exact .pass_line_bind (ih.expression.unlessAt.andThen fun _ =>
          FollowsOn.expect.bind fun _ => .pure _)
      | while_ =>
        apply FollowsOn.pass_bind
        exact FollowsOn.expect.bind fun _ => ih.expression.bind fun _ => FollowsOn.expect.bind
          fun _ => ih.statement.withLoops.bind fun _ => .pure _
      | break_ => exact jumpStatement_followed .break_ t
      | continue_ => exact jumpStatement_followed .continue_ t
      | _ => exact ih.expressionStatement.within
    | _ => exact ih.expressionStatement.within

theorem forStatement_followed (ih : Walking fuel) :
    Follows true true (Rules.forStatement (fuel + 1)) (Grammar.forStatement (fuel + 1)) := by
  have clauses (initial : Option RawStmt) :
      Follows false true (do
        let condition ← Rules.unlessAt (.symbol .semicolon) (Rules.expression fuel)
        let _ ← Walk.expect .semicolon .afterLoopCondition
        let increment ← Rules.unlessAt (.symbol .rightParen) (Rules.expression fuel)
        let _ ← Walk.expect .rightParen .afterForClauses
        let body ← Walk.withLoops (· + 1) (Rules.statement fuel)
        pure (Stmt.forLoop initial condition increment body)) (do
        let condition ← Grammar.unlessAt (.symbol .semicolon) (Grammar.expression fuel)
        let _ ← Grammar.expect .semicolon .afterLoopCondition
        let increment ← Grammar.unlessAt (.symbol .rightParen) (Grammar.expression fuel)
        let _ ← Grammar.expect .rightParen .afterForClauses
        let body ← Grammar.insideLoop (Grammar.statement fuel)
        pure (Stmt.forLoop initial condition increment body)) :=
    (ih.expression.unlessAt.andThen fun _ => FollowsOn.expect.bind fun _ =>
      ih.expression.unlessAt.andThen fun _ => FollowsOn.expect.bind fun _ =>
        ih.statement.withLoops.bind fun _ => .pure _).lessen
  apply FollowsOn.expect.bind
  intro line
  apply FollowsOn.accept_bind
  · exact clauses none
  · apply FollowsOn.at_bind
    · exact fun t _ => ((ih.variableDeclaration t).map some).bind fun initial => clauses initial
    · exact (ih.expressionStatement.map some).bind fun initial => clauses initial

theorem walking (fuel : Nat) : Walking fuel := by
  induction fuel with
  | zero => exact walking_zero
  | succ fuel ih =>
    exact
      { expression := expression_followed ih
        sequenceTail := sequenceTail_followed ih
        conditional := conditional_followed ih
        assignment := assignment_followed ih
        operation := operation_followed ih
        operationTail := operationTail_followed ih
        operand := operand_followed ih
        unary := unary_followed ih
        callTail := callTail_followed ih
        argumentsFrom := argumentsFrom_followed ih
        primary := primary_followed ih
        blockBody := blockBody_followed ih
        declaration := declaration_followed ih
        declared := declared_followed ih
        named := named_followed ih
        methodList := methodList_followed ih
        variableDeclaration := variableDeclaration_followed ih
        expressionStatement := expressionStatement_followed ih
        statement := statement_followed ih
        forStatement := forStatement_followed ih }

theorem declarations_followed (fuel : Nat) :
    Follows false false (Walk.declarations fuel) (Grammar.declarations fuel) := by
  induction fuel with
  | zero => exact .exhaust
  | succ fuel ih =>
    apply FollowsOn.atEnd_bind
    · exact (FollowsOn.pure []).outside
    · intro t
      apply FollowsOn.lessen
      apply ((walking fuel).declaration t).bind
      exact fun found => ih.last _

/-- How a walk to the end of the tokens went: the places it looked at never went back nor past the
end, each declaration read on the way began at a place of its own and took a token, and the complaints
that stopped a reading, each of which stopped one of them, are no more than the tokens. -/
structure Completed (tokens : List Token) (d : Cursor) : Prop where
  position : d.position = tokens.length
  ordered : d.trail.Pairwise (· ≤ ·)
  inside : ∀ i ∈ d.trail, i ≤ tokens.length
  progress : ∀ a ∈ d.attempts, a.start < a.stop ∧ a.stop ≤ tokens.length
  distinct : (d.attempts.map Attempt.start).Nodup
  raised : stops d.reports = d.attempts.filterMap Attempt.raised
  bounded : (stops d.reports).length ≤ tokens.length

/-- Declarations that begin at places of their own before the end are no more than the tokens. -/
theorem attempts_bounded {attempts : List Attempt} {n : Nat} (within : ∀ a ∈ attempts, a.start < n)
    (distinct : (attempts.map Attempt.start).Nodup) : attempts.length ≤ n := by
  have among : attempts.map Attempt.start ⊆ List.range n := by
    intro i hi
    obtain ⟨a, ha, rfl⟩ := List.mem_map.mp hi
    exact List.mem_range.mpr (within a ha)
  have least := (List.subperm_of_subset distinct among).length_le
  rwa [List.length_map, List.length_range] at least

theorem completed {tokens : List Token} {endLine : Nat} {d : Cursor}
    (moved : Moved false (.start tokens endLine) d) (position : d.position = tokens.length) :
    Completed tokens d := by
  obtain ⟨seen, trail, sorted, within⟩ := moved.trail
  obtain ⟨made, attempts, distinct, bounds, reports⟩ := moved.attempts
  have trail : d.trail = seen := trail
  have attempts : d.attempts = made := attempts
  have raised : stops d.reports = d.attempts.filterMap Attempt.raised := by
    rw [attempts]
    exact reports
  subst trail attempts
  rw [position] at within bounds
  have progress (a : Attempt) (ha : a ∈ d.attempts) := (bounds a ha).2
  constructor
  · exact position
  · exact sorted
  · exact fun i hi => (within i hi).2
  · exact progress
  · exact distinct
  · exact raised
  · rw [raised]
    apply (List.length_filterMap_le _ _).trans
    apply attempts_bounded _ distinct
    exact fun a ha => (progress a ha).1.trans_le (progress a ha).2

/-- Over any tokens the walk neither looks outside of the list nor ends with a complaint or without
fuel, however much there is: it ends at the end of the tokens, with what was read of them. -/
theorem declarations_completes (tokens : List Token) (endLine extra : Nat) :
    ∃ d, Walk.declarations (fuelFor tokens + extra) (.start tokens endLine)
        = .ok (readProgram tokens endLine).statements d ∧
      d.reports = (readProgram tokens endLine).reports ∧ Completed tokens d := by
  have enough : 24 * tokens.length + 22 ≤ fuelFor tokens := by
    simp only [fuelFor]
    omega
  obtain ⟨program, s, read, -⟩ :=
    Grammar.declarations_ends (fuelFor tokens) ⟨tokens, endLine, [], 0⟩ enough
  have settled : Grammar.declarations (fuelFor tokens + extra) ⟨tokens, endLine, [], 0⟩
      = .ok program s := by
    have ends : ∀ t, Grammar.declarations (fuelFor tokens) ⟨tokens, endLine, [], 0⟩
        ≠ .error .exhausted t := by
      intro t out
      cases read.symm.trans out
    have same := Grammar.Steady.settled Grammar.declarations_steady ends (Nat.le_add_right _ extra)
    exact same.trans read
  have agrees : Agrees tokens (.start tokens endLine) ⟨tokens, endLine, [], 0⟩ :=
    ⟨rfl, Nat.zero_le _, rfl, rfl, rfl⟩
  have followed := declarations_followed (fuelFor tokens + extra) tokens _ _ trivial agrees
  have result : (readProgram tokens endLine).statements = program ∧
      (readProgram tokens endLine).reports = s.reports := by
    simp only [readProgram, read, and_self]
  rw [settled] at followed
  rw [result.1, result.2]
  generalize Walk.declarations _ _ = walked at followed ⊢
  cases followed with
  | ok agrees' moved taken =>
    have position := agrees'.at_end (Grammar.declarations_rest read)
    exact ⟨_, rfl, agrees'.reports, completed moved position⟩

/-- The complaint about the semicolon stops the declaration within the block and not the block. -/
example :
    (match Walk.declarations 40 (.start [⟨.symbol .leftBrace, Symbol.leftBrace.spelling, 1⟩,
        ⟨.keyword .print_, "print", 1⟩, ⟨.symbol .semicolon, ";", 1⟩,
        ⟨.symbol .rightBrace, Symbol.rightBrace.spelling, 1⟩] 1) with
      | .ok _ d => d.attempts.map fun a => (a.start, a.stop)
      | .error _ _ => []) = [(1, 3), (0, 4)] := rfl

end Script.Walk
