import Script.Proofs.Grammar.Passing

/-! The jumps of the trees that are read.
Every jump of a tree was passed by the reading of it. It was passed as a stray exactly if the place
where it stands in the tree is in no loop. -/
namespace Script.Grammar

open Lexical

/-- The jumps among nodes were passed, the strays as such. -/
def Marked (es : List Passed) (nodes : List (Position × Node Unit)) : Prop :=
  ∀ x ∈ nodes, ∀ jump line, x.2 = .stmt (.jump jump line) → ⟨jump, line, !x.1.inLoop⟩ ∈ es

namespace Marked

variable {es es' : List Passed} {nodes nodes' : List (Position × Node Unit)}

theorem nil : Marked es [] := List.forall_mem_nil _

theorem append (h : Marked es nodes) (h' : Marked es nodes') : Marked es (nodes ++ nodes') :=
  List.forall_mem_append.mpr ⟨h, h'⟩

theorem node (h : Marked es nodes) {p : Position} {node : Node Unit}
    (other : ∀ jump line, node ≠ .stmt (.jump jump line)) : Marked es ((p, node) :: nodes) :=
  List.forall_mem_cons.mpr ⟨fun jump line hn => absurd hn (other jump line), h⟩

theorem leaf {p : Position} {node : Node Unit}
    (other : ∀ jump line, node ≠ .stmt (.jump jump line)) : Marked es [(p, node)] := nil.node other

theorem left (h : Marked es nodes) : Marked (es ++ es') nodes :=
  fun x hx jump line hn => List.mem_append_left _ (h x hx jump line hn)

theorem right (h : Marked es' nodes) : Marked (es ++ es') nodes :=
  fun x hx jump line hn => List.mem_append_right _ (h x hx jump line hn)

end Marked

/-- There are as many loops around the place as are counted, as far as it matters. -/
def Around (n : Nat) (p : Position) : Prop := p.inLoop = decide (n ≠ 0)

def ExprMarked (e : RawExpr) (es : List Passed) : Prop := ∀ p, Marked es (exprNodes p e)

def ExprsMarked (a : List RawExpr) (es : List Passed) : Prop := ∀ p, Marked es (exprsNodes p a)

def OptionMarked (a : Option RawExpr) (es : List Passed) : Prop := ∀ e ∈ a, ExprMarked e es

def StmtMarked (n : Nat) (s : RawStmt) (es : List Passed) : Prop :=
  ∀ p, Around n p → Marked es (stmtNodes p s)

def StmtsMarked (n : Nat) (ss : List RawStmt) (es : List Passed) : Prop :=
  ∀ p, Around n p → Marked es (stmtsNodes p ss)

def CodeMarked (code : Name × List Name × List RawStmt) (es : List Passed) : Prop :=
  StmtsMarked 0 code.2.2 es

def MethodsMarked (ms : List RawMethod) (es : List Passed) : Prop :=
  ∀ p, Marked es (methodsNodes p ms)

structure Jumping (n fuel : Nat) : Prop where
  expression : Passing n (expression fuel) ExprMarked
  sequenceTail : ∀ e es, ExprMarked e es →
    Passing n (sequenceTail fuel e) fun e' es' => ExprMarked e' (es ++ es')
  conditional : Passing n (conditional fuel) ExprMarked
  assignment : Passing n (assignment fuel) ExprMarked
  operation : ∀ level, Passing n (operation fuel level) ExprMarked
  operationTail : ∀ level e es, ExprMarked e es →
    Passing n (operationTail fuel level e) fun e' es' => ExprMarked e' (es ++ es')
  operand : ∀ level, Passing n (operand fuel level) ExprMarked
  unary : Passing n (unary fuel) ExprMarked
  callTail : ∀ e es, ExprMarked e es →
    Passing n (callTail fuel e) fun e' es' => ExprMarked e' (es ++ es')
  argumentsFrom : ∀ count, Passing n (argumentsFrom fuel count) ExprsMarked
  primary : Passing n (primary fuel) ExprMarked
  blockBody : Passing n (blockBody fuel) (StmtsMarked n)
  declaration : Passing n (declaration fuel) fun s => StmtsMarked n s.toList
  declared : Passing n (declared fuel) (StmtMarked n)
  named : ∀ role, Passing n (named fuel role) CodeMarked
  methodList : Passing n (methodList fuel) MethodsMarked
  variableDeclaration : Passing n (variableDeclaration fuel) (StmtMarked n)
  expressionStatement : Passing n (expressionStatement fuel) (StmtMarked n)
  statement : Passing n (statement fuel) (StmtMarked n)
  forStatement : Passing n (forStatement fuel) (StmtMarked n)

theorem jumping_zero (n : Nat) : Jumping n 0 where
  expression := .exhaust
  sequenceTail _ _ _ := .exhaust
  conditional := .exhaust
  assignment := .exhaust
  operation _ := .exhaust
  operationTail _ _ _ _ := .exhaust
  operand _ := .exhaust
  unary := .exhaust
  callTail _ _ _ := .exhaust
  argumentsFrom _ := .exhaust
  primary := .exhaust
  blockBody := .exhaust
  declaration := .exhaust
  declared := .exhaust
  named _ := .exhaust
  methodList := .exhaust
  variableDeclaration := .exhaust
  expressionStatement := .exhaust
  statement := .exhaust
  forStatement := .exhaust

variable {n fuel : Nat}

theorem expression_marks (ih : Jumping n fuel) :
    Passing n (expression (fuel + 1)) ExprMarked :=
  ih.conditional.bind fun e es he => ih.sequenceTail e es he

theorem sequenceTail_marks (ih : Jumping n fuel) (e : RawExpr) (es : List Passed)
    (he : ExprMarked e es) :
    Passing n (sequenceTail (fuel + 1) e) fun e' es' => ExprMarked e' (es ++ es') := by
  refine Passing.accept.behind fun comma => ?_
  cases comma with
  | false => exact .pure fun p => (he p).left
  | true =>
    refine ih.conditional.bind fun last es' hl => ?_
    have both : ExprMarked (.sequence e last) (es ++ es') := fun p =>
      ((he _).left.append (hl _).right).node nofun
    exact (ih.sequenceTail _ _ both).weaken fun e' es'' h => by rwa [List.append_assoc] at h

theorem conditional_marks (ih : Jumping n fuel) :
    Passing n (conditional (fuel + 1)) ExprMarked := by
  refine ih.assignment.bind fun condition es hc => Passing.accept.behind fun mark => ?_
  cases mark with
  | false => exact .pure fun p => (hc p).left
  | true =>
    exact ih.conditional.bind fun yes es' hy => Passing.expect.behind fun _ =>
      ih.conditional.bind fun no es'' hn => .pure fun p => by
        rw [List.append_nil]
        exact (((hc _).left.append (hy _).left.right).append (hn _).right.right).node nofun

theorem assignTo_marks {target value : RawExpr} {es es' : List Passed} (equalLine : Nat)
    (ht : ExprMarked target es) (hv : ExprMarked value es') :
    Passing n (assignTo target equalLine value) fun e es'' => ExprMarked e (es ++ (es' ++ es'')) := by
  cases target with
  | «variable» name site => exact .pure fun p => ((hv _).left.right).node nofun
  | get object property =>
    have inner : ∀ p : Position, Marked es (exprNodes (p.child 0) object) := fun p x hx =>
      ht p x (List.mem_cons_of_mem _ hx)
    exact .pure fun p => ((inner p).left.append (hv _).left.right).node nofun
  | _ => exact (Passing.note rfl).behind fun _ => .pure fun p => (ht p).left

theorem assignment_marks (ih : Jumping n fuel) :
    Passing n (assignment (fuel + 1)) ExprMarked := by
  refine (ih.operation .or).bind fun target es ht => Passing.acceptMeaning.behind fun found => ?_
  cases found with
  | none => exact .pure fun p => (ht p).left
  | some found => exact ih.conditional.bind fun value es' hv => assignTo_marks found.2 ht hv

theorem operation_marks (ih : Jumping n fuel) (level : Level) :
    Passing n (operation (fuel + 1) level) ExprMarked :=
  (ih.operand level).bind fun left es hl => ih.operationTail level left es hl

theorem join_marked {left right : RawExpr} {es es' : List Passed} (hl : ExprMarked left es)
    (hr : ExprMarked right es') (connective : Connective) (line : Nat) :
    ExprMarked (connective.join left line right) (es ++ es') := by
  intro p
  have both := (hl (p.child 0)).left.append (hr (p.child 1)).right
  cases connective with
  | logical op => exact both.node nofun
  | binary op => exact both.node nofun

theorem operationTail_marks (ih : Jumping n fuel) (level : Level) (left : RawExpr)
    (es : List Passed) (hl : ExprMarked left es) :
    Passing n (operationTail (fuel + 1) level left) fun e es' => ExprMarked e (es ++ es') := by
  refine Passing.acceptMeaning.behind fun found => ?_
  cases found with
  | none => exact .pure fun p => (hl p).left
  | some found =>
    refine (ih.operand level).bind fun right es' hr => ?_
    exact (ih.operationTail level _ _ (join_marked hl hr found.1 found.2)).weaken
      fun e es'' h => by rwa [List.append_assoc] at h

theorem operand_marks (ih : Jumping n fuel) (level : Level) :
    Passing n (operand (fuel + 1) level) ExprMarked := by
  cases level with
  | factor => exact ih.unary
  | or => exact ih.operation .and
  | and => exact ih.operation .equality
  | equality => exact ih.operation .comparison
  | comparison => exact ih.operation .term
  | term => exact ih.operation .factor

theorem unary_marks (ih : Jumping n fuel) : Passing n (unary (fuel + 1)) ExprMarked := by
  refine Passing.acceptMeaning.behind fun found => ?_
  cases found with
  | none => exact ih.primary.bind fun head es hh => ih.callTail head es hh
  | some found =>
    exact ih.unary.bind fun inner es hi => .pure fun p => ((hi _).left).node nofun

theorem callTail_marks (ih : Jumping n fuel) (head : RawExpr) (es : List Passed)
    (hh : ExprMarked head es) :
    Passing n (callTail (fuel + 1) head) fun e es' => ExprMarked e (es ++ es') := by
  refine Passing.accept.behind fun paren => ?_
  cases paren with
  | true =>
    have arguments : Passing n (unlessAt (.symbol .rightParen) (argumentsFrom fuel 0))
        fun a es => ExprsMarked (a.getD []) es :=
      (ih.argumentsFrom 0).unlessAt _ (fun _ => .nil) fun _ _ h => h
    refine arguments.bind fun a es' ha => Passing.expect.behind fun line => ?_
    have whole : ExprMarked (.call head line (a.getD [])) (es ++ es') := fun p =>
      ((hh _).left.append (ha _).right).node nofun
    exact (ih.callTail _ _ whole).weaken fun e es'' h => by rwa [List.append_assoc] at h
  | false =>
    refine Passing.accept.behind fun dot => ?_
    cases dot with
    | true =>
      refine Passing.expectName.behind fun property => ih.callTail _ _ fun p => ?_
      exact (hh _).node nofun
    | false => exact .pure fun p => (hh p).left

theorem noteIf_marks {α : Type} {c : Prop} [Decidable c] {complaint : Complaint}
    (other : ∀ jump, complaint ≠ .strayJump jump) {x : Reading α} {Q : α → List Passed → Prop}
    (h : Passing n x Q) : Passing n (if c then noteHere complaint >>= fun _ => x else x) Q := by
  split
  · exact (Passing.noteHere other).behind fun _ => h
  · exact h

theorem argumentsFrom_marks (ih : Jumping n fuel) (count : Nat) :
    Passing n (argumentsFrom (fuel + 1) count) ExprsMarked := by
  refine noteIf_marks (by nofun) (ih.conditional.bind fun e es he =>
    Passing.accept.behind fun comma => ?_)
  cases comma with
  | true =>
    exact (ih.argumentsFrom (count + 1)).bind fun more es' hm => .pure fun p =>
      (he _).left.append (hm _).left.right
  | false => exact .pure fun p => (he _).left.append .nil

theorem parametersFrom_marks (fuel count : Nat) :
    Passing n (parametersFrom fuel count) Nothing := by
  induction fuel generalizing count with
  | zero => exact .exhaust
  | succ fuel ih =>
    refine noteIf_marks (by nofun) (Passing.expectName.behind fun param =>
      Passing.accept.behind fun comma => ?_)
    cases comma with
    | true => exact (ih (count + 1)).behind fun more => .pure rfl
    | false => exact .pure rfl

theorem parameters_marks (fuel : Nat) (role : Role) :
    Passing n (parameters fuel role) Nothing :=
  ((parametersFrom_marks fuel 0).unlessAt _ rfl fun _ _ h => h).behind fun _ =>
    Passing.expect.behind fun _ => Passing.expect.behind fun _ => .pure rfl

theorem code_marked {body : List RawStmt} {es : List Passed} (hb : StmtsMarked 0 body es)
    (p : Position) (params : List Name) : Marked es ((p, .code params body) ::
      stmtsNodes ((p.function params body).child 0) body) :=
  (hb ((p.function params body).child 0) rfl).node nofun

theorem primary_marks (ih : Jumping n fuel) (ih₀ : Jumping 0 fuel) :
    Passing n (primary (fuel + 1)) ExprMarked := by
  refine .peek_bind .stop fun t => ?_
  dsimp only
  split
  · exact Passing.advance_bind (.pure fun p => .leaf nofun)
  · exact Passing.advance_bind (.pure fun p => .leaf nofun)
  · exact Passing.advance_bind (.pure fun p => .leaf nofun)
  · exact Passing.advance_bind (.pure fun p => .leaf nofun)
  · exact Passing.advance_bind (.pure fun p => .leaf nofun)
  · exact Passing.advance_bind (.pure fun p => .leaf nofun)
  · exact Passing.advance_bind (.pure fun p => .leaf nofun)
  · exact Passing.advance_bind (ih.expression.bind fun e es he => Passing.expect.behind fun _ =>
      .pure fun p => ((he _).left).node nofun)
  · exact Passing.advance_bind (Passing.expect.behind fun _ => (parameters_marks fuel _).behind
      fun params => (Passing.outsideLoops ih₀.blockBody).bind fun body es hb => .pure fun p =>
        (code_marked hb (p.child 0) params).left.node nofun)
  · exact Passing.stop.from_ t

theorem append_marked {first : Option RawStmt} {more : List RawStmt} {es es' : List Passed}
    (hf : StmtsMarked n first.toList es) (hm : StmtsMarked n more es') :
    StmtsMarked n (first.toList ++ more) (es ++ es') := by
  intro p hp
  cases first with
  | none => exact (hm p hp).right
  | some s =>
    have head : Marked es (stmtNodes (p.child 0) s) := fun x hx =>
      hf p hp x (List.mem_append_left _ hx)
    exact head.left.append (hm ((p.after s).child 1) ((p.after_inLoop s).trans hp)).right

theorem blockBody_marks (ih : Jumping n fuel) :
    Passing n (blockBody (fuel + 1)) (StmtsMarked n) := by
  refine Passing.atEnd.behind fun ended => Passing.at_.behind fun brace => ?_
  cases ended || brace with
  | true => exact Passing.expect.behind fun _ => .pure fun p _ => .nil
  | false =>
    refine ih.declaration.bind fun first es hf => ih.blockBody.bind fun more es' hm => .pure ?_
    rw [List.append_nil]
    exact append_marked hf hm

theorem declaration_marks (ih : Jumping n fuel) :
    Passing n (declaration (fuel + 1)) fun s => StmtsMarked n s.toList :=
  ih.declared.recovering (fun _ _ _ => .nil) fun _ _ hs p hp => (hs (p.child 0) hp).append .nil

theorem named_marks (ih₀ : Jumping 0 fuel) (role : Role) :
    Passing n (named (fuel + 1) role) CodeMarked :=
  Passing.expectName.behind fun _ => Passing.expect.behind fun _ =>
    (parameters_marks fuel role).behind fun _ => (Passing.outsideLoops ih₀.blockBody).bind
      fun _ _ hb => .pure fun p hp => (hb p hp).left

theorem methodList_marks (ih : Jumping n fuel) :
    Passing n (methodList (fuel + 1)) MethodsMarked := by
  refine Passing.atEnd.behind fun ended => Passing.at_.behind fun brace => ?_
  cases ended || brace with
  | true => exact .pure fun _ => .nil
  | false =>
    exact (ih.named .method).bind fun code es hc => ih.methodList.bind fun ms es' hm =>
      .pure fun p => (code_marked hc (p.child 0) code.2.1).left.append (hm _).left.right

theorem variableDeclaration_marks (ih : Jumping n fuel) :
    Passing n (variableDeclaration (fuel + 1)) (StmtMarked n) := by
  have rest : ∀ (name : Name) (value : Option RawExpr) (es : List Passed), OptionMarked value es →
      Passing n (expect .semicolon .afterVariable >>= fun _ => pure (Stmt.var name value))
        fun s es' => StmtMarked n s (es ++ es') := by
    intro name value es hv
    refine Passing.expect.behind fun _ => .pure fun p _ => ?_
    cases value with
    | none => exact .leaf nofun
    | some e => exact (hv e rfl _).left.node nofun
  refine Passing.advance.behind fun _ => Passing.expectName.behind fun name =>
    Passing.accept.behind fun equal => ?_
  cases equal with
  | true =>
    have value : Passing n (some <$> expression fuel) OptionMarked :=
      ih.expression.map fun e es he _ ha => by cases ha; exact he
    exact value.bind fun value es hv => rest name value es hv
  | false => exact rest name none [] nofun

theorem declared_marks (ih : Jumping n fuel) :
    Passing n (declared (fuel + 1)) (StmtMarked n) := by
  refine Passing.accept.behind fun isClass => ?_
  cases isClass with
  | true =>
    exact Passing.expectName.behind fun name => Passing.expect.behind fun _ =>
      ih.methodList.bind fun ms es hm => Passing.expect.behind fun _ =>
        .pure fun p _ => (hm _).left.node nofun
  | false =>
    refine Passing.at_.behind fun isFunction => Passing.nameFollows.behind fun named => ?_
    cases isFunction && named with
    | true =>
      exact Passing.advance.behind fun _ => (ih.named .function).bind fun code es hc =>
        .pure fun p _ => (code_marked hc _ code.2.1).left.node nofun
    | false =>
      refine Passing.at_.behind fun isVar => ?_
      cases isVar with
      | true => exact ih.variableDeclaration
      | false => exact ih.statement

theorem expressionStatement_marks (ih : Jumping n fuel) :
    Passing n (expressionStatement (fuel + 1)) (StmtMarked n) :=
  ih.expression.bind fun _ _ he => Passing.expect.behind fun _ =>
    .pure fun _ _ => (he _).left.node nofun

/-! The body of a loop is read with one more loop around, and stands in the tree in the body of a
while-loop, with the increment behind it if there is one. -/

theorem while_marked {condition : RawExpr} {body : RawStmt} {es : List Passed}
    (hc : ExprMarked condition es) (hb : StmtMarked (n + 1) body es) :
    StmtMarked n (.while_ condition body) es := by
  intro p _
  have inside : Around (n + 1) (p.loop.child 1) := (decide_eq_true (Nat.succ_ne_zero n)).symm
  exact ((hc (p.child 0)).append (hb _ inside)).node nofun

theorem step_marked {body : RawStmt} {increment : RawExpr} {es : List Passed}
    (hb : StmtMarked n body es) (hi : ExprMarked increment es) :
    StmtMarked n (.step body increment) es := fun p hp =>
  ((hb ((p.opened [] []).child 0) hp).append (hi ((p.opened [] []).child 1))).node nofun

/-- A loop behind its initializer, if there is one. -/
theorem initialized_marked {initial : Option RawStmt} {loop : RawStmt} {es : List Passed}
    (hi : ∀ s ∈ initial, StmtMarked n s es) (hl : StmtMarked n loop es) :
    StmtMarked n ((initial.map fun s => .block [s, loop]).getD loop) es := by
  cases initial with
  | none => exact hl
  | some s =>
    intro p hp
    have head := hi s rfl (((p.block [s, loop]).child 0).child 0) hp
    have tail := hl (((((p.block [s, loop]).child 0).after s).child 1).child 0)
      ((Position.after_inLoop _ s).trans hp)
    exact (head.append (tail.append .nil)).node nofun

theorem forLoop_marked {initial : Option RawStmt} {condition increment : Option RawExpr}
    {body : RawStmt} {es : List Passed} (hi : ∀ s ∈ initial, StmtMarked n s es)
    (hc : OptionMarked condition es) (hs : OptionMarked increment es)
    (hb : StmtMarked (n + 1) body es) :
    StmtMarked n (.forLoop initial condition increment body) es := by
  have test : ExprMarked (condition.getD (.literal (.bool true))) es := by
    cases condition with
    | none => exact fun p => .leaf nofun
    | some e => exact hc e rfl
  cases increment with
  | none => cases initial <;> exact initialized_marked hi (while_marked test hb)
  | some e =>
    cases initial <;> exact initialized_marked hi (while_marked test (step_marked hb (hs e rfl)))

theorem unless_marks (ih : Jumping n fuel) (kind : Kind) :
    Passing n (unlessAt kind (expression fuel)) OptionMarked :=
  ih.expression.unlessAt kind nofun fun _ _ he _ ha => by cases ha; exact he

theorem forStatement_marks (ih : Jumping n fuel) (inside : Jumping (n + 1) fuel) :
    Passing n (forStatement (fuel + 1)) (StmtMarked n) := by
  have rest : ∀ (initial : Option RawStmt) (es : List Passed),
      (∀ s ∈ initial, StmtMarked n s es) →
      Passing n (do
        let condition ← unlessAt (.symbol .semicolon) (expression fuel)
        let _ ← expect .semicolon .afterLoopCondition
        let increment ← unlessAt (.symbol .rightParen) (expression fuel)
        let _ ← expect .rightParen .afterForClauses
        let body ← insideLoop (statement fuel)
        pure (.forLoop initial condition increment body)) fun s es' => StmtMarked n s (es ++ es') := by
    intro initial es hi
    refine (unless_marks ih _).bind fun condition es₁ hc => Passing.expect.behind fun _ =>
      (unless_marks ih _).bind fun increment es₂ hs => Passing.expect.behind fun _ =>
        (Passing.insideLoop inside.statement).bind fun body es₃ hb => .pure ?_
    rw [List.append_nil]
    exact forLoop_marked (fun s h p hp => (hi s h p hp).left)
      (fun e h p => (hc e h p).left.right) (fun e h p => (hs e h p).left.right.right)
      fun p hp => (hb p hp).right.right.right
  have clause : ∀ {x : Reading RawStmt}, Passing n x (StmtMarked n) →
      Passing n (some <$> x) fun a es => ∀ s ∈ a, StmtMarked n s es :=
    fun h => h.map fun s es hs _ ha => by cases ha; exact hs
  refine Passing.expect.behind fun _ => Passing.accept.behind fun empty => ?_
  cases empty with
  | true => exact rest none [] nofun
  | false =>
    refine Passing.at_.behind fun isVar => ?_
    cases isVar with
    | true =>
      exact (clause ih.variableDeclaration).bind fun initial es hi => rest initial es hi
    | false =>
      exact (clause ih.expressionStatement).bind fun initial es hi => rest initial es hi

/-- A jump stands in the tree where it was passed. -/
theorem jump_marks {t : Token} {jump : Jump} (ht : jumpOf? t = some (jump, t.line)) :
    PassingFrom n t (advance >>= fun _ => jumpStatement jump t.line) (StmtMarked n) := by
  intro r hn hr
  refine .behind (.refl r) (Passing.jumpStatement ht r hn hr) ?_
  rintro s es ⟨rfl, rfl⟩ p hp x hx jump' line hnode
  cases List.mem_singleton.mp hx
  cases hnode
  rw [hp]
  simp

theorem statement_marks (ih : Jumping n fuel) (inside : Jumping (n + 1) fuel) :
    Passing n (statement (fuel + 1)) (StmtMarked n) := by
  refine .peek_bind ih.expressionStatement fun t => ?_
  dsimp only
  split
  · exact Passing.advance_bind (ih.expression.bind fun e es he => Passing.expect.behind fun _ =>
      .pure fun p _ => (he _).left.node nofun)
  · exact Passing.advance_bind ih.forStatement
  · refine Passing.advance_bind (Passing.expect.behind fun _ => ih.expression.bind
      fun condition es hc => Passing.expect.behind fun _ => ih.statement.bind fun yes es₁ hy =>
        Passing.accept.behind fun hasElse => ?_)
    cases hasElse with
    | true =>
      have no : Passing n (some <$> statement fuel)
          fun a es => ∃ s, a = some s ∧ StmtMarked n s es :=
        ih.statement.map fun s es hs => ⟨s, rfl, hs⟩
      refine no.bind fun a es₂ hn => .pure fun p hp => ?_
      obtain ⟨s, rfl, hn⟩ := hn
      rw [List.append_nil]
      exact (((hc (p.child 0)).left.append (hy (p.child 1) hp).left.right).append
        (hn (p.child 2) hp).right.right).node nofun
    | false =>
      exact .pure fun p hp => ((hc (p.child 0)).left.append (hy (p.child 1) hp).left.right).node nofun
  · refine Passing.advance_bind ((unless_marks ih _).bind fun value es hv =>
      Passing.expect.behind fun _ => .pure fun p _ => ?_)
    cases value with
    | none => exact .leaf nofun
    | some e => exact (hv e rfl _).left.node nofun
  · refine Passing.advance_bind (Passing.expect.behind fun _ => ih.expression.bind
      fun condition es hc => Passing.expect.behind fun _ =>
        (Passing.insideLoop inside.statement).bind fun body es₁ hb => .pure ?_)
    rw [List.append_nil]
    exact while_marked (fun p => (hc p).left) fun p hp => (hb p hp).right
  · rename_i hk
    exact jump_marks (by rw [jumpOf?, hk])
  · rename_i hk
    exact jump_marks (by rw [jumpOf?, hk])
  · exact Passing.advance_bind (ih.blockBody.bind fun body es hb => .pure fun p hp =>
      (hb ((p.block body).child 0) hp).left.node nofun)
  · exact ih.expressionStatement.from_ t

/-- Whatever the fuel and however many loops are around. -/
theorem jumping (n fuel : Nat) : Jumping n fuel := by
  induction fuel generalizing n with
  | zero => exact jumping_zero n
  | succ fuel ih =>
    exact
      { expression := expression_marks (ih n)
        sequenceTail := sequenceTail_marks (ih n)
        conditional := conditional_marks (ih n)
        assignment := assignment_marks (ih n)
        operation := operation_marks (ih n)
        operationTail := operationTail_marks (ih n)
        operand := operand_marks (ih n)
        unary := unary_marks (ih n)
        callTail := callTail_marks (ih n)
        argumentsFrom := argumentsFrom_marks (ih n)
        primary := primary_marks (ih n) (ih 0)
        blockBody := blockBody_marks (ih n)
        declaration := declaration_marks (ih n)
        declared := declared_marks (ih n)
        named := named_marks (ih 0)
        methodList := methodList_marks (ih n)
        variableDeclaration := variableDeclaration_marks (ih n)
        expressionStatement := expressionStatement_marks (ih n)
        statement := statement_marks (ih n) (ih (n + 1))
        forStatement := forStatement_marks (ih n) (ih (n + 1)) }

theorem declarations_marks (fuel : Nat) : Passing n (declarations fuel) (StmtsMarked n) := by
  induction fuel with
  | zero => exact .exhaust
  | succ fuel ih =>
    refine Passing.atEnd.behind fun ended => ?_
    cases ended with
    | true => exact .pure fun _ _ => .nil
    | false =>
      refine (jumping n fuel).declaration.bind fun first es hf => ih.bind fun more es' hm =>
        .pure ?_
      rw [List.append_nil]
      exact append_marked hf hm

/-- However a declaration is read, and where it recovers from a complaint, the number of loops around
is what it was. -/
theorem declaration_loops (fuel : Nat) (r : Reader) :
    (endState (declaration fuel r)).loops = r.loops := by
  have went := (jumping r.loops fuel).declaration r rfl
  generalize declaration fuel r = rx at went ⊢
  cases went with
  | ok passes => exact passes.loops
  | complaint passes => exact passes.loops
  | exhausted passes => exact passes.loops

/-- Of the jumps whose keywords are among the tokens some were passed. Those are complained of that
were passed as strays, and the jumps of the program are among them. -/
theorem readProgram_jumps (tokens : List Token) (endLine : Nat) :
    ∃ es : List Passed, (es.map Passed.keyword).Sublist (jumpsOf tokens) ∧
      (readProgram tokens endLine).reports.filter isStray = strayReports es ∧
      ∀ number, Marked es (programNodes number (readProgram tokens endLine).statements) := by
  have went := declarations_marks (n := 0) (fuelFor tokens) ⟨tokens, endLine, [], 0⟩ rfl
  have among : ∀ {es s}, Passage es ⟨tokens, endLine, [], 0⟩ s →
      (es.map Passed.keyword).Sublist (jumpsOf tokens) := fun passes =>
    (List.sublist_append_left _ _).trans passes.taken
  simp only [readProgram]
  generalize declarations _ _ = rx at went ⊢
  cases went with
  | @ok a s es passes post =>
    exact ⟨es, among passes, passes.reports, fun number => post (.top number) rfl⟩
  | @complaint report s es passes other =>
    exact ⟨es, among passes, passes.reports, fun _ => .nil⟩
  | @exhausted s es passes => exact ⟨es, among passes, passes.reports, fun _ => .nil⟩

end Script.Grammar
