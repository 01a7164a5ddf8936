import Script.Proofs.Grammar.Earliest
import Script.Proofs.Grammar.Echoes

/-! The readings of the grammar echo.
By induction over the fuel, for all of them at once: an expression ends before what stood behind it,
a statement before anything but an `else`, and what ends with a token of its own before anything. -/
namespace Script.Grammar

structure Echoing (fuel : Nat) : Prop where
  expression : Echoes Anywhere true 1 nothing (expression fuel)
  sequenceTail : ∀ e, Echoes Anywhere true 0 nothing (sequenceTail fuel e)
  conditional : Echoes Anywhere true 1 nothing (conditional fuel)
  assignment : Echoes Anywhere true 1 nothing (assignment fuel)
  operation : ∀ level, Echoes Anywhere true 1 nothing (operation fuel level)
  operationTail : ∀ level e, Echoes Anywhere true 0 nothing (operationTail fuel level e)
  operand : ∀ level, Echoes Anywhere true 1 nothing (operand fuel level)
  unary : Echoes Anywhere true 1 nothing (unary fuel)
  callTail : ∀ e, Echoes Anywhere true 0 nothing (callTail fuel e)
  argumentsFrom : ∀ count, Echoes Anywhere true 1 nothing (argumentsFrom fuel count)
  primary : Echoes Anywhere true 1 anything (primary fuel)
  blockBody : Echoes Anywhere false 1 anything (blockBody fuel)
  declaration : Echoes Anywhere false 0 NoElse (declaration fuel)
  declared : Echoes Anywhere true 2 NoElse (declared fuel)
  named : ∀ role, Echoes Anywhere true 1 anything (named fuel role)
  methodList : Echoes Anywhere true 0 nothing (methodList fuel)
  variableDeclaration : Echoes (ahead · = some (.keyword .var_)) true 2 anything
    (variableDeclaration fuel)
  expressionStatement : Echoes Anywhere true 2 anything (expressionStatement fuel)
  statement : Echoes Anywhere true 2 NoElse (statement fuel)
  forStatement : Echoes Anywhere true 1 NoElse (forStatement fuel)

theorem Echoing.zero : Echoing 0 where
  expression := .exhaust
  sequenceTail _ := .exhaust
  conditional := .exhaust
  assignment := .exhaust
  operation _ := .exhaust
  operationTail _ _ := .exhaust
  operand _ := .exhaust
  unary := .exhaust
  callTail _ := .exhaust
  argumentsFrom _ := .exhaust
  primary := .exhaust
  blockBody := .exhaust
  declaration := .exhaust
  declared := .exhaust
  named _ := .exhaust
  methodList := .exhaust
  variableDeclaration := .exhaust
  expressionStatement := .exhaust
  statement := .exhaust
  forStatement := .exhaust

variable {fuel : Nat}

theorem expression_echoes (ih : Echoing fuel) :
    Echoes Anywhere true 1 nothing (expression (fuel + 1)) :=
  ih.conditional.bind (fun first => ih.sequenceTail first) (by omega) (.inr fun _ => id)

theorem sequenceTail_echoes (ih : Echoing fuel) (earlier : RawExpr) :
    Echoes Anywhere true 0 nothing (sequenceTail (fuel + 1) earlier) := by
  refine .accept_bind (m := 0) (l := 0) ?_ .pure (by omega) (.inr fun _ => False.elim) nofun
  exact ih.conditional.bind (fun last => ih.sequenceTail (.sequence earlier last)) (by omega)
    (.inr fun _ => id)

theorem conditional_echoes (ih : Echoing fuel) :
    Echoes Anywhere true 1 nothing (conditional (fuel + 1)) := by
  refine ih.assignment.bind (l := 0) (fun condition => ?_) (by omega) (.inr fun _ => id)
  refine .accept_bind (m := 0) (l := 0) ?_ .pure (by omega) (.inr fun _ => False.elim) nofun
  refine ih.conditional.bind (l := 1) (fun yes => ?_) (by omega) (.inl (by omega))
  exact .followed (.expect nofun) (fun _ => ih.conditional.bind (fun no => .pure) (Nat.le_refl 1)
    (.inr fun _ => id)) (by omega)

theorem assignTo_echoes (target : RawExpr) (equalLine : Nat) (value : RawExpr) :
    Echoes Anywhere true 0 nothing (assignTo target equalLine value) := by
  cases target with
  | «variable» name site => exact .pure
  | get object property => exact .pure
  | _ => exact .note rfl .pure

theorem assignment_echoes (ih : Echoing fuel) :
    Echoes Anywhere true 1 nothing (assignment (fuel + 1)) := by
  refine (ih.operation .or).bind (l := 0) (fun target => ?_) (by omega) (.inr fun _ => id)
  refine .acceptMeaning_bind (m := 1) (l := 0) (fun _ line => ?_) .pure (by omega)
    (.inr fun _ => False.elim) (if_neg nofun)
  exact ih.conditional.bind (fun value => assignTo_echoes target line value) (Nat.le_refl 1)
    (.inr fun _ => id)

theorem operation_echoes (ih : Echoing fuel) (level : Level) :
    Echoes Anywhere true 1 nothing (operation (fuel + 1) level) :=
  (ih.operand level).bind (fun left => ih.operationTail level left) (by omega) (.inr fun _ => id)

theorem operationTail_echoes (ih : Echoing fuel) (level : Level) (left : RawExpr) :
    Echoes Anywhere true 0 nothing (operationTail (fuel + 1) level left) := by
  refine .acceptMeaning_bind (m := 1) (l := 0) (fun connective line => ?_) .pure (by omega)
    (.inr fun _ => False.elim) (by cases level <;> rfl)
  exact (ih.operand level).bind
    (fun right => ih.operationTail level (connective.join left line right)) (Nat.le_refl 1)
    (.inr fun _ => id)

theorem operand_echoes (ih : Echoing fuel) (level : Level) :
    Echoes Anywhere true 1 nothing (operand (fuel + 1) level) := by
  cases level with
  | factor => exact ih.unary
  | or => exact ih.operation .and
  | and => exact ih.operation .equality
  | equality => exact ih.operation .comparison
  | comparison => exact ih.operation .term
  | term => exact ih.operation .factor

theorem unary_echoes (ih : Echoing fuel) :
    Echoes Anywhere true 1 nothing (unary (fuel + 1)) := by
  refine .acceptMeaning_bind (m := 1) (l := 1) (fun op line => ?_) ?_ (by omega)
    (.inl (Nat.le_refl 1)) rfl
  · exact ih.unary.bind (fun inner => .pure) (Nat.le_refl 1) (.inr fun _ => id)
  · exact ih.primary.followed (fun head => ih.callTail head) (by omega)

theorem callTail_echoes (ih : Echoing fuel) (head : RawExpr) :
    Echoes Anywhere true 0 nothing (callTail (fuel + 1) head) := by
  have arguments : Echoes Anywhere true 0 nothing
      (unlessAt (.symbol .rightParen) (argumentsFrom fuel 0)) := .unlessAt (ih.argumentsFrom 0)
  refine .accept_bind (m := 1) (l := 0) ?_ (.accept_bind (m := 1) (l := 0) ?_ .pure (by omega)
    (.inr fun _ => False.elim) nofun) (by omega) (.inr fun _ => False.elim) nofun
  · exact arguments.bind (l := 1) (fun found => .followed (.expect nofun)
      (fun line => ih.callTail _) (by omega)) (by omega) (.inl (by omega))
  · exact Echoes.expectName.followed (fun property => ih.callTail _) (by omega)

theorem argumentsFrom_echoes (ih : Echoing fuel) (count : Nat) :
    Echoes Anywhere true 1 nothing (argumentsFrom (fuel + 1) count) := by
  have others : Echoes Anywhere true 1 nothing (do
      let argument ← conditional fuel
      if ← accept (.symbol .comma) then
        let more ← argumentsFrom fuel (count + 1)
        pure (argument :: more)
      else pure [argument] : Reading (List RawExpr)) := by
    refine ih.conditional.bind (l := 0) (fun argument => ?_) (by omega) (.inr fun _ => id)
    refine .accept_bind (m := 1) (l := 0) ?_ .pure (by omega) (.inr fun _ => False.elim) nofun
    exact (ih.argumentsFrom (count + 1)).bind (fun more => .pure) (Nat.le_refl 1)
      (.inr fun _ => id)
  exact .ite (.noteHere nofun others (Nat.le_refl 1)) others

theorem parametersFrom_echoes (fuel count : Nat) :
    Echoes Anywhere true 1 nothing (parametersFrom fuel count) := by
  induction fuel generalizing count with
  | zero => exact .exhaust
  | succ fuel ih =>
    have others : Echoes Anywhere true 1 nothing (do
        let param ← expectName .parameterName
        if ← accept (.symbol .comma) then
          let more ← parametersFrom fuel (count + 1)
          pure (param :: more)
        else pure [param] : Reading (List Name)) := by
      refine Echoes.expectName.followed (l := 0) (fun param => ?_) (by omega)
      refine .accept_bind (m := 1) (l := 0) ?_ .pure (by omega) (.inr fun _ => False.elim) nofun
      exact (ih (count + 1)).bind (fun more => .pure) (Nat.le_refl 1) (.inr fun _ => id)
    exact .ite (.noteHere nofun others (Nat.le_refl 1)) others

/-- Parameters and a body, whose brace opens a block. -/
theorem code_echoes {α : Type} (ih : Echoing fuel) (role : Role)
    (f : List Name → List RawStmt → α) : Echoes Anywhere true 3 anything (do
      let params ← parameters fuel role
      let body ← outsideLoops (blockBody fuel)
      pure (f params body)) := by
  have names : Echoes Anywhere true 0 nothing
      (unlessAt (.symbol .rightParen) (parametersFrom fuel 0)) :=
    .unlessAt (parametersFrom_echoes fuel 0)
  have body : Echoes Anywhere false 1 anything (outsideLoops (blockBody fuel)) :=
    ih.blockBody.withLoops
  have begins : BeginsBody (outsideLoops (blockBody fuel)) :=
    (Echoes.blockBody_begins ih.blockBody).withLoops
  simp only [parameters, Rules.parameters, bind_assoc, pure_bind]
  refine names.bind (l := 3) (fun params => ?_) (by omega) (.inl (by omega))
  refine .followed (.expect (by decide)) (l := 2) (fun _ => ?_) (by omega)
  have ends (stmts : List RawStmt) :
      Echoes Anywhere false 0 anything (pure (f (params.getD []) stmts) : Reading α) := .pure
  refine .expect_opening (l := 1) ?_ ?_ (by omega)
  · exact body.followed ends (by omega)
  · exact begins.bind body ends

theorem primary_echoes (ih : Echoing fuel) :
    Echoes Anywhere true 1 anything (primary (fuel + 1)) := by
  refine .peek_bind (fun tokens => ?_) (Nat.le_refl 1)
  cases tokens with
  | nil => exact .stop
  | cons t rest =>
    have next {kind : Kind} (hk : t.kind = kind) (other : kind ≠ .symbol .leftBrace) :
        ∀ tokens, tokens = t :: rest → ∃ u ∈ tokens.head?, u.kind ≠ .symbol .leftBrace := by
      rintro _ rfl
      exact ⟨t, rfl, hk ▸ other⟩
    have literal {kind : Kind} (hk : t.kind = kind) (other : kind ≠ .symbol .leftBrace)
        (e : RawExpr) : Echoes (· = t :: rest) true 1 anything (do advance; pure e) :=
      .advance_bind .pure (Nat.le_refl 1) (next hk other)
    simp only [List.head?_cons]
    cases hk : t.kind with
    | name => exact literal hk nofun _
    | number value => exact literal hk nofun _
    | string text => exact literal hk nofun _
    | keyword k =>
      cases k with
      | false_ => exact literal hk nofun _
      | true_ => exact literal hk nofun _
      | nil_ => exact literal hk nofun _
      | this_ => exact literal hk nofun _
      | fun_ =>
        refine .advance_bind (l := 4) ?_ (by omega) (next hk nofun)
        exact .followed (l := 3) (.expect nofun) (fun _ => code_echoes ih .function Expr.function)
          (by omega)
      | _ => exact .stop
    | symbol s =>
      cases s with
      | leftParen =>
        refine .advance_bind (l := 1) ?_ (by omega) (next hk nofun)
        exact ih.expression.bind (l := 1) (fun _ => .followed (.expect nofun) (fun _ => .pure)
          (by omega)) (by omega) (.inl (by omega))
      | _ => exact .stop

theorem blockBody_echoes (ih : Echoing fuel) :
    Echoes Anywhere false 1 anything (blockBody (fuel + 1)) := by
  refine .ends_bind (m := 1) (l := 1) ?_ ?_ (by omega) (.inl (by omega))
  · exact .followed (.expect nofun) (fun _ => .pure) (by omega)
  · exact ih.declaration.bind (l := 1) (fun _ =>
      ih.blockBody.followed (l := 0) (fun _ => .pure) (by omega)) (by omega) (.inl (by omega))

theorem declaration_echoes (ih : Echoing fuel) :
    Echoes Anywhere false 0 NoElse (declaration (fuel + 1)) := ih.declared.recovering

theorem named_echoes (ih : Echoing fuel) (role : Role) :
    Echoes Anywhere true 1 anything (named (fuel + 1) role) := by
  refine Echoes.expectName.followed (l := 4) (fun name => ?_) (by omega)
  refine .followed (.expect nofun) (l := 3) (fun _ => ?_) (by omega)
  exact code_echoes ih role fun params body => (name, params, body)

theorem methodList_echoes (ih : Echoing fuel) :
    Echoes Anywhere true 0 nothing (methodList (fuel + 1)) := by
  refine .ends_bind (m := 0) (l := 1) .pure ?_ (by omega) (.inr fun _ => id)
  exact (ih.named .method).followed (l := 0)
    (fun _ => ih.methodList.bind (fun _ => .pure) (Nat.le_refl 0) (.inr fun _ => id)) (by omega)

theorem variableDeclaration_echoes (ih : Echoing fuel) :
    Echoes (ahead · = some (.keyword .var_)) true 2 anything (variableDeclaration (fuel + 1)) := by
  refine .advance_bind (l := 2) ?_ (by omega) fun _ h => Echoes.head_of_ahead h nofun
  have ends (initial : Option RawExpr) (name : Name) : Echoes Anywhere true 1 anything (do
      let _ ← expect .semicolon .afterVariable
      pure (.var name initial) : Reading RawStmt) :=
    .followed (.expect nofun) (fun _ => .pure) (by omega)
  refine Echoes.expectName.followed (l := 1) (fun name => ?_) (by omega)
  refine .accept_bind (m := 2) (l := 1) ?_ ?_ (by omega) (.inl (by omega)) nofun
  · exact ih.expression.map.bind (l := 1) (fun initial => ends initial name) (by omega)
      (.inl (by omega))
  · exact Echoes.pure.followed (fun initial => ends initial name) (by omega)

theorem expressionStatement_echoes (ih : Echoing fuel) :
    Echoes Anywhere true 2 anything (expressionStatement (fuel + 1)) :=
  ih.expression.bind (l := 1) (fun _ => .followed (.expect nofun) (fun _ => .pure) (by omega))
    (by omega) (.inl (by omega))

theorem condition_echoes (ih : Echoing fuel) {x : RawExpr → Reading RawStmt} {k : Nat}
    {landmark landmark' : Landmark} (h : ∀ e, Echoes Anywhere true k NoElse (x e)) :
    Echoes Anywhere true (k + 3) NoElse (do
      let _ ← expect .leftParen landmark
      let e ← expression fuel
      let _ ← expect .rightParen landmark'
      x e) := by
  refine .followed (.expect nofun) (l := k + 2) (fun _ => ?_) (by omega)
  exact ih.expression.bind (l := k + 1) (fun e => .followed (.expect nofun) (fun _ => h e)
    (by omega)) (by omega) (.inl (by omega))

/-- A jump is complained of where it is in no loop, so it is read within as many loops only. -/
theorem jump_echoes (jump : Jump) (line : Nat) :
    Echoes (ahead · = some (.keyword jump.keyword)) true 2 anything (do
      advance
      jumpStatement jump line) := by
  intro r hr
  obtain ⟨t, rest, hs, hk⟩ := exists_cons_of_ahead hr
  obtain ⟨_, endLine, reports, loops⟩ := r
  cases hs
  let ends : Reading RawStmt := do
    let _ ← expect .semicolon (.afterKeyword jump.keyword)
    pure (.jump jump line)
  let behind : Reading RawStmt := do
    if loops = 0 then note ⟨line, .atToken jump.keyword.spelling, .strayJump jump⟩
    ends
  have echoes : Echoes Anywhere true 1 anything ends :=
    .followed (.expect nofun) (fun _ => .pure) (by omega)
  have whole : Echoes Anywhere true 1 anything behind := .ite (.note rfl echoes) echoes
  have leads (tail : List Token) : Leads loops (do
      advance
      jumpStatement jump line) (t :: tail) tail behind :=
    Leads.advance.bind (Leads.loopsAround.bind .refl)
  rw [leads]
  refine (whole _ trivial).led (r := ⟨t :: rest, endLine, reports, loops⟩) [t] rfl
    (fun loops' hl tail _ => ?_) (fun hc _ => hc) ?_
  · obtain rfl : loops' = loops := hl.resolve_right fun none => none t (by simp) jump hk
    exact leads tail
  · intro outer brace inside hf opening
    exact absurd (braceless_one (by rw [hk]; nofun)) (opening.not_braceless hf)

theorem statement_echoes (ih : Echoing fuel) :
    Echoes Anywhere true 2 NoElse (statement (fuel + 1)) := by
  refine .peek_bind (fun tokens => ?_) (by decide)
  have expression {P : List Token → Prop} : Echoes P true 2 NoElse (expressionStatement fuel) :=
    ih.expressionStatement.ends.within
  cases tokens with
  | nil => exact expression
  | cons t rest =>
    have next {kind : Kind} (hk : t.kind = kind) (other : kind ≠ .symbol .leftBrace) :
        ∀ tokens, tokens = t :: rest → ∃ u ∈ tokens.head?, u.kind ≠ .symbol .leftBrace := by
      rintro _ rfl
      exact ⟨t, rfl, hk ▸ other⟩
    have same {kind : Kind} (hk : t.kind = kind) :
        ∀ tokens, tokens = t :: rest → ahead tokens = some kind := by
      rintro _ rfl
      exact congrArg some hk
    simp only [List.head?_cons]
    cases hk : t.kind with
    | keyword k =>
      cases k with
      | print_ =>
        refine .advance_bind (l := 2) ?_ (by omega) (next hk nofun)
        exact ih.expression.bind (l := 1) (fun _ => .followed (.expect nofun) (fun _ => .pure)
          (by omega)) (by omega) (.inl (by omega))
      | for_ => exact .advance_bind ih.forStatement (by omega) (next hk nofun)
      | if_ =>
        refine .advance_bind (condition_echoes ih (k := 2) fun e => ?_) (by omega) (next hk nofun)
        refine ih.statement.bind (l := 0) (fun yes => ?_) (by omega) (.inr fun _ => id)
        refine .accept_bind (m := 2) (l := 0) ?_ ?_ (by omega) (.inr fun _ => id) nofun
        · exact ih.statement.map.bind (l := 0) (fun _ => .pure) (by omega) (.inr fun _ => id)
        · exact Echoes.bind (k := 0) (l := 0) .pure (fun _ => .pure) (by omega) (.inr fun _ => id)
      | return_ =>
        refine .advance_bind (l := 1) ?_ (by omega) (next hk nofun)
        exact (Echoes.unlessAt ih.expression).bind (l := 1) (fun _ => .followed (.expect nofun)
          (fun _ => .pure) (by omega)) (by omega) (.inl (by omega))
      | while_ =>
        refine .advance_bind (condition_echoes ih (k := 2) fun e => ?_) (by omega) (next hk nofun)
        exact ih.statement.withLoops.bind (l := 0) (fun _ => .pure) (by omega) (.inr fun _ => id)
      | break_ => exact ((jump_echoes .break_ t.line).restrict (same hk)).ends
      | continue_ => exact ((jump_echoes .continue_ t.line).restrict (same hk)).ends
      | _ => exact expression
    | symbol s =>
      cases s with
      | leftBrace =>
        have ends (body : List RawStmt) :
            Echoes Anywhere false 0 NoElse (pure (.block body) : Reading RawStmt) := .pure
        refine .restrict (.opening_bind (l := 1) ?_ ?_ (by omega)) (same hk)
        · exact ih.blockBody.followed ends (by omega)
        · exact (Echoes.blockBody_begins ih.blockBody).bind ih.blockBody ends
      | _ => exact expression
    | _ => exact expression

theorem forStatement_echoes (ih : Echoing fuel) :
    Echoes Anywhere true 1 NoElse (forStatement (fuel + 1)) := by
  let behind (initial : Option RawStmt) : Reading RawStmt := do
    let condition ← unlessAt (.symbol .semicolon) (expression fuel)
    let _ ← expect .semicolon .afterLoopCondition
    let increment ← unlessAt (.symbol .rightParen) (expression fuel)
    let _ ← expect .rightParen .afterForClauses
    let body ← insideLoop (statement fuel)
    pure (.forLoop initial condition increment body)
  have clause (kind : Kind) : Echoes Anywhere true 0 nothing (unlessAt kind (expression fuel)) :=
    .unlessAt ih.expression
  have clauses (initial : Option RawStmt) : Echoes Anywhere true 1 NoElse (behind initial) := by
    refine (clause _).bind (l := 1) (fun _ => ?_) (by omega) (.inl (by omega))
    refine .followed (.expect nofun) (l := 0) (fun _ => ?_) (by omega)
    refine (clause _).bind (l := 1) (fun _ => ?_) (by omega) (.inl (by omega))
    refine .followed (.expect nofun) (l := 2) (fun _ => ?_) (by omega)
    exact ih.statement.withLoops.bind (l := 0) (fun _ => .pure) (by omega) (.inr fun _ => id)
  refine .followed (.expect nofun) (l := 1) (fun _ => ?_) (by omega)
  refine .accept_bind (m := 1) (l := 1) ?_ (.at_bind ?_ ?_ (by omega)) (by omega) (.inl (by omega))
    nofun
  · exact Echoes.pure.followed clauses (by omega)
  · exact ih.variableDeclaration.map.followed clauses (by omega)
  · exact ih.expressionStatement.map.followed clauses (by omega)

theorem plain_echoes (ih : Echoing fuel) : Echoes Anywhere true 2 NoElse (plain fuel) :=
  .at_bind ih.variableDeclaration.ends ih.statement (by decide)

theorem namedFunction_echoes (ih : Echoing fuel) :
    Echoes Anywhere true 1 anything (namedFunction fuel) :=
  (ih.named .function).followed (fun _ => .pure) (by omega)

/-- With no name behind the keyword, a statement is read. It takes both of the tokens looked at. -/
theorem atFunction_echoed {t : Token} {rest : List Token} {r : Reader}
    {result : EStateM.Result Stop Reader RawStmt} (hr : r.rest = t :: rest)
    (ht : t.kind = .keyword .fun_) (hn : Next (· ≠ .name) rest)
    (h : Echoed true 2 NoElse (plain fuel) r result) :
    Echoed true 2 NoElse (atFunction fuel) r result := by
  have leads (tail : List Token) (same : tail.head? = rest.head?) (loops : Nat) :
      Leads loops (atFunction fuel) (t :: tail) (t :: tail) (plain fuel) :=
    (Leads.nameFollows_no fun u hu => hn u (same ▸ hu)).bind .refl
  cases h with
  | exhausted => exact .exhausted
  | ok taken rest' added split many quiet again enters =>
    obtain ⟨t', taken, rfl⟩ := List.exists_cons_of_ne_nil
      (List.ne_nil_of_length_pos (Nat.lt_of_lt_of_le Nat.zero_lt_two many))
    obtain ⟨rfl, behind⟩ := List.cons.inj (hr.symm.trans split)
    replace behind : rest = taken ++ rest' := behind
    have some : taken ≠ [] := List.ne_nil_of_length_pos (Nat.lt_of_succ_lt_succ many)
    refine .ok (t :: taken) rest' added split many quiet (fun none loops hl tail htail => ?_) ?_
    · exact (leads _ (behind ▸ head?_append_of (.inl some)) loops).trans
        (again none loops hl tail htail)
    · intro clean outer brace inside hb opening
      cases outer with
      | nil =>
        obtain ⟨rfl, -⟩ := List.cons.inj hb
        exact absurd (ht.symm.trans opening.kind) nofun
      | cons u outer =>
        obtain ⟨rfl, hb'⟩ := List.cons.inj hb
        replace hb' : taken = outer ++ brace :: inside := hb'
        have next (tail : List Token) : (outer ++ [brace] ++ tail).head? = rest.head? := by
          rw [behind, hb', List.append_assoc, List.append_assoc]
          exact head?_append_of (.inr rfl)
        exact (enters clean (t :: outer) brace inside hb opening).led []
          fun tail => leads _ (next tail) r.loops
  | complaint taken rest' added missing split quiet again =>
    refine .complaint taken rest' added missing split quiet fun none terminated loops hl more => ?_
    have same : (rest ++ more).head? = rest.head? := by
      refine List.head?_append_of_ne_nil _ ?_
      rintro rfl
      have whole : Terminated r.rest := split ▸ terminated.before
      rw [hr] at whole
      obtain ⟨_, ⟨⟩, hk⟩ := whole
      exact absurd (ht.symm.trans hk) nofun
    have behind := again none terminated loops hl more
    rw [hr] at behind ⊢
    exact (leads _ same loops).trans behind

theorem atFunction_echoes (ih : Echoing fuel) :
    Echoes (ahead · = some (.keyword .fun_)) true 2 NoElse (atFunction fuel) := by
  intro r hr
  obtain ⟨t, rest, split, ht⟩ := exists_cons_of_ahead hr
  obtain ⟨_, endLine, reports, loops⟩ := r
  cases split
  by_cases hn : Next (· ≠ .name) rest
  · have same : Leads loops (atFunction fuel) (t :: rest) (t :: rest) (plain fuel) :=
      (Leads.nameFollows_no hn).bind .refl
    rw [same endLine reports]
    exact atFunction_echoed rfl ht hn (plain_echoes ih _ trivial)
  · obtain ⟨u, hu, hk⟩ : ∃ u ∈ rest.head?, u.kind = .name := by
      simpa only [Next, not_forall, not_not, exists_prop] using hn
    have leads (tail : List Token) (same : tail.head? = rest.head?) (loops : Nat) :
        Leads loops (atFunction fuel) (t :: tail) tail (namedFunction fuel) := by
      obtain ⟨others, rfl⟩ := List.head?_eq_some_iff.mp (same.trans hu)
      exact (Leads.nameFollows_yes hk).bind (Leads.advance.bind .refl)
    rw [leads rest rfl]
    have echo : Echoed true 1 NoElse (namedFunction fuel) ⟨rest, endLine, reports, loops⟩ _ :=
      (namedFunction_echoes ih).ends _ trivial
    refine echo.led (r := ⟨t :: rest, endLine, reports, loops⟩) [t] rfl
      (fun loops _ tail same => leads tail (same (Nat.le_refl 1)) loops)
      (fun hc _ => hc) ?_
    intro outer brace inside hf opening
    exact absurd (braceless_one (by simp [ht])) (opening.not_braceless hf)

theorem declared_echoes (ih : Echoing fuel) :
    Echoes Anywhere true 2 NoElse (declared (fuel + 1)) := by
  refine .accept_bind (m := 2) (l := 2) ?_ ?_ (by omega) (.inl (by decide)) nofun
  · refine .className_bind (l := 0) (fun name => ?_) (by omega)
    exact ih.methodList.stirred.bind (l := 1) (fun _ => .followed (.expect nofun) (fun _ => .pure)
      (Nat.le_refl 1)) (by omega) (.inl (Nat.le_refl 1))
  · exact .at_bind (atFunction_echoes ih) (plain_echoes ih) (by decide)

theorem echoing (fuel : Nat) : Echoing fuel := by
  induction fuel with
  | zero => exact .zero
  | succ fuel ih =>
    exact
      { expression := expression_echoes ih
        sequenceTail := sequenceTail_echoes ih
        conditional := conditional_echoes ih
        assignment := assignment_echoes ih
        operation := operation_echoes ih
        operationTail := operationTail_echoes ih
        operand := operand_echoes ih
        unary := unary_echoes ih
        callTail := callTail_echoes ih
        argumentsFrom := argumentsFrom_echoes ih
        primary := primary_echoes ih
        blockBody := blockBody_echoes ih
        declaration := declaration_echoes ih
        declared := declared_echoes ih
        named := named_echoes ih
        methodList := methodList_echoes ih
        variableDeclaration := variableDeclaration_echoes ih
        expressionStatement := expressionStatement_echoes ih
        statement := statement_echoes ih
        forStatement := forStatement_echoes ih }

theorem declarations_echoes (fuel : Nat) :
    Echoes Anywhere false 0 nothing (declarations fuel) := by
  induction fuel with
  | zero => exact .exhaust
  | succ fuel ih =>
    refine .atEnd_bind (m := 0) (l := 0) .pure ?_ (by omega) fun _ => id
    exact (echoing fuel).declaration.bind (l := 0) (fun found => ih.bind (l := 0) (fun _ => .pure)
      (by omega) (.inr fun _ => id)) (by omega) (.inr fun _ => False.elim)

end Script.Grammar
