import Script.Proofs.Grammar.Expressions

/-! Reading a statement that was written.
Which reading a statement is sent to depends on its first token, and for the keyword of a function
on the one behind it. -/
namespace Script.Grammar

open Lexical

/-- A written statement begins with a token that neither goes on with the statement before it nor
closes the block around it. What declares nothing does not begin like a declaration. -/
structure StmtBegins (s : RawStmt) (t : Token) (more : List Token) : Prop where
  eq : writeStmt s = t :: more
  else_ : t.kind ≠ .keyword .else_
  brace : t.kind ≠ .symbol .rightBrace
  class_ : declared? s = none → t.kind ≠ .keyword .class_
  var : declared? s = none → t.kind ≠ .keyword .var_
  function : declared? s = none → t.kind = .keyword .fun_ →
    ∃ u others, more = u :: others ∧ u.kind ≠ .name

theorem writeStmt_begins_expression {e : RawExpr} (h : ProperExpr e) :
    ∃ t more, StmtBegins (.expression e) t more := by
  obtain ⟨t, more, hb⟩ := writeExpr_begins e h
  have other : ∀ {k : Kind}, beginsExpr k = false → t.kind ≠ k := by
    rintro k hk rfl
    rw [hb.begins] at hk
    cases hk
  refine ⟨t, more ++ [symbol .semicolon], ?_, other rfl, other rfl, fun _ => other rfl,
    fun _ => other rfl, fun _ hf => ?_⟩
  · rw [writeStmt, hb.eq]
    rfl
  · obtain ⟨u, others, rfl, hu⟩ := hb.function hf
    exact ⟨u, others ++ [symbol .semicolon], rfl, hu⟩

theorem writeStmt_begins {inLoop : Bool} {s : RawStmt} (h : ProperStmt inLoop s) :
    ∃ t more, StmtBegins s t more := by
  cases s with
  | expression e => exact writeStmt_begins_expression h
  | var name initial =>
    cases initial <;> exact ⟨_, _, rfl, nofun, nofun, nofun, nofun, nofun⟩
  | step increment line => exact h.elim
  | if_ condition yes no =>
    cases no <;>
      exact ⟨_, _, rfl, nofun, nofun, fun _ => nofun, fun _ => nofun, fun _ => nofun⟩
  | jump jump line =>
    cases jump <;>
      exact ⟨_, _, rfl, nofun, nofun, fun _ => nofun, fun _ => nofun, fun _ => nofun⟩
  | function name params body => exact ⟨_, _, rfl, nofun, nofun, nofun, nofun, nofun⟩
  | return_ line value =>
    cases value <;>
      exact ⟨_, _, rfl, nofun, nofun, fun _ => nofun, fun _ => nofun, fun _ => nofun⟩
  | class_ name methods => exact ⟨_, _, rfl, nofun, nofun, nofun, nofun, nofun⟩
  | _ => exact ⟨_, _, rfl, nofun, nofun, fun _ => nofun, fun _ => nofun, fun _ => nofun⟩

theorem writeStmt_length {inLoop : Bool} {s : RawStmt} (h : ProperStmt inLoop s) :
    1 ≤ (writeStmt s).length := by
  obtain ⟨t, more, hb⟩ := writeStmt_begins h
  rw [hb.eq]
  exact Nat.succ_pos _

theorem writeStmts_else {inLoop : Bool} {ss : List RawStmt} (h : ProperStmts inLoop ss)
    {rest : List Token} (hrest : Next (· ≠ .keyword .else_) rest) :
    Next (· ≠ .keyword .else_) (writeStmts ss ++ rest) := by
  cases ss with
  | nil => exact hrest
  | cons s ss =>
    obtain ⟨t, more, hb⟩ := writeStmt_begins h.1
    simp only [writeStmts, hb.eq]
    exact Next.cons hb.else_

/-- What follows does not belong to an `if` at the end of the statement. -/
def Closed (s : RawStmt) (rest : List Token) : Prop :=
  s.endsOpen = true → Next (· ≠ .keyword .else_) rest

/-- The statement is read where any statement may stand. -/
def TakesStmt (inLoop : Bool) (s : RawStmt) : Prop :=
  ∀ loops fuel rest, (inLoop = true → loops ≠ 0) → 24 * (writeStmt s).length ≤ fuel →
    Closed s rest → Takes loops (statement fuel) (writeStmt s ++ rest) s rest

def TakesDeclared (inLoop : Bool) (s : RawStmt) : Prop :=
  ∀ loops fuel rest, (inLoop = true → loops ≠ 0) → 24 * (writeStmt s).length + 1 ≤ fuel →
    Closed s rest → Takes loops (declared fuel) (writeStmt s ++ rest) s rest

def ReadsStmt (inLoop : Bool) (s : RawStmt) : Prop :=
  match declared? s with
  | none => TakesStmt inLoop s
  | some _ => TakesDeclared inLoop s

/-- What does not begin like a declaration is sent to be read as a statement. -/
theorem declared_statement {s : RawStmt} {t : Token} {more : List Token} (hb : StmtBegins s t more)
    (hs : declared? s = none) (loops fuel : Nat) (rest : List Token) :
    Leads loops (declared (fuel + 1)) (writeStmt s ++ rest) (writeStmt s ++ rest)
      (statement fuel) := by
  rw [hb.eq, declared, Rules.declared]
  refine (Leads.accept_no (Next.cons (hb.class_ hs))).bind ?_
  have next : Leads loops (at_ (.keyword .var_) >>= fun b =>
      if b then variableDeclaration fuel else statement fuel)
      (t :: more ++ rest) (t :: more ++ rest) (statement fuel) :=
    (Leads.at_no (Next.cons (hb.var hs))).bind .refl
  by_cases hf : t.kind = .keyword .fun_
  · obtain ⟨u, others, rfl, hu⟩ := hb.function hs hf
    exact (Leads.at_yes hf).bind ((Leads.nameFollows_no (Next.cons hu)).bind next)
  · obtain ⟨b, hname⟩ := Leads.nameFollows_either loops (t :: more ++ rest)
    exact (Leads.at_no (Next.cons hf)).bind (hname.bind next)

theorem TakesStmt.takesDeclared {inLoop : Bool} {s : RawStmt} (h : TakesStmt inLoop s)
    (proper : ProperStmt inLoop s) (hs : declared? s = none) : TakesDeclared inLoop s := by
  intro loops fuel rest hloops hfuel hrest
  obtain ⟨fuel, rfl⟩ : ∃ k, fuel = k + 1 := ⟨fuel - 1, by omega⟩
  obtain ⟨t, more, hb⟩ := writeStmt_begins proper
  exact (declared_statement hb hs loops fuel rest).trans
    (h loops fuel rest hloops (by omega) hrest)

theorem ReadsStmt.takesStmt {inLoop : Bool} {s : RawStmt} (h : ReadsStmt inLoop s)
    (hs : declared? s = none) : TakesStmt inLoop s := by
  unfold ReadsStmt at h
  rw [hs] at h
  exact h

theorem ReadsStmt.takesDeclared {inLoop : Bool} {s : RawStmt} (h : ReadsStmt inLoop s)
    (proper : ProperStmt inLoop s) : TakesDeclared inLoop s := by
  cases hs : declared? s with
  | none => exact (h.takesStmt hs).takesDeclared proper hs
  | some name =>
    unfold ReadsStmt at h
    rw [hs] at h
    exact h

section Steps

variable {inLoop : Bool} {e : RawExpr}

theorem statement_expression {t : Token} {more : List Token} (h : beginsExpr t.kind = true)
    (loops fuel : Nat) :
    Leads loops (statement (fuel + 1)) (t :: more) (t :: more) (expressionStatement fuel) := by
  refine Leads.peek.bind ?_
  dsimp only
  split
  case h_9 => exact .refl
  all_goals
    rename_i hk
    rw [hk] at h
    cases h

theorem takesStmt_expression (proper : ProperExpr e) (h : TakesExpression e) :
    TakesStmt inLoop (.expression e) := by
  intro loops fuel rest _ hfuel _
  simp only [writeStmt, List.length_append, List.length_singleton, List.append_assoc,
    List.cons_append, List.nil_append] at hfuel ⊢
  obtain ⟨t, more, hb⟩ := writeExpr_begins e proper
  obtain ⟨fuel, rfl⟩ : ∃ k, fuel = k + 2 := ⟨fuel - 2, by omega⟩
  have sent : Leads loops (statement (fuel + 2)) (writeExpr e ++ symbol .semicolon :: rest)
      (writeExpr e ++ symbol .semicolon :: rest) (expressionStatement (fuel + 1)) := by
    rw [hb.eq]
    exact statement_expression hb.begins loops _
  refine sent.trans ?_
  rw [expressionStatement, Rules.expressionStatement]
  refine (h loops fuel _ (by omega) (ended_closer (.inr (.inl rfl)) 0)).bind ?_
  exact Leads.expect.bind .refl

theorem takesStmt_print (h : TakesExpression e) : TakesStmt inLoop (.print e) := by
  intro loops fuel rest _ hfuel _
  simp only [writeStmt, List.length_cons, List.length_append, List.length_nil, List.append_assoc,
    List.cons_append, List.nil_append] at hfuel ⊢
  obtain ⟨fuel, rfl⟩ : ∃ k, fuel = k + 1 := ⟨fuel - 1, by omega⟩
  refine Leads.peek.bind (Leads.advance.bind ?_)
  refine (h loops fuel _ (by omega) (ended_closer (.inr (.inl rfl)) 0)).bind ?_
  exact Leads.expect.bind .refl

theorem takesStmt_block {body : List RawStmt} (h : TakesBody inLoop body) :
    TakesStmt inLoop (.block body) := by
  intro loops fuel rest hloops hfuel _
  simp only [writeStmt, List.length_cons, List.length_append, List.length_nil, List.append_assoc,
    List.cons_append, List.nil_append] at hfuel ⊢
  obtain ⟨fuel, rfl⟩ : ∃ k, fuel = k + 1 := ⟨fuel - 1, by omega⟩
  refine Leads.peek.bind (Leads.advance.bind ?_)
  exact (h loops fuel rest hloops (by omega)).bind .refl

theorem takesStmt_if {yes : RawStmt} (h : TakesExpression e) (hyes : TakesStmt inLoop yes) :
    TakesStmt inLoop (.if_ e yes none) := by
  intro loops fuel rest hloops hfuel hrest
  simp only [writeStmt, List.length_cons, List.length_append, List.append_assoc, List.cons_append]
    at hfuel ⊢
  obtain ⟨fuel, rfl⟩ : ∃ k, fuel = k + 1 := ⟨fuel - 1, by omega⟩
  have next : Next (· ≠ .keyword .else_) rest := hrest rfl
  refine Leads.peek.bind (Leads.advance.bind ?_)
  refine Leads.expect.bind ?_
  refine (h loops fuel _ (by omega) (ended_closer (.inl rfl) 0)).bind ?_
  refine Leads.expect.bind ?_
  refine (hyes loops fuel rest hloops (by omega) fun _ => next).bind ?_
  exact (Leads.accept_no next).bind .refl

theorem takesStmt_ifElse {yes no : RawStmt} (h : TakesExpression e) (hyes : TakesStmt inLoop yes)
    (hclosed : yes.endsOpen = false) (hno : TakesStmt inLoop no) :
    TakesStmt inLoop (.if_ e yes (some no)) := by
  intro loops fuel rest hloops hfuel hrest
  simp only [writeStmt, List.length_cons, List.length_append, List.append_assoc, List.cons_append]
    at hfuel ⊢
  obtain ⟨fuel, rfl⟩ : ∃ k, fuel = k + 1 := ⟨fuel - 1, by omega⟩
  have closed : ∀ tokens, Closed yes tokens := by
    intro tokens hopen
    rw [hclosed] at hopen
    cases hopen
  refine Leads.peek.bind (Leads.advance.bind ?_)
  refine Leads.expect.bind ?_
  refine (h loops fuel _ (by omega) (ended_closer (.inl rfl) 0)).bind ?_
  refine Leads.expect.bind ?_
  refine (hyes loops fuel _ hloops (by omega) (closed _)).bind ?_
  refine Leads.accept_keyword.bind ?_
  exact (hno loops fuel rest hloops (by omega) hrest).map.bind .refl

theorem takesStmt_while {body : RawStmt} (h : TakesExpression e) (hbody : TakesStmt true body) :
    TakesStmt inLoop (.while_ e body) := by
  intro loops fuel rest _ hfuel hrest
  simp only [writeStmt, List.length_cons, List.length_append, List.append_assoc, List.cons_append]
    at hfuel ⊢
  obtain ⟨fuel, rfl⟩ : ∃ k, fuel = k + 1 := ⟨fuel - 1, by omega⟩
  refine Leads.peek.bind (Leads.advance.bind ?_)
  refine Leads.expect.bind ?_
  refine (h loops fuel _ (by omega) (ended_closer (.inl rfl) 0)).bind ?_
  refine Leads.expect.bind ?_
  have read := hbody (loops + 1) fuel rest (fun _ => Nat.succ_ne_zero _) (by omega) hrest
  exact (Leads.insideLoop read).bind .refl

theorem takesStmt_jump (jump : Jump) (line : Nat) : TakesStmt true (.jump jump line) := by
  intro loops fuel rest hloops hfuel _
  simp only [writeStmt, List.length_cons, List.length_nil, List.cons_append, List.nil_append]
    at hfuel ⊢
  obtain ⟨fuel, rfl⟩ : ∃ k, fuel = k + 1 := ⟨fuel - 1, by omega⟩
  have jumped : Takes loops (jumpStatement jump line) (symbol .semicolon :: rest)
      (.jump jump line) rest := by
    rw [jumpStatement, Rules.jumpStatement]
    refine Leads.loopsAround.bind ?_
    exact Leads.not_noted (hloops rfl) (Leads.expect.bind .refl)
  cases jump <;> exact Leads.peek.bind (Leads.advance.bind jumped)

theorem takesStmt_return (line : Nat) : TakesStmt inLoop (.return_ line none) := by
  intro loops fuel rest _ hfuel _
  simp only [writeStmt, List.length_cons, List.length_nil, List.cons_append, List.nil_append]
    at hfuel ⊢
  obtain ⟨fuel, rfl⟩ : ∃ k, fuel = k + 1 := ⟨fuel - 1, by omega⟩
  refine Leads.peek.bind (Leads.advance.bind ?_)
  exact Leads.unlessAt_symbol.bind (Leads.expect.bind .refl)

theorem takesStmt_returnValue (line : Nat) (proper : ProperExpr e) (h : TakesExpression e) :
    TakesStmt inLoop (.return_ line (some e)) := by
  intro loops fuel rest _ hfuel _
  simp only [writeStmt, List.length_cons, List.length_append, List.length_nil, List.append_assoc,
    List.cons_append, List.nil_append] at hfuel ⊢
  obtain ⟨fuel, rfl⟩ : ∃ k, fuel = k + 1 := ⟨fuel - 1, by omega⟩
  refine Leads.peek.bind (Leads.advance.bind ?_)
  refine (Leads.unlessAt_no (writeExpr_next proper rfl _)
    (h loops fuel _ (by omega) (ended_closer (.inr (.inl rfl)) 0))).bind ?_
  exact Leads.expect.bind .refl

theorem declared_var (loops fuel : Nat) (rest : List Token) :
    Leads loops (declared (fuel + 1)) (keyword .var_ :: rest) (keyword .var_ :: rest)
      (variableDeclaration fuel) := by
  rw [declared, Rules.declared]
  obtain ⟨b, hname⟩ := Leads.nameFollows_either loops (keyword .var_ :: rest)
  refine (Leads.accept_no (Next.keyword (by decide))).bind ?_
  refine (Leads.at_no (Next.keyword (by decide))).bind (hname.bind ?_)
  exact Leads.at_keyword.bind .refl

theorem takesDeclared_var (name : Name) : TakesDeclared inLoop (.var name none) := by
  intro loops fuel rest _ hfuel _
  simp only [writeStmt, List.length_cons, List.length_nil, List.cons_append, List.nil_append]
    at hfuel ⊢
  obtain ⟨fuel, rfl⟩ : ∃ k, fuel = k + 2 := ⟨fuel - 2, by omega⟩
  have read : Takes loops (variableDeclaration (fuel + 1))
      (keyword .var_ :: nameToken name :: symbol .semicolon :: rest) (.var name none) rest := by
    rw [variableDeclaration, Rules.variableDeclaration]
    refine Leads.advance.bind (Leads.expectName.bind ?_)
    exact (Leads.accept_no (Next.symbol (by decide))).bind (Leads.expect.bind .refl)
  exact (declared_var loops (fuel + 1) _).trans read

theorem takesDeclared_varValue (name : Name) (h : TakesExpression e) :
    TakesDeclared inLoop (.var name (some e)) := by
  intro loops fuel rest _ hfuel _
  simp only [writeStmt, List.length_cons, List.length_append, List.length_nil, List.append_assoc,
    List.cons_append, List.nil_append] at hfuel ⊢
  obtain ⟨fuel, rfl⟩ : ∃ k, fuel = k + 2 := ⟨fuel - 2, by omega⟩
  have read : Takes loops (variableDeclaration (fuel + 1))
      (keyword .var_ :: nameToken name :: symbol .equal ::
        (writeExpr e ++ symbol .semicolon :: rest)) (.var name (some e)) rest := by
    rw [variableDeclaration, Rules.variableDeclaration]
    refine Leads.advance.bind (Leads.expectName.bind ?_)
    have value := h loops fuel (symbol .semicolon :: rest) (by omega)
      (ended_closer (.inr (.inl rfl)) 0)
    refine Leads.accept_symbol.bind (value.map.bind ?_)
    exact Leads.expect.bind .refl
  exact (declared_var loops (fuel + 1) _).trans read

theorem named_takes {name : Name} {params : List Name} {body : List RawStmt}
    (hparams : params.length ≤ maxArguments) (hbody : TakesBody false body) (role : Role)
    (loops fuel : Nat) (rest : List Token)
    (hfuel : 24 * (writeCode params (writeStmts body)).length ≤ fuel) :
    Takes loops (named fuel role)
      (nameToken name :: (writeCode params (writeStmts body) ++ rest)) (name, params, body) rest := by
  have := writeParams_length params
  simp only [writeCode, List.length_cons, List.length_append, List.length_nil, List.append_assoc,
    List.cons_append, List.nil_append] at hfuel ⊢
  obtain ⟨fuel, rfl⟩ : ∃ k, fuel = k + 1 := ⟨fuel - 1, by omega⟩
  rw [named, Rules.named]
  refine Leads.expectName.bind (Leads.expect.bind ?_)
  refine (parameters_takes hparams (by omega)).bind ?_
  exact (Leads.outsideLoops (hbody 0 fuel rest Bool.noConfusion (by omega))).bind .refl

theorem takesDeclared_function {params : List Name} {body : List RawStmt} (name : Name)
    (hparams : params.length ≤ maxArguments) (hbody : TakesBody false body) :
    TakesDeclared inLoop (.function name params body) := by
  intro loops fuel rest _ hfuel _
  simp only [writeStmt, List.length_cons, List.cons_append] at hfuel ⊢
  obtain ⟨fuel, rfl⟩ : ∃ k, fuel = k + 1 := ⟨fuel - 1, by omega⟩
  rw [declared, Rules.declared]
  refine (Leads.accept_no (Next.keyword (by decide))).bind ?_
  refine Leads.at_keyword.bind ((Leads.nameFollows_yes rfl).bind ?_)
  refine Leads.advance.bind ?_
  exact (named_takes hparams hbody .function loops fuel rest (by omega)).bind .refl

def TakesMethods (methods : List RawMethod) : Prop :=
  ∀ loops fuel rest, 24 * (writeMethods methods).length + 1 ≤ fuel →
    Takes loops (methodList fuel) (writeMethods methods ++ symbol .rightBrace :: rest) methods
      (symbol .rightBrace :: rest)

theorem takesMethods_nil : TakesMethods [] := by
  intro loops fuel rest hfuel
  obtain ⟨fuel, rfl⟩ : ∃ k, fuel = k + 1 := ⟨fuel - 1, by omega⟩
  rw [methodList, Rules.methodList]
  exact Leads.atEnd_cons.bind (Leads.at_symbol.bind .refl)

theorem takesMethods_cons {params : List Name} {body : List RawStmt} {methods : List RawMethod}
    (name : Name) (hparams : params.length ≤ maxArguments) (hbody : TakesBody false body)
    (hmethods : TakesMethods methods) : TakesMethods (.mk name params body :: methods) := by
  intro loops fuel rest hfuel
  simp only [writeMethods, List.length_cons, List.length_append, List.append_assoc,
    List.cons_append] at hfuel ⊢
  obtain ⟨fuel, rfl⟩ : ∃ k, fuel = k + 1 := ⟨fuel - 1, by omega⟩
  rw [methodList, Rules.methodList]
  refine Leads.atEnd_cons.bind ((Leads.at_no (Next.name (by decide))).bind ?_)
  refine (named_takes hparams hbody .method loops fuel _ (by omega)).bind ?_
  exact (hmethods loops fuel rest (by omega)).bind .refl

theorem takesDeclared_class {methods : List RawMethod} (name : Name) (h : TakesMethods methods) :
    TakesDeclared inLoop (.class_ name methods) := by
  intro loops fuel rest _ hfuel _
  simp only [writeStmt, List.length_cons, List.length_append, List.length_nil, List.append_assoc,
    List.cons_append, List.nil_append] at hfuel ⊢
  obtain ⟨fuel, rfl⟩ : ∃ k, fuel = k + 1 := ⟨fuel - 1, by omega⟩
  rw [declared, Rules.declared]
  refine Leads.accept_keyword.bind (Leads.expectName.bind (Leads.expect.bind ?_))
  refine (h loops fuel rest (by omega)).bind ?_
  exact Leads.expect.bind .refl

theorem declaration_takes {s : RawStmt} (h : TakesDeclared inLoop s) (loops fuel : Nat)
    (rest : List Token) (hloops : inLoop = true → loops ≠ 0)
    (hfuel : 24 * (writeStmt s).length + 2 ≤ fuel) (hrest : Closed s rest) :
    Takes loops (declaration fuel) (writeStmt s ++ rest) (some s) rest := by
  obtain ⟨fuel, rfl⟩ : ∃ k, fuel = k + 1 := ⟨fuel - 1, by omega⟩
  rw [declaration_succ]
  exact (h loops fuel rest hloops (by omega) hrest).recovering

theorem takesBody_nil : TakesBody inLoop [] := by
  intro loops fuel rest _ hfuel
  obtain ⟨fuel, rfl⟩ : ∃ k, fuel = k + 1 := ⟨fuel - 1, by omega⟩
  rw [blockBody, Rules.blockBody]
  refine Leads.atEnd_cons.bind (Leads.at_symbol.bind ?_)
  exact Leads.expect.bind .refl

theorem takesBody_cons {s : RawStmt} {ss : List RawStmt} (proper : ProperStmts inLoop (s :: ss))
    (h : TakesDeclared inLoop s) (hss : TakesBody inLoop ss) : TakesBody inLoop (s :: ss) := by
  intro loops fuel rest hloops hfuel
  have hw := writeStmt_length proper.1
  simp only [writeStmts, List.length_append, List.append_assoc] at hfuel ⊢
  obtain ⟨fuel, rfl⟩ : ∃ k, fuel = k + 1 := ⟨fuel - 1, by omega⟩
  have next : Next (· ≠ .keyword .else_) (writeStmts ss ++ symbol .rightBrace :: rest) :=
    writeStmts_else proper.2 (Next.symbol (by decide))
  have first := declaration_takes h loops fuel _ hloops (by omega) fun _ => next
  obtain ⟨t, more, hb⟩ := writeStmt_begins proper.1
  rw [blockBody, Rules.blockBody]
  rw [hb.eq] at first ⊢
  refine Leads.atEnd_cons.bind ((Leads.at_no (Next.cons hb.brace)).bind ?_)
  exact first.bind ((hss loops fuel rest hloops (by omega)).bind .refl)

end Steps

end Script.Grammar
