import Mathlib.Data.List.Forall2
import Script.Proofs.Grammar.Covering

/-! What a program accounts for.
Without complaints and without `for` loops, a tree that was read is written as the tokens that were
taken, token by token. -/
namespace Script

/-- The text that every token of a kind has. -/
def Kind.spelling? : Kind → Option String
  | keyword k => some k.spelling
  | symbol s => some s.spelling
  | string text => some ("\"" ++ text ++ "\"")
  | _ => none

/-- A token has the text of its kind. -/
def Token.Spelled (t : Token) : Prop := ∀ text ∈ t.kind.spelling?, t.lexeme = text

instance (t : Token) : Decidable t.Spelled :=
  inferInstanceAs (Decidable (∀ text ∈ t.kind.spelling?, t.lexeme = text))

namespace Grammar

/-- A token that is written stands for one that was read. Its line is that token's line or, where
the tree keeps none, line 0. -/
structure Stands (u t : Token) : Prop where
  kind : u.kind = t.kind
  line : u.line = 0 ∨ u.line = t.line
  name : t.kind = .name → u.lexeme = t.lexeme
  spelled : u.Spelled

/-- Tokens are written as they were taken. A `for` loop has no writing of its own. -/
def Written (us ts : List Token) : Prop :=
  (∀ t ∈ ts, t.kind ≠ .keyword .for_) → List.Forall₂ Stands us ts

namespace Written

variable {a b x y : List Token}

theorem nil : Written [] [] := fun _ => .nil

theorem append (h : Written a x) (h' : Written b y) : Written (a ++ b) (x ++ y) := by
  intro plain
  rw [List.forall_mem_append] at plain
  exact List.rel_append (h plain.1) (h' plain.2)

theorem last (h : Written a x) : Written a (x ++ []) := by
  rwa [List.append_nil]

theorem one {u t : Token} (h : Stands u t) : Written [u] [t] := fun _ => .cons h .nil

theorem of_for {t : Token} (h : t.kind = .keyword .for_) : Written a (t :: x) :=
  fun plain => absurd h (plain t List.mem_cons_self)

end Written

section

variable {ts : List Token} {line : Nat}

theorem stands_symbol {t : Token} {s : Symbol} (hk : t.kind = .symbol s)
    (hl : line = 0 ∨ line = t.line) : Stands (symbolAt s line) t where
  kind := hk.symm
  line := hl
  name := by
    intro h
    rw [hk] at h
    cases h
  spelled _ h := Option.some_inj.mp h

theorem stands_keyword {t : Token} {k : Keyword} (hk : t.kind = .keyword k)
    (hl : line = 0 ∨ line = t.line) : Stands (keywordAt k line) t where
  kind := hk.symm
  line := hl
  name := by
    intro h
    rw [hk] at h
    cases h
  spelled _ h := Option.some_inj.mp h

theorem stands_name {t : Token} (hk : t.kind = .name) :
    Stands (nameToken ⟨t.lexeme, t.line⟩) t where
  kind := hk.symm
  line := .inr rfl
  name _ := rfl
  spelled := nofun

theorem Took.symbolAt {s : Symbol} (h : Took (.symbol s) line ts) :
    Written [symbolAt s line] ts := by
  obtain ⟨t, rfl, hk, rfl⟩ := h
  exact .one (stands_symbol hk (.inr rfl))

theorem Took.symbol {s : Symbol} (h : Took (.symbol s) line ts) : Written [symbol s] ts := by
  obtain ⟨t, rfl, hk, rfl⟩ := h
  exact .one (stands_symbol hk (.inl rfl))

theorem Took.keywordAt {k : Keyword} (h : Took (.keyword k) line ts) :
    Written [keywordAt k line] ts := by
  obtain ⟨t, rfl, hk, rfl⟩ := h
  exact .one (stands_keyword hk (.inr rfl))

theorem Took.keyword {k : Keyword} (h : Took (.keyword k) line ts) : Written [keyword k] ts := by
  obtain ⟨t, rfl, hk, rfl⟩ := h
  exact .one (stands_keyword hk (.inl rfl))

theorem written_name {name : Name}
    (h : ∃ t : Token, ts = [t] ∧ t.kind = .name ∧ name = ⟨t.lexeme, t.line⟩) :
    Written [nameToken name] ts := by
  obtain ⟨t, rfl, hk, rfl⟩ := h
  exact .one (stands_name hk)

end

def Prolongs (head e : RawExpr) (ts : List Token) : Prop :=
  ∀ us, Written (writeExpr head) us → Written (writeExpr e) (us ++ ts)

/-- What an operand of a level needs beside the tokens. -/
def Level.cost : Level → Nat
  | or => 13
  | and => 11
  | equality => 9
  | comparison => 7
  | term => 5
  | factor => 3

/-- What the readings of some fuel take, and with `extra` more. `ahead` is how far a statement
looks for an `else`. -/
structure Covering (more : List Token) (ahead extra fuel : Nat) : Prop where
  expression : Covers Anywhere more fuel 17 1 1 (expression fuel) (expression (extra + fuel))
    fun e ts => Written (writeExpr e) ts
  sequenceTail : ∀ e, Covers Anywhere more fuel 1 0 1 (sequenceTail fuel e)
    (sequenceTail (extra + fuel) e) (Prolongs e)
  conditional : Covers Anywhere more fuel 16 1 1 (conditional fuel) (conditional (extra + fuel))
    fun e ts => Written (writeExpr e) ts
  assignment : Covers Anywhere more fuel 15 1 1 (assignment fuel) (assignment (extra + fuel))
    fun e ts => Written (writeExpr e) ts
  operation : ∀ level, Covers Anywhere more fuel (level.cost + 1) 1 1 (operation fuel level)
    (operation (extra + fuel) level) fun e ts => Written (writeExpr e) ts
  operationTail : ∀ level e, Covers Anywhere more fuel 1 0 1 (operationTail fuel level e)
    (operationTail (extra + fuel) level e) (Prolongs e)
  operand : ∀ level, Covers Anywhere more fuel level.cost 1 1 (operand fuel level)
    (operand (extra + fuel) level) fun e ts => Written (writeExpr e) ts
  unary : Covers Anywhere more fuel 2 1 1 (unary fuel) (unary (extra + fuel))
    fun e ts => Written (writeExpr e) ts
  callTail : ∀ e, Covers Anywhere more fuel 1 0 1 (callTail fuel e) (callTail (extra + fuel) e)
    (Prolongs e)
  argumentsFrom : ∀ count, Covers Anywhere more fuel 17 1 1 (argumentsFrom fuel count)
    (argumentsFrom (extra + fuel) count) fun es ts => es ≠ [] ∧ Written (writeArguments es) ts
  primary : Covers Anywhere more fuel 1 1 0 (primary fuel) (primary (extra + fuel))
    fun e ts => Written (writeExpr e) ts
  blockBody : Covers Anywhere more fuel 22 1 0 (blockBody fuel) (blockBody (extra + fuel))
    fun body ts => Written (writeStmts body ++ [symbol .rightBrace]) ts
  declaration : ∀ t, Covers (Before t) more fuel 21 1 ahead (declaration fuel)
    (declaration (extra + fuel)) fun found ts => ∃ s, found = some s ∧ Written (writeStmt s) ts
  declared : Covers Anywhere more fuel 20 2 ahead (declared fuel) (declared (extra + fuel))
    fun s ts => Written (writeStmt s) ts
  named : ∀ role, Covers Anywhere more fuel 1 1 0 (named fuel role) (named (extra + fuel) role)
    fun code ts => Written (nameToken code.1 :: writeCode code.2.1 (writeStmts code.2.2)) ts
  methodList : Covers Anywhere more fuel 2 0 1 (methodList fuel) (methodList (extra + fuel))
    fun methods ts => Written (writeMethods methods) ts
  variableDeclaration : ∀ t : Token, t.kind = .keyword .var_ → Covers (Before t) more fuel 1 2 0
    (variableDeclaration fuel) (variableDeclaration (extra + fuel))
    fun s ts => Written (writeStmt s) ts
  expressionStatement : Covers Anywhere more fuel 18 2 0 (expressionStatement fuel)
    (expressionStatement (extra + fuel)) fun s ts => Written (writeStmt s) ts
  statement : Covers Anywhere more fuel 19 2 ahead (statement fuel) (statement (extra + fuel))
    fun s ts => Written (writeStmt s) ts
  forStatement : Covers Anywhere more fuel 1 1 ahead (forStatement fuel)
    (forStatement (extra + fuel)) fun _ _ => True

variable {more : List Token} {ahead extra fuel : Nat}

theorem covering_zero (more : List Token) (ahead extra : Nat) : Covering more ahead extra 0 where
  expression := .exhaust
  sequenceTail _ := .exhaust
  conditional := .exhaust
  assignment := .exhaust
  operation _ := .exhaust
  operationTail _ _ := .exhaust
  operand level := by cases level <;> exact .exhaust
  unary := .exhaust
  callTail _ := .exhaust
  argumentsFrom _ := .exhaust
  primary := .exhaust
  blockBody := .exhaust
  declaration _ := .exhaust
  declared := .exhaust
  named _ := .exhaust
  methodList := .exhaust
  variableDeclaration _ _ := .exhaust
  expressionStatement := .exhaust
  statement := .exhaust
  forStatement := .exhaust

theorem expression_covers (ih : Covering more ahead extra fuel) :
    Covers Anywhere more (fuel + 1) 17 1 1 (expression (fuel + 1)) (expression (extra + (fuel + 1)))
      fun e ts => Written (writeExpr e) ts := by
  apply Covers.succ
  refine ih.conditional.bind (by omega) fun first => ?_
  exact (ih.sequenceTail first).mono (by omega) fun e ts h us hfirst => h us hfirst

theorem sequenceTail_covers (ih : Covering more ahead extra fuel) (earlier : RawExpr) :
    Covers Anywhere more (fuel + 1) 1 0 1 (sequenceTail (fuel + 1) earlier)
      (sequenceTail (extra + (fuel + 1)) earlier) (Prolongs earlier) := by
  apply Covers.succ
  refine .accept_bind (by omega) ?_ ?_
  · refine ih.conditional.bind (by omega) fun last => ?_
    refine (ih.sequenceTail (.sequence earlier last)).mono (by omega) fun e ts h vs hlast us line
      hcomma ws hearlier => ?_
    simpa only [List.append_assoc] using
      h (ws ++ (us ++ vs)) (hearlier.append (hcomma.symbol.append hlast))
  · exact .pure fun _ h => h.last

theorem conditional_covers (ih : Covering more ahead extra fuel) :
    Covers Anywhere more (fuel + 1) 16 1 1 (conditional (fuel + 1))
      (conditional (extra + (fuel + 1))) fun e ts => Written (writeExpr e) ts := by
  apply Covers.succ
  refine ih.assignment.bind (by omega) fun condition => ?_
  refine .accept_bind (by omega) ?_ ?_
  · refine ih.conditional.bind (by omega) fun yes => Covers.expect.bind (by omega) fun _ =>
      ih.conditional.bind (by omega) fun no => ?_
    exact .pure fun _ hno _ hcolon _ hyes _ _ hmark _ hcondition =>
      hcondition.append (hmark.symbol.append (hyes.append (hcolon.symbol.append hno.last)))
  · exact .pure fun _ h => h.last

theorem assignTo_covers {target value : RawExpr} {equalLine : Nat} :
    Covers Anywhere more fuel 0 0 1 (assignTo target equalLine value)
      (assignTo target equalLine value)
      fun e ts => ∀ us vs ws, Written (writeExpr target) us → Written [symbol .equal] vs →
        Written (writeExpr value) ws → Written (writeExpr e) (us ++ (vs ++ (ws ++ ts))) := by
  cases target with
  | «variable» name site =>
    exact .pure fun _ _ _ htarget hequal hvalue => htarget.append (hequal.append hvalue.last)
  | get object property =>
    refine .pure fun _ _ _ htarget hequal hvalue => ?_
    have whole := htarget.append (hequal.append hvalue.last)
    simpa only [writeExpr, List.append_assoc, List.cons_append, List.nil_append] using whole
  | _ =>
    exact Covers.noted (Q := fun _ _ => True) (notes_report _) (.pure trivial)

theorem assignment_covers (ih : Covering more ahead extra fuel) :
    Covers Anywhere more (fuel + 1) 15 1 1 (assignment (fuel + 1)) (assignment (extra + (fuel + 1)))
      fun e ts => Written (writeExpr e) ts := by
  apply Covers.succ
  refine (ih.operation .or).bind (by decide) fun target => ?_
  refine .acceptMeaning_bind (by omega) (fun _ line => ?_) ?_
  · refine ih.conditional.bind (by omega) fun value => ?_
    refine assignTo_covers.mono (by omega)
      fun e ts h ws hvalue vs kind hkind hequal us htarget => ?_
    refine h us vs ws htarget ?_ hvalue
    split at hkind
    · subst kind
      exact hequal.symbol
    · contradiction
  · exact .pure fun _ h => h.last

theorem operation_covers (ih : Covering more ahead extra fuel) (level : Level) :
    Covers Anywhere more (fuel + 1) (level.cost + 1) 1 1 (operation (fuel + 1) level)
      (operation (extra + (fuel + 1)) level) fun e ts => Written (writeExpr e) ts := by
  apply Covers.succ
  refine (ih.operand level).bind (by omega) fun left => ?_
  exact (ih.operationTail level left).mono (by omega) fun e ts h us hleft => h us hleft

theorem written_join {level : Level} {kind : Kind} {connective : Connective} {left right : RawExpr}
    {line : Nat} {us vs ws : List Token} (hkind : level.connective? kind = some connective)
    (hleft : Written (writeExpr left) us) (hoperator : Took kind line vs)
    (hright : Written (writeExpr right) ws) :
    Written (writeExpr (connective.join left line right)) (us ++ (vs ++ ws)) := by
  cases connective with
  | logical op =>
    have spelled : kind = .keyword op.keyword := by
      unfold Level.connective? at hkind
      split at hkind <;> cases hkind <;> rfl
    subst spelled
    exact hleft.append (hoperator.keywordAt.append hright)
  | binary op =>
    have spelled : kind = .symbol op.symbol := by
      unfold Level.connective? at hkind
      split at hkind <;> cases hkind <;> rfl
    subst spelled
    exact hleft.append (hoperator.symbolAt.append hright)

theorem operationTail_covers (ih : Covering more ahead extra fuel) (level : Level)
    (left : RawExpr) :
    Covers Anywhere more (fuel + 1) 1 0 1 (operationTail (fuel + 1) level left)
      (operationTail (extra + (fuel + 1)) level left) (Prolongs left) := by
  apply Covers.succ
  have cost : level.cost ≤ 13 := by cases level <;> decide
  refine .acceptMeaning_bind (by omega) (fun connective line => ?_) ?_
  · refine (ih.operand level).bind (by omega) fun right => ?_
    refine (ih.operationTail level (connective.join left line right)).mono (by omega)
      fun e ts h ws hright vs kind hkind hoperator us hleft => ?_
    simpa only [List.append_assoc] using
      h (us ++ (vs ++ ws)) (written_join hkind hleft hoperator hright)
  · exact .pure fun _ h => h.last

theorem operand_covers (ih : Covering more ahead extra fuel) (level : Level) :
    Covers Anywhere more (fuel + 1) level.cost 1 1 (operand (fuel + 1) level)
      (operand (extra + (fuel + 1)) level) fun e ts => Written (writeExpr e) ts := by
  cases level with
  | factor => exact ih.unary.succ
  | or => exact (ih.operation .and).succ
  | and => exact (ih.operation .equality).succ
  | equality => exact (ih.operation .comparison).succ
  | comparison => exact (ih.operation .term).succ
  | term => exact (ih.operation .factor).succ

theorem unaryOp_kind {kind : Kind} {op : UnaryOp} (h : unaryOp? kind = some op) :
    kind = .symbol op.symbol := by
  unfold unaryOp? at h
  split at h <;> cases h <;> rfl

theorem unary_covers (ih : Covering more ahead extra fuel) :
    Covers Anywhere more (fuel + 1) 2 1 1 (unary (fuel + 1)) (unary (extra + (fuel + 1)))
      fun e ts => Written (writeExpr e) ts := by
  apply Covers.succ
  refine .acceptMeaning_bind (by omega) (fun op line => ?_) ?_
  · refine ih.unary.bind (by omega) fun inner => ?_
    refine .pure fun us hinner vs kind hkind hop => ?_
    cases unaryOp_kind hkind
    exact hop.symbolAt.append hinner.last
  · refine ih.primary.bind (by omega) fun head => ?_
    exact (ih.callTail head).mono (by omega) fun e ts h us hhead => h us hhead

theorem callTail_covers (ih : Covering more ahead extra fuel) (head : RawExpr) :
    Covers Anywhere more (fuel + 1) 1 0 1 (callTail (fuel + 1) head)
      (callTail (extra + (fuel + 1)) head) (Prolongs head) := by
  apply Covers.succ
  have arguments : Covers Anywhere more fuel 17 0 1
      (unlessAt (.symbol .rightParen) (argumentsFrom fuel 0))
      (unlessAt (.symbol .rightParen) (argumentsFrom (extra + fuel) 0))
      fun found ts => Written (writeArguments (found.getD [])) ts :=
    (ih.argumentsFrom 0).unlessAt .nil fun _ _ h => h.2
  refine .accept_bind (by omega) ?_ ?_
  · refine arguments.bind (by omega) fun found => Covers.expect.bind (by omega) fun line => ?_
    refine (ih.callTail (.call head line (found.getD []))).mono (by omega)
      fun e ts h xs hparen ws harguments vs _ hopen us hhead => ?_
    simpa only [List.append_assoc] using h (us ++ (vs ++ (ws ++ xs)))
      (hhead.append (hopen.symbol.append (harguments.append hparen.symbolAt)))
  · refine .accept_bind (by omega) ?_ ?_
    · refine Covers.expectName.bind (by omega) fun property => ?_
      refine (ih.callTail (.get head property)).mono (by omega)
        fun e ts h ws hproperty vs _ hdot us hhead => ?_
      simpa only [List.append_assoc] using h (us ++ (vs ++ ws))
        (hhead.append (hdot.symbol.append (written_name hproperty)))
    · exact .pure fun _ h => h.last

theorem written_arguments {argument : RawExpr} {rest : List RawExpr} {us vs ws : List Token}
    {line : Nat} (hargument : Written (writeExpr argument) us)
    (hcomma : Took (.symbol .comma) line vs) (hne : rest ≠ [])
    (hrest : Written (writeArguments rest) ws) :
    Written (writeArguments (argument :: rest)) (us ++ (vs ++ ws)) := by
  cases rest with
  | nil => contradiction
  | cons next rest => exact hargument.append (hcomma.symbol.append hrest)

theorem argumentsFrom_covers (ih : Covering more ahead extra fuel) (count : Nat) :
    Covers Anywhere more (fuel + 1) 17 1 1 (argumentsFrom (fuel + 1) count)
      (argumentsFrom (extra + (fuel + 1)) count)
      fun es ts => es ≠ [] ∧ Written (writeArguments es) ts := by
  apply Covers.succ
  refine .noteIf (notes_here _) ?_
  refine ih.conditional.bind (by omega) fun argument => ?_
  refine .accept_bind (by omega) ?_ ?_
  · refine (ih.argumentsFrom (count + 1)).bind (by omega) fun rest => ?_
    refine .pure fun ws hrest vs _ hcomma us hargument => ⟨List.cons_ne_nil _ _, ?_⟩
    exact written_arguments hargument hcomma hrest.1 hrest.2.last
  · exact .pure fun _ h => ⟨List.cons_ne_nil _ _, h.last⟩

theorem parametersFrom_covers (more : List Token) (extra fuel count : Nat) :
    Covers Anywhere more fuel 1 1 1 (parametersFrom fuel count)
      (parametersFrom (extra + fuel) count)
      fun names ts => names ≠ [] ∧ Written (writeParams names) ts := by
  induction fuel generalizing count with
  | zero => exact .exhaust
  | succ fuel ih =>
    apply Covers.succ
    refine .noteIf (notes_here _) ?_
    refine Covers.expectName.bind (by omega) fun param => ?_
    refine .accept_bind (by omega) ?_ ?_
    · refine (ih (count + 1)).bind (by omega) fun rest => ?_
      refine .pure fun ws hrest vs _ hcomma us hparam => ⟨List.cons_ne_nil _ _, ?_⟩
      cases rest with
      | nil => exact absurd rfl hrest.1
      | cons next rest =>
        exact (written_name hparam).append (hcomma.symbol.append hrest.2.last)
    · exact .pure fun _ h => ⟨List.cons_ne_nil _ _, (written_name h).last⟩

theorem parameters_covers (more : List Token) (extra fuel : Nat) (role : Role) :
    Covers Anywhere more fuel 1 2 0 (parameters fuel role) (parameters (extra + fuel) role)
      fun names ts =>
        Written (writeParams names ++ [symbol .rightParen, symbol .leftBrace]) ts := by
  have names : Covers Anywhere more fuel 1 0 1
      (unlessAt (.symbol .rightParen) (parametersFrom fuel 0))
      (unlessAt (.symbol .rightParen) (parametersFrom (extra + fuel) 0))
      fun found ts => Written (writeParams (found.getD [])) ts :=
    (parametersFrom_covers more extra fuel 0).unlessAt .nil fun _ _ h => h.2
  refine names.bind (by omega) fun found => Covers.expect.bind (by omega) fun _ =>
    Covers.expect.bind (by omega) fun _ => ?_
  exact .pure fun _ hbrace _ hparen _ hnames =>
    hnames.append (hparen.symbol.append hbrace.symbol.last)

theorem written_code {names : List Name} {body : List RawStmt} {us vs ws : List Token} {line : Nat}
    (hparen : Took (.symbol .leftParen) line us)
    (hnames : Written (writeParams names ++ [symbol .rightParen, symbol .leftBrace]) vs)
    (hbody : Written (writeStmts body ++ [symbol .rightBrace]) ws) :
    Written (writeCode names (writeStmts body)) (us ++ (vs ++ ws)) := by
  have whole := hparen.symbol.append (hnames.append hbody)
  simpa only [writeCode, List.append_assoc, List.cons_append, List.nil_append] using whole

theorem stands_literal {t : Token} {value : Literal} (hk : (literalToken value).kind = t.kind)
    (hn : t.kind ≠ .name) : Stands (literalToken value) t where
  kind := hk
  line := by cases value with
    | bool b => cases b <;> exact .inl rfl
    | _ => exact .inl rfl
  name h := absurd h hn
  spelled := by cases value with
    | bool b => cases b <;> exact fun _ h => Option.some_inj.mp h
    | number n => exact nofun
    | _ => exact fun _ h => Option.some_inj.mp h

theorem primary_covers (ih : Covering more ahead extra fuel) :
    Covers Anywhere more (fuel + 1) 1 1 0 (primary (fuel + 1)) (primary (extra + (fuel + 1)))
      fun e ts => Written (writeExpr e) ts := by
  apply Covers.succ
  refine .peek_bind (by omega) (z := stop .expression) .stop fun t => ?_
  have literal (value : Literal) (hk : t.kind = (literalToken value).kind) (hn : t.kind ≠ .name) :
      Covers (Before t) more fuel 0 1 0 (advance >>= fun _ => pure (Expr.literal value))
        (advance >>= fun _ => pure (Expr.literal value)) fun e ts => Written (writeExpr e) ts :=
    .advance_bind (.pure (.one (stands_literal hk.symm hn)))
  simp only
  split
  case h_1 hk => exact literal (.bool false) hk (by simp [hk])
  case h_2 hk => exact literal (.bool true) hk (by simp [hk])
  case h_3 hk => exact literal .nil hk (by simp [hk])
  case h_4 value hk => exact literal (.number value) hk (by simp [hk])
  case h_5 text hk => exact literal (.string text) hk (by simp [hk])
  case h_6 hk => exact .advance_bind (.pure (.one (stands_keyword hk (.inr rfl))))
  case h_7 hk => exact .advance_bind (.pure (.one (stands_name hk)))
  case h_8 hk =>
    refine .atLeast 3 ?_ (by omega)
    refine .advance_bind (ih.expression.bind (by omega) fun inner =>
      Covers.expect.bind (by omega) fun _ => ?_)
    exact .pure fun _ hclose _ hinner =>
      (Written.one (stands_symbol hk (.inl rfl))).append (hinner.append hclose.symbol.last)
  case h_9 hk =>
    refine .advance_bind (Covers.expect.bind (by omega) fun _ =>
      (parameters_covers more extra fuel .function).bind (by omega) fun params =>
        ih.blockBody.withLoops.bind (by omega) fun body => ?_)
    refine .pure fun ws hbody vs hparams us hparen => ?_
    have code := (written_code hparen hparams hbody).last
    simp only [List.append_assoc] at code
    exact (Written.one (stands_keyword hk (.inl rfl))).append code
  case h_10 => exact .stop

theorem blockBody_covers (ih : Covering more ahead extra fuel) (hahead : ahead ≤ 1) :
    Covers Anywhere more (fuel + 1) 22 1 0 (blockBody (fuel + 1)) (blockBody (extra + (fuel + 1)))
      fun body ts => Written (writeStmts body ++ [symbol .rightBrace]) ts := by
  apply Covers.succ
  let close : Reading (List RawStmt) := expect .rightBrace .afterBlock >>= fun _ => pure []
  have closes {P : List Token → Prop} : Covers P more fuel 21 1 0 close close
      fun body ts => Written (writeStmts body ++ [symbol .rightBrace]) ts :=
    Covers.expect.bind (by omega) fun _ => .pure fun _ h => h.symbol.last
  refine .atEnd_bind (z := at_ (.symbol .rightBrace) >>= fun _ => close) (by omega)
    (.at_bind (by omega) (fun _ _ => closes) closes) fun t => .at_before ?_
  cases t.kind == .symbol .rightBrace with
  | true => exact closes
  | false =>
    refine .atLeast 2 ?_ (by omega)
    refine (ih.declaration t).bind (by omega) fun found => ih.blockBody.bind (by omega)
      fun body => ?_
    refine .pure fun vs hbody us hfirst => ?_
    obtain ⟨s, rfl, hs⟩ := hfirst
    have whole := hs.append hbody.last
    rwa [← List.append_assoc] at whole

theorem declaration_covers (ih : Covering more ahead extra fuel) (t : Token) :
    Covers (Before t) more (fuel + 1) 21 1 ahead (declaration (fuel + 1))
      (declaration (extra + (fuel + 1))) fun found ts =>
        ∃ s, found = some s ∧ Written (writeStmt s) ts :=
  (ih.declared.recovering (by omega)).succ

theorem named_covers (ih : Covering more ahead extra fuel) (role : Role) :
    Covers Anywhere more (fuel + 1) 1 1 0 (named (fuel + 1) role) (named (extra + (fuel + 1)) role)
      fun code ts => Written (nameToken code.1 :: writeCode code.2.1 (writeStmts code.2.2)) ts := by
  apply Covers.succ
  refine Covers.expectName.bind (by omega) fun name => Covers.expect.bind (by omega) fun _ =>
    (parameters_covers more extra fuel role).bind (by omega) fun params =>
      ih.blockBody.withLoops.bind (by omega) fun body => ?_
  refine .pure fun ws hbody vs hparams us hparen _ hname => ?_
  have code := (written_code hparen hparams hbody).last
  simp only [List.append_assoc] at code
  exact (written_name hname).append code

theorem methodList_covers (ih : Covering more ahead extra fuel) :
    Covers Anywhere more (fuel + 1) 2 0 1 (methodList (fuel + 1)) (methodList (extra + (fuel + 1)))
      fun methods ts => Written (writeMethods methods) ts := by
  apply Covers.succ
  refine .atEnd_bind (z := at_ (.symbol .rightBrace) >>= fun _ => pure []) (by omega)
    (.at_bind (by omega) (fun _ _ => .pure .nil) (.pure .nil)) fun t => .within ?_
  refine .at_bind (by omega) (fun _ _ => .pure .nil) ?_
  refine (ih.named .method).bind (by omega) fun (name, params, body) =>
    ih.methodList.bind (by omega) fun rest => ?_
  exact .pure fun vs hrest us hcode => hcode.append hrest.last

theorem variableDeclaration_covers (ih : Covering more ahead extra fuel) (t : Token)
    (ht : t.kind = .keyword .var_) : Covers (Before t) more (fuel + 1) 1 2 0
      (variableDeclaration (fuel + 1)) (variableDeclaration (extra + (fuel + 1)))
      fun s ts => Written (writeStmt s) ts := by
  apply Covers.succ
  have var := Written.one (stands_keyword ht (.inl rfl))
  refine .atLeast 3 ?_ (by omega)
  refine .advance_bind (Covers.expectName.bind (by omega) fun name => ?_)
  refine .accept_bind (by omega) ?_ ?_
  · refine .atLeast 2 ?_ (by omega)
    refine (ih.expression.map (f := some) (R := fun found ts => ∃ e, found = some e ∧
      Written (writeExpr e) ts) fun e ts h => ⟨e, rfl, h⟩).bind (by omega) fun found =>
        Covers.expect.bind (by omega) fun _ => ?_
    refine .pure fun us hend vs hvalue ws _ hequal xs hname => ?_
    obtain ⟨e, rfl, he⟩ := hvalue
    exact var.append ((written_name hname).append
      (hequal.symbol.append (he.append hend.symbol.last)))
  · refine Covers.expect.bind (by omega) fun _ => .pure fun us hend xs hname => ?_
    exact var.append ((written_name hname).append hend.symbol.last)

theorem declared_covers (ih : Covering more ahead extra fuel) :
    Covers Anywhere more (fuel + 1) 20 2 ahead (declared (fuel + 1)) (declared (extra + (fuel + 1)))
      fun s ts => Written (writeStmt s) ts := by
  apply Covers.succ
  refine .accept_bind (by omega) ?_ ?_
  · refine .atLeast 3 ?_ (by omega)
    refine Covers.expectName.bind (by omega) fun name => Covers.expect.bind (by omega) fun _ =>
      ih.methodList.bind (by omega) fun methods => Covers.expect.bind (by omega) fun _ => ?_
    refine .pure fun _ hclose _ hmethods _ hopen _ hname _ _ hclass => ?_
    exact hclass.keyword.append ((written_name hname).append
      (hopen.symbol.append (hmethods.append hclose.symbol.last)))
  · refine .at_bind (by omega) (fun t ht => .nameFollows_bind (by omega) fun named => ?_)
      (.nameFollows_bind (by omega) fun _ => ?_)
    · cases named with
      | true =>
        refine .advance_bind ((ih.named .function).bind (by omega) fun (name, params, body) => ?_)
        refine .pure fun us hcode => ?_
        exact (Written.one (stands_keyword ht (.inl rfl))).append hcode.last
      | false =>
        refine .at_before ?_
        rw [ht]
        exact (ih.statement.bounds (by omega)).within
    · refine .at_bind (by omega) (fun t ht => ?_) (ih.statement.bounds (by omega))
      exact (ih.variableDeclaration t ht).bounds (by omega)

theorem expressionStatement_covers (ih : Covering more ahead extra fuel) :
    Covers Anywhere more (fuel + 1) 18 2 0 (expressionStatement (fuel + 1))
      (expressionStatement (extra + (fuel + 1))) fun s ts => Written (writeStmt s) ts := by
  apply Covers.succ
  refine ih.expression.bind (by omega) fun e => Covers.expect.bind (by omega) fun _ => ?_
  exact .pure fun _ hend _ he => he.append hend.symbol.last

theorem jumpStatement_covers (jump : Jump) (line : Nat) :
    Covers Anywhere more fuel 0 1 0 (jumpStatement jump line) (jumpStatement jump line)
      fun s ts => s = .jump jump line ∧ Written [symbol .semicolon] ts := by
  refine .loopsAround_bind fun loops => .noteIf (notes_report _)
    (Covers.expect.bind (by omega) fun _ => ?_)
  exact .pure fun _ hend => ⟨rfl, hend.symbol.last⟩

theorem clause_covers (ih : Covering more ahead extra fuel) (kind : Kind) :
    Covers Anywhere more fuel 17 0 1 (unlessAt kind (expression fuel))
      (unlessAt kind (expression (extra + fuel)))
      fun found ts => Written ((found.map writeExpr).getD []) ts :=
  ih.expression.unlessAt .nil fun _ _ h => h

theorem statement_covers (ih : Covering more ahead extra fuel)
    (hahead : 1 ≤ ahead ∨ Next (· ≠ .keyword .else_) more) :
    Covers Anywhere more (fuel + 1) 19 2 ahead (statement (fuel + 1))
      (statement (extra + (fuel + 1)))
      fun s ts => Written (writeStmt s) ts := by
  apply Covers.succ
  refine .peek_bind (by omega) (z := expressionStatement (extra + fuel))
    (ih.expressionStatement.bounds (by omega)) fun t => ?_
  simp only
  split
  case h_1 hk =>
    refine .atLeast 3 ?_ (by omega)
    refine .advance_bind (ih.expression.bind (by omega) fun e => Covers.expect.bind (by omega)
      fun _ => ?_)
    exact .pure fun _ hend _ he =>
      (Written.one (stands_keyword hk (.inl rfl))).append (he.append hend.symbol.last)
  case h_2 hk =>
    refine .advance_bind (ih.forStatement.mono (by omega) fun _ _ _ => ?_)
    exact .of_for hk
  case h_3 hk =>
    have head {us vs ws : List Token} {condition : RawExpr} {line line' : Nat}
        (hopen : Took (.symbol .leftParen) line us) (hcondition : Written (writeExpr condition) vs)
        (hclose : Took (.symbol .rightParen) line' ws) :
        Written (keyword .if_ :: symbol .leftParen :: (writeExpr condition ++ [symbol .rightParen]))
          (t :: (us ++ (vs ++ ws))) :=
      (Written.one (stands_keyword hk (.inl rfl))).append
        (hopen.symbol.append (hcondition.append hclose.symbol))
    refine .atLeast 6 ?_ (by omega)
    refine .advance_bind (Covers.expect.bind (by omega) fun _ => ih.expression.bind (by omega)
      fun condition => Covers.expect.bind (by omega) fun _ => ih.statement.bind (by omega)
        fun yes => .accept_bind (hahead.imp (fun _ => by omega) id) ?_ ?_)
    · refine (ih.statement.map (f := some) (R := fun found ts => ∃ s, found = some s ∧
        Written (writeStmt s) ts) fun s ts h => ⟨s, rfl, h⟩).bind (by omega) fun found => ?_
      refine .pure fun zs hno ys _ helse xs hyes ws hclose vs hcondition us hopen => ?_
      obtain ⟨no, rfl, hno⟩ := hno
      have whole := (head hopen hcondition hclose).append
        (hyes.append (helse.keyword.append hno.last))
      simpa only [writeStmt, List.append_assoc, List.cons_append, List.nil_append] using whole
    · refine .pure fun xs hyes ws hclose vs hcondition us hopen => ?_
      have whole := (head hopen hcondition hclose).append hyes.last
      simpa only [writeStmt, List.append_assoc, List.cons_append, List.nil_append] using whole
  case h_4 hk =>
    refine .advance_bind ((clause_covers ih _).bind (by omega) fun found =>
      Covers.expect.bind (by omega) fun _ => .pure fun us hend vs hvalue => ?_)
    have whole := (Written.one (stands_keyword hk (.inr rfl))).append
      (hvalue.append hend.symbol.last)
    cases found with
    | none => exact whole
    | some e => exact whole
  case h_5 hk =>
    refine .atLeast 6 ?_ (by omega)
    refine .advance_bind (Covers.expect.bind (by omega) fun _ => ih.expression.bind (by omega)
      fun condition => Covers.expect.bind (by omega) fun _ => ih.statement.withLoops.bind (by omega)
        fun body => ?_)
    exact .pure fun _ hbody _ hclose _ hcondition _ hopen =>
      (Written.one (stands_keyword hk (.inl rfl))).append (hopen.symbol.append
        (hcondition.append (hclose.symbol.append hbody.last)))
  case h_6 hk =>
    refine .advance_bind ((jumpStatement_covers _ _).mono (by omega) fun s ts h => ?_)
    rw [h.1]
    exact (Written.one (stands_keyword hk (.inr rfl))).append h.2
  case h_7 hk =>
    refine .advance_bind ((jumpStatement_covers _ _).mono (by omega) fun s ts h => ?_)
    rw [h.1]
    exact (Written.one (stands_keyword hk (.inr rfl))).append h.2
  case h_8 hk =>
    refine .advance_bind (ih.blockBody.bind (by omega) fun body => .pure fun us hbody => ?_)
    exact (Written.one (stands_symbol hk (.inl rfl))).append hbody.last
  case h_9 => exact (ih.expressionStatement.bounds (by omega)).within

theorem forStatement_covers (ih : Covering more ahead extra fuel) :
    Covers Anywhere more (fuel + 1) 1 1 ahead (forStatement (fuel + 1))
      (forStatement (extra + (fuel + 1))) fun _ _ => True := by
  apply Covers.succ
  let behind (f : Nat) (initial : Option RawStmt) : Reading RawStmt := do
    let condition ← unlessAt (.symbol .semicolon) (expression f)
    let _ ← expect .semicolon .afterLoopCondition
    let increment ← unlessAt (.symbol .rightParen) (expression f)
    let _ ← expect .rightParen .afterForClauses
    let body ← insideLoop (statement f)
    pure (.forLoop initial condition increment body)
  have clauses {Q : RawStmt → List Token → Prop} (hq : ∀ s ts, Q s ts) (initial : Option RawStmt) :
      Covers Anywhere more fuel 24 4 ahead (behind fuel initial)
        (behind (extra + fuel) initial) Q :=
    (clause_covers ih _).bind (by omega) fun _ => Covers.expect.bind (by omega) fun _ =>
      (clause_covers ih _).bind (by omega) fun _ => Covers.expect.bind (by omega) fun _ =>
        ih.statement.withLoops.bind (by omega) fun _ => .pure (by intros; apply hq)
  refine .atLeast 5 ?_ (by omega)
  refine Covers.expect.bind (by omega) fun _ => .accept_bind (by omega)
    ((clauses (by intros; trivial) none).bounds (by omega))
    (.at_bind (by omega) (fun t ht => ?_) ?_)
  · refine ((ih.variableDeclaration t ht).map (f := some) (R := fun _ _ => True)
      fun _ _ _ => trivial).bind (by omega) fun initial => ?_
    exact (clauses (by intros; trivial) initial).bounds (by omega)
  · refine (ih.expressionStatement.map (f := some) (R := fun _ _ => True)
      fun _ _ _ => trivial).bind (by omega) fun initial => ?_
    exact (clauses (by intros; trivial) initial).bounds (by omega)

/-- The readings take what they account for, whatever their fuel is. -/
theorem covering (hahead : ahead = 1 ∨ ahead = 0 ∧ Next (· ≠ .keyword .else_) more) (fuel : Nat) :
    Covering more ahead extra fuel := by
  have near : ahead ≤ 1 := by omega
  have far : 1 ≤ ahead ∨ Next (· ≠ .keyword .else_) more :=
    hahead.imp (fun h => Nat.le_of_eq h.symm) And.right
  induction fuel with
  | zero => exact covering_zero more ahead extra
  | succ fuel ih =>
    exact
      { expression := expression_covers ih
        sequenceTail := sequenceTail_covers ih
        conditional := conditional_covers ih
        assignment := assignment_covers ih
        operation := operation_covers ih
        operationTail := operationTail_covers ih
        operand := operand_covers ih
        unary := unary_covers ih
        callTail := callTail_covers ih
        argumentsFrom := argumentsFrom_covers ih
        primary := primary_covers ih
        blockBody := blockBody_covers ih near
        declaration := declaration_covers ih
        declared := declared_covers ih
        named := named_covers ih
        methodList := methodList_covers ih
        variableDeclaration := variableDeclaration_covers ih
        expressionStatement := expressionStatement_covers ih
        statement := statement_covers ih far
        forStatement := forStatement_covers ih }

theorem covering_alone (fuel : Nat) : Covering [] 0 0 fuel := covering (.inr ⟨rfl, .nil⟩) fuel

end Grammar

end Script
