import Script.Grammar.Reader

/-! Readings with more fuel, and the complaints that stop a reading.
A reading that is not out of fuel ends in the same way with any more of it. -/
namespace Script

/-- The complaint stopped the reading that made it. Others are noted, and the reading goes on. -/
def Report.isStop (r : Report) : Bool :=
  match r.complaint with
  | .expected _ => true
  | _ => false

namespace Grammar

variable {α β : Type}

def stops (reports : List Report) : List Report := reports.filter Report.isStop

theorem stops_append (reports more : List Report) :
    stops (reports ++ more) = stops reports ++ stops more := List.filter_append ..

theorem stops_one {report : Report} (h : report.isStop = true) : stops [report] = [report] := by
  rw [stops, List.filter_cons, if_pos h, List.filter_nil]

theorem stops_noted {report : Report} (h : report.isStop = false) (reports : List Report) :
    stops (reports ++ [report]) = stops reports := by
  rw [stops_append, stops, stops, List.filter_cons, h, if_neg Bool.false_ne_true, List.filter_nil,
    List.append_nil]

def NotesOnly (z : Reading Unit) : Prop :=
  ∀ r, ∃ report, report.isStop = false ∧
    z r = .ok () { r with reports := r.reports ++ [report] }

theorem notesOnly_here {complaint : Complaint} (h : ∀ missing, complaint ≠ .expected missing) :
    NotesOnly (noteHere complaint) := by
  intro r
  refine ⟨r.report complaint, ?_, rfl⟩
  unfold Report.isStop Reader.report
  cases r.rest <;> cases complaint <;> first | rfl | exact absurd rfl (h _)

theorem notesOnly_report {report : Report} (h : report.isStop = false) : NotesOnly (note report) :=
  fun _ => ⟨report, h, rfl⟩

/-- How the complaints that stop readings have grown at the end of a reading. -/
inductive Grown (r : Reader) : EStateM.Result Stop Reader α → Prop
  | ok {a s} (kept : stops r.reports <+: stops s.reports) : Grown r (.ok a s)
  | complaint {report s} (isStop : report.isStop = true)
    (kept : stops r.reports <+: stops s.reports) : Grown r (.error (.complaint report) s)
  | exhausted {s} : Grown r (.error .exhausted s)

theorem Grown.before {r s : Reader} {result : EStateM.Result Stop Reader α} (h : Grown s result)
    (kept : stops r.reports <+: stops s.reports) : Grown r result := by
  cases h with
  | ok kept' => exact .ok (kept.trans kept')
  | complaint isStop kept' => exact .complaint isStop (kept.trans kept')
  | exhausted => exact .exhausted

/-- The second reading ends as the first one does, unless that one is out of fuel. -/
structure Steady (x y : Reading α) : Prop where
  lasts : ∀ r, (∃ s, x r = .error .exhausted s) ∨ y r = x r
  grows : ∀ r, Grown r (x r)

namespace Steady

variable {x y : Reading α} {kind : Kind}

/-- A reading that needs no fuel. -/
theorem of_grown (h : ∀ r, Grown r (x r)) : Steady x x := ⟨fun _ => .inr rfl, h⟩

theorem of_same (h : ∀ r, ∃ a s, x r = .ok a s ∧ s.reports = r.reports) : Steady x x := by
  refine of_grown fun r => ?_
  obtain ⟨a, s, hx, same⟩ := h r
  rw [hx]
  exact .ok (same ▸ List.prefix_refl _)

theorem exhaust : Steady Grammar.exhaust y := ⟨fun r => .inl ⟨r, rfl⟩, fun _ => .exhausted⟩

theorem pure (a : α) : Steady (Pure.pure a : Reading α) (Pure.pure a) :=
  of_same fun r => ⟨a, r, rfl, rfl⟩

theorem stop (missing : Missing) :
    Steady (Grammar.stop missing : Reading α) (Grammar.stop missing) := by
  refine of_grown fun r => .complaint ?_ (List.prefix_refl _)
  unfold Reader.report
  cases r.rest <;> rfl

theorem notes {z : Reading Unit} (h : NotesOnly z) : Steady z z := by
  refine of_grown fun r => ?_
  obtain ⟨report, hn, hz⟩ := h r
  rw [hz]
  exact .ok (by simp only [stops_noted hn, List.prefix_refl])

theorem peek : Steady peek peek := of_same fun r => ⟨_, r, rfl, rfl⟩

theorem advance : Steady advance advance := of_same fun _ => ⟨_, _, rfl, rfl⟩

theorem atEnd : Steady atEnd atEnd := of_same fun r => ⟨_, r, rfl, rfl⟩

theorem loopsAround : Steady loopsAround loopsAround := of_same fun r => ⟨_, r, rfl, rfl⟩

theorem at_ : Steady (at_ kind) (at_ kind) := of_same fun r => ⟨_, r, rfl, rfl⟩

theorem nameFollows : Steady nameFollows nameFollows := of_same fun r => ⟨_, r, rfl, rfl⟩

theorem accept : Steady (accept kind) (accept kind) := by
  refine of_same fun r => ?_
  unfold Grammar.accept
  split <;> exact ⟨_, _, rfl, rfl⟩

theorem acceptMeaning {meaning : Kind → Option α} :
    Steady (acceptMeaning meaning) (acceptMeaning meaning) := by
  refine of_same fun r => ?_
  unfold Grammar.acceptMeaning
  split
  · exact ⟨_, _, rfl, rfl⟩
  · split <;> exact ⟨_, _, rfl, rfl⟩

theorem expect {symbol : Symbol} {landmark : Landmark} :
    Steady (expect symbol landmark) (expect symbol landmark) := by
  refine of_grown fun r => ?_
  have stopped := (stop (α := Nat) (.symbol symbol landmark)).grows r
  unfold Grammar.expect
  split
  · split
    · exact .ok (List.prefix_refl _)
    · exact stopped
  · exact stopped

theorem expectName {missing : Missing} : Steady (expectName missing) (expectName missing) := by
  refine of_grown fun r => ?_
  have stopped := (stop (α := Name) missing).grows r
  unfold Grammar.expectName
  split
  · split
    · exact .ok (List.prefix_refl _)
    · exact stopped
  · exact stopped

theorem bind {f g : α → Reading β} (h : Steady x y) (hf : ∀ a, Steady (f a) (g a)) :
    Steady (x >>= f) (y >>= g) where
  lasts r := by
    simp only [Bind.bind, EStateM.bind]
    rcases h.lasts r with ⟨s, hx⟩ | hy
    · rw [hx]
      exact .inl ⟨s, rfl⟩
    · rw [hy]
      cases x r with
      | ok a s => exact (hf a).lasts s
      | error e s => exact .inr rfl
  grows r := by
    have first := h.grows r
    simp only [Bind.bind, EStateM.bind]
    generalize x r = result at first ⊢
    cases first with
    | @ok a s kept => exact ((hf a).grows s).before kept
    | complaint isStop kept => exact .complaint isStop kept
    | exhausted => exact .exhausted

theorem map (f : α → β) (h : Steady x y) : Steady (f <$> x) (f <$> y) :=
  h.bind fun a => .pure (f a)

theorem withLoops (change : Nat → Nat) (h : Steady x y) :
    Steady (withLoops change x) (withLoops change y) where
  lasts r := by
    simp only [Grammar.withLoops]
    rcases h.lasts { r with loops := change r.loops } with ⟨s, hx⟩ | hy
    · rw [hx]
      exact .inl ⟨_, rfl⟩
    · rw [hy]
      exact .inr rfl
  grows r := by
    have inner := h.grows { r with loops := change r.loops }
    simp only [Grammar.withLoops]
    generalize x _ = result at inner ⊢
    cases inner with
    | ok kept => exact .ok kept
    | complaint isStop kept => exact .complaint isStop kept
    | exhausted => exact .exhausted

theorem recovering (h : Steady x y) : Steady (recovering x) (recovering y) where
  lasts r := by
    simp only [Grammar.recovering]
    rcases h.lasts r with ⟨s, hx⟩ | hy
    · rw [hx]
      exact .inl ⟨_, rfl⟩
    · rw [hy]
      exact .inr rfl
  grows r := by
    have inner := h.grows r
    simp only [Grammar.recovering]
    generalize x r = result at inner ⊢
    cases inner with
    | ok kept => exact .ok kept
    | complaint isStop kept =>
      refine .ok (kept.trans ?_)
      simp only [stops_append]
      exact List.prefix_append _ _
    | exhausted => exact .exhausted

theorem ite {c : Prop} [Decidable c] {x' y' : Reading α} (h : Steady x y) (h' : Steady x' y') :
    Steady (if c then x else x') (if c then y else y') := by
  split
  · exact h
  · exact h'

theorem unlessAt (h : Steady x y) : Steady (unlessAt kind x) (unlessAt kind y) :=
  at_.bind fun _ => ite (pure none) (h.map some)

theorem noteIf {c : Prop} [Decidable c] {z : Reading Unit} (hz : NotesOnly z) (h : Steady x y) :
    Steady (if c then z >>= fun _ => x else x) (if c then z >>= fun _ => y else y) :=
  ite ((notes hz).bind fun _ => h) h

end Steady

theorem Steady.kept {x y : Reading α} (steady : Steady x y) {r s : Reader} {a : α}
    (h : x r = .ok a s) : stops r.reports <+: stops s.reports := by
  have grown := steady.grows r
  rw [h] at grown
  cases grown with
  | ok kept => exact kept

/-- A reading that is not out of fuel ends in the same way with any more of it. -/
theorem Steady.settled {x : Nat → Reading α} (steady : ∀ n, Steady (x n) (x (n + 1))) {n : Nat}
    {r : Reader} (ends : ∀ s, x n r ≠ .error .exhausted s) {m : Nat} (more : n ≤ m) :
    x m r = x n r := by
  induction more with
  | refl => rfl
  | @step m _ ih =>
    rcases (steady m).lasts r with ⟨s, out⟩ | same
    · exact absurd (ih.symm.trans out) (ends s)
    · exact same.trans ih

/-- The readings of some fuel and those of one more. -/
structure Steadies (fuel : Nat) : Prop where
  expression : Steady (expression fuel) (expression (fuel + 1))
  sequenceTail : ∀ e, Steady (sequenceTail fuel e) (sequenceTail (fuel + 1) e)
  conditional : Steady (conditional fuel) (conditional (fuel + 1))
  assignment : Steady (assignment fuel) (assignment (fuel + 1))
  operation : ∀ level, Steady (operation fuel level) (operation (fuel + 1) level)
  operationTail : ∀ level e, Steady (operationTail fuel level e) (operationTail (fuel + 1) level e)
  operand : ∀ level, Steady (operand fuel level) (operand (fuel + 1) level)
  unary : Steady (unary fuel) (unary (fuel + 1))
  callTail : ∀ e, Steady (callTail fuel e) (callTail (fuel + 1) e)
  argumentsFrom : ∀ count, Steady (argumentsFrom fuel count) (argumentsFrom (fuel + 1) count)
  primary : Steady (primary fuel) (primary (fuel + 1))
  blockBody : Steady (blockBody fuel) (blockBody (fuel + 1))
  declaration : Steady (declaration fuel) (declaration (fuel + 1))
  declared : Steady (declared fuel) (declared (fuel + 1))
  named : ∀ role, Steady (named fuel role) (named (fuel + 1) role)
  methodList : Steady (methodList fuel) (methodList (fuel + 1))
  variableDeclaration : Steady (variableDeclaration fuel) (variableDeclaration (fuel + 1))
  expressionStatement : Steady (expressionStatement fuel) (expressionStatement (fuel + 1))
  statement : Steady (statement fuel) (statement (fuel + 1))
  forStatement : Steady (forStatement fuel) (forStatement (fuel + 1))

variable {fuel : Nat}

theorem steadies_zero : Steadies 0 where
  expression := .exhaust
  sequenceTail _ := .exhaust
  conditional := .exhaust
  assignment := .exhaust
  operation _ := .exhaust
  operationTail _ _ := .exhaust
  operand _ := .exhaust
  unary := .exhaust
  callTail _ := .exhaust
  argumentsFrom _ := .exhaust
  primary := .exhaust
  blockBody := .exhaust
  declaration := .exhaust
  declared := .exhaust
  named _ := .exhaust
  methodList := .exhaust
  variableDeclaration := .exhaust
  expressionStatement := .exhaust
  statement := .exhaust
  forStatement := .exhaust

theorem parametersFrom_steady (fuel count : Nat) :
    Steady (parametersFrom fuel count) (parametersFrom (fuel + 1) count) := by
  induction fuel generalizing count with
  | zero => exact .exhaust
  | succ fuel ih =>
    refine .noteIf (notesOnly_here nofun) (Steady.expectName.bind fun param =>
      Steady.accept.bind fun _ => ?_)
    exact .ite ((ih (count + 1)).bind fun _ => .pure _) (.pure _)

theorem parameters_steady (fuel : Nat) (role : Role) :
    Steady (parameters fuel role) (parameters (fuel + 1) role) :=
  (parametersFrom_steady fuel 0).unlessAt.bind fun _ => Steady.expect.bind fun _ =>
    Steady.expect.bind fun _ => .pure _

theorem jumpStatement_steady (jump : Jump) (line : Nat) :
    Steady (jumpStatement jump line) (jumpStatement jump line) :=
  Steady.loopsAround.bind fun _ =>
    .noteIf (notesOnly_report rfl) (Steady.expect.bind fun _ => .pure _)

theorem assignTo_steady (target : RawExpr) (equalLine : Nat) (value : RawExpr) :
    Steady (assignTo target equalLine value) (assignTo target equalLine value) := by
  cases target with
  | «variable» name site => exact .pure _
  | get object property => exact .pure _
  | _ => exact (Steady.notes (notesOnly_report rfl)).bind fun _ => .pure _

theorem primary_steady (ih : Steadies fuel) :
    Steady (primary (fuel + 1)) (primary (fuel + 2)) := by
  refine Steady.peek.bind fun next => ?_
  cases next with
  | none => exact .stop _
  | some t =>
    simp only
    split
    case h_8 =>
      exact Steady.advance.bind fun _ => ih.expression.bind fun _ => Steady.expect.bind fun _ =>
        .pure _
    case h_9 =>
      exact Steady.advance.bind fun _ => Steady.expect.bind fun _ =>
        (parameters_steady fuel .function).bind fun _ => (ih.blockBody.withLoops _).bind fun _ =>
          .pure _
    case h_10 => exact .stop _
    all_goals exact Steady.advance.bind fun _ => .pure _

theorem statement_steady (ih : Steadies fuel) :
    Steady (statement (fuel + 1)) (statement (fuel + 2)) := by
  refine Steady.peek.bind fun next => ?_
  cases next with
  | none => exact ih.expressionStatement
  | some t =>
    simp only
    split
    case h_1 =>
      exact Steady.advance.bind fun _ => ih.expression.bind fun _ => Steady.expect.bind fun _ =>
        .pure _
    case h_2 => exact Steady.advance.bind fun _ => ih.forStatement
    case h_3 =>
      refine Steady.advance.bind fun _ => Steady.expect.bind fun _ => ih.expression.bind fun _ =>
        Steady.expect.bind fun _ => ih.statement.bind fun _ => Steady.accept.bind fun _ => ?_
      exact .ite ((ih.statement.map some).bind fun _ => .pure _)
        ((Steady.pure none).bind fun _ => .pure _)
    case h_4 =>
      exact Steady.advance.bind fun _ => ih.expression.unlessAt.bind fun _ =>
        Steady.expect.bind fun _ => .pure _
    case h_5 =>
      exact Steady.advance.bind fun _ => Steady.expect.bind fun _ => ih.expression.bind fun _ =>
        Steady.expect.bind fun _ => (ih.statement.withLoops _).bind fun _ => .pure _
    case h_6 => exact Steady.advance.bind fun _ => jumpStatement_steady _ _
    case h_7 => exact Steady.advance.bind fun _ => jumpStatement_steady _ _
    case h_8 => exact Steady.advance.bind fun _ => ih.blockBody.bind fun _ => .pure _
    case h_9 => exact ih.expressionStatement

theorem forStatement_steady (ih : Steadies fuel) :
    Steady (forStatement (fuel + 1)) (forStatement (fuel + 2)) := by
  let behind (fuel : Nat) (initial : Option RawStmt) : Reading RawStmt := do
    let condition ← unlessAt (.symbol .semicolon) (expression fuel)
    let _ ← expect .semicolon .afterLoopCondition
    let increment ← unlessAt (.symbol .rightParen) (expression fuel)
    let _ ← expect .rightParen .afterForClauses
    let body ← insideLoop (statement fuel)
    pure (.forLoop initial condition increment body)
  have clauses (initial : Option RawStmt) :
      Steady (behind fuel initial) (behind (fuel + 1) initial) :=
    ih.expression.unlessAt.bind fun _ => Steady.expect.bind fun _ =>
      ih.expression.unlessAt.bind fun _ => Steady.expect.bind fun _ =>
        (ih.statement.withLoops _).bind fun _ => .pure _
  exact Steady.expect.bind fun _ => Steady.accept.bind fun _ =>
    .ite ((Steady.pure none).bind clauses) (Steady.at_.bind fun _ =>
      .ite ((ih.variableDeclaration.map some).bind clauses)
        ((ih.expressionStatement.map some).bind clauses))

theorem steadies_succ (ih : Steadies fuel) : Steadies (fuel + 1) where
  expression := ih.conditional.bind fun _ => ih.sequenceTail _
  sequenceTail e := Steady.accept.bind fun _ =>
    .ite (ih.conditional.bind fun _ => ih.sequenceTail _) (.pure _)
  conditional := ih.assignment.bind fun _ => Steady.accept.bind fun _ =>
    .ite (ih.conditional.bind fun _ => Steady.expect.bind fun _ => ih.conditional.bind fun _ =>
      .pure _) (.pure _)
  assignment := by
    refine (ih.operation .or).bind fun target => Steady.acceptMeaning.bind fun found => ?_
    cases found with
    | none => exact .pure _
    | some found => exact ih.conditional.bind fun _ => assignTo_steady _ _ _
  operation level := (ih.operand level).bind fun _ => ih.operationTail level _
  operationTail level e := by
    refine Steady.acceptMeaning.bind fun found => ?_
    cases found with
    | none => exact .pure _
    | some found => exact (ih.operand level).bind fun _ => ih.operationTail level _
  operand level := by
    cases level with
    | factor => exact ih.unary
    | _ => exact ih.operation _
  unary := by
    refine Steady.acceptMeaning.bind fun found => ?_
    cases found with
    | none => exact ih.primary.bind fun _ => ih.callTail _
    | some found => exact ih.unary.bind fun _ => .pure _
  callTail e := Steady.accept.bind fun _ =>
    .ite ((ih.argumentsFrom 0).unlessAt.bind fun _ => Steady.expect.bind fun _ => ih.callTail _)
      (Steady.accept.bind fun _ =>
        .ite (Steady.expectName.bind fun _ => ih.callTail _) (.pure _))
  argumentsFrom count := .noteIf (notesOnly_here nofun) (ih.conditional.bind fun _ =>
    Steady.accept.bind fun _ =>
      .ite ((ih.argumentsFrom (count + 1)).bind fun _ => .pure _) (.pure _))
  primary := primary_steady ih
  blockBody := Steady.atEnd.bind fun _ => Steady.at_.bind fun _ =>
    .ite (Steady.expect.bind fun _ => .pure _)
      (ih.declaration.bind fun _ => ih.blockBody.bind fun _ => .pure _)
  declaration := ih.declared.recovering
  declared := Steady.accept.bind fun _ =>
    .ite (Steady.expectName.bind fun _ => Steady.expect.bind fun _ => ih.methodList.bind fun _ =>
      Steady.expect.bind fun _ => .pure _)
      (Steady.at_.bind fun _ => Steady.nameFollows.bind fun _ =>
        .ite (Steady.advance.bind fun _ => (ih.named .function).bind fun _ => .pure _)
          (Steady.at_.bind fun _ => .ite ih.variableDeclaration ih.statement))
  named role := Steady.expectName.bind fun _ => Steady.expect.bind fun _ =>
    (parameters_steady fuel role).bind fun _ => (ih.blockBody.withLoops _).bind fun _ => .pure _
  methodList := Steady.atEnd.bind fun _ => Steady.at_.bind fun _ =>
    .ite (.pure _) ((ih.named .method).bind fun _ => ih.methodList.bind fun _ => .pure _)
  variableDeclaration := Steady.advance.bind fun _ => Steady.expectName.bind fun _ =>
    Steady.accept.bind fun _ =>
      .ite ((ih.expression.map some).bind fun _ => Steady.expect.bind fun _ => .pure _)
        ((Steady.pure none).bind fun _ => Steady.expect.bind fun _ => .pure _)
  expressionStatement := ih.expression.bind fun _ => Steady.expect.bind fun _ => .pure _
  statement := statement_steady ih
  forStatement := forStatement_steady ih

theorem steadies (fuel : Nat) : Steadies fuel := by
  induction fuel with
  | zero => exact steadies_zero
  | succ fuel ih => exact steadies_succ ih

end Grammar

end Script
