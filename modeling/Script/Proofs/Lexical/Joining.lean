import Script.Proofs.Lexical.Sites

/-! Programs bound behind one another.
What a binder does depends on the scopes around and not on the uses found so far, to which it only
adds. -/
namespace Script.Lexical

open Script.Binding Grammar

variable {α β : Type}

def Context.behind (before : List Occurrence) (s : Context) : Context :=
  { s with occurrences := before ++ s.occurrences }

/-- A binder does the same whatever uses were found before. -/
def Adds (x : Binder α) : Prop :=
  ∀ before s, (x.run (Context.behind before s)).run =
    ((x.run s).run.1, Context.behind before (x.run s).run.2)

namespace Adds

variable {x : Binder α}

theorem pure (a : α) : Adds (Pure.pure a) := fun _ _ => rfl

theorem bind {f : α → Binder β} (h : Adds x) (hf : ∀ a, Adds (f a)) : Adds (x >>= f) := by
  intro before s
  have first := h before s
  simp only [StateT.run_bind, Id.run_bind] at first ⊢
  rw [first]
  exact hf _ before _

theorem change {f : Context → Context}
    (h : ∀ before s, f (Context.behind before s) = Context.behind before (f s)) :
    Adds (modify f) := fun before s => congrArg (Prod.mk ()) (h before s)

theorem get_bind {f : Context → Binder β}
    (h : ∀ before s, f (Context.behind before s) = f s) (hf : ∀ s, Adds (f s)) :
    Adds (get >>= f) := by
  intro before s
  show ((f (Context.behind before s)).run _).run = _
  rw [h]
  exact hf s before s

theorem complain (name : Name) (c : Complaint) : Adds (Binding.complain name c) :=
  change fun _ _ => rfl

theorem complainIf {c : Prop} [Decidable c] {name : Name} {k : Complaint} {f : Unit → Binder β}
    (h : ∀ u, Adds (f u)) :
    Adds (if c then Binding.complain name k >>= f else Pure.pure PUnit.unit >>= f) := by
  split
  · exact (complain name k).bind h
  · exact (pure PUnit.unit).bind h

theorem declare (name : Name) : Adds (Binding.declare name) := by
  refine get_bind (fun _ _ => rfl) fun s => ?_
  split
  · exact pure ()
  · exact complainIf fun _ => change fun _ _ => rfl

theorem define (name : Name) : Adds (Binding.define name) := by
  refine change fun before s => ?_
  cases s with
  | mk scopes => cases scopes <;> rfl

theorem declareAndDefine (name : Name) : Adds (Binding.declareAndDefine name) :=
  (declare name).bind fun _ => define name

theorem declareParams (params : List Name) : Adds (params.forM Binding.declareAndDefine) := by
  induction params with
  | nil => exact pure ()
  | cons name params ih => exact (declareAndDefine name).bind fun _ => ih

theorem occur (use : Use) (name : Name) : Adds (Binding.occur use name) := by
  refine get_bind (fun _ _ => rfl) fun s => ?_
  split
  · exact pure _
  · refine (change fun before s => ?_).bind fun _ => pure _
    simp only [Context.behind, List.append_assoc]

theorem checkInitialized (name : Name) : Adds (Binding.checkInitialized name) := by
  refine get_bind (fun _ _ => rfl) fun s => ?_
  split
  · exact pure ()
  · split
    · split
      · exact complain _ _
      · exact pure _
    · exact pure ()

theorem inScope (first : Scope) (h : Adds x) : Adds (Binding.inScope first x) := by
  refine (change fun _ _ => rfl).bind fun _ => h.bind fun a => (change fun before s => ?_).bind
    fun _ => pure a
  cases s with
  | mk scopes => cases scopes <;> rfl

theorem inFunction (enclosing : Enclosing) (h : Adds x) : Adds (Binding.inFunction enclosing x) :=
  get_bind (fun _ _ => rfl) fun _ => (change fun _ _ => rfl).bind fun _ => (inScope [] h).bind
    fun a => (change fun _ _ => rfl).bind fun _ => pure a

theorem inLoop (h : Adds x) : Adds (Binding.inLoop x) :=
  get_bind (fun _ _ => rfl) fun _ => (change fun _ _ => rfl).bind fun _ => h.bind
    fun a => (change fun _ _ => rfl).bind fun _ => pure a

theorem inClass (name : Name) (h : Adds x) : Adds (Binding.inClass name x) :=
  get_bind (fun _ _ => rfl) fun _ => (change fun _ _ => rfl).bind fun _ =>
    (declareAndDefine name).bind fun _ => (inScope _ h).bind
      fun a => (change fun _ _ => rfl).bind fun _ => pure a

end Adds

mutual

theorem bindExpr_adds (e : RawExpr) : Adds (bindExpr e) := by
  cases e with
  | literal value => exact .pure _
  | grouping inner => exact (bindExpr_adds inner).bind fun _ => .pure _
  | «variable» name site =>
    exact (Adds.checkInitialized name).bind fun _ => (Adds.occur .variable name).bind fun _ =>
      .pure _
  | assign name site value =>
    exact (bindExpr_adds value).bind fun _ => (Adds.occur .assign name).bind fun _ => .pure _
  | this line site =>
    refine .get_bind (fun _ _ => rfl) fun s => ?_
    split
    · exact (Adds.occur .this _).bind fun _ => .pure _
    · exact (Adds.complain _ _).bind fun _ => .pure _
  | unary op line operand => exact (bindExpr_adds operand).bind fun _ => .pure _
  | binary left op line right =>
    exact (bindExpr_adds left).bind fun _ => (bindExpr_adds right).bind fun _ => .pure _
  | logical left op line right =>
    exact (bindExpr_adds left).bind fun _ => (bindExpr_adds right).bind fun _ => .pure _
  | ternary condition yes no =>
    exact (bindExpr_adds condition).bind fun _ => (bindExpr_adds yes).bind fun _ =>
      (bindExpr_adds no).bind fun _ => .pure _
  | sequence earlier last =>
    exact (bindExpr_adds earlier).bind fun _ => (bindExpr_adds last).bind fun _ => .pure _
  | call callee line arguments =>
    exact (bindExpr_adds callee).bind fun _ => (bindExprs_adds arguments).bind fun _ => .pure _
  | get object property => exact (bindExpr_adds object).bind fun _ => .pure _
  | set object property value =>
    exact (bindExpr_adds value).bind fun _ => (bindExpr_adds object).bind fun _ => .pure _
  | function params body =>
    exact (Adds.inFunction _ ((Adds.declareParams params).bind fun _ => bindStmts_adds body)).bind
      fun _ => .pure _

theorem bindExprs_adds (es : List RawExpr) : Adds (bindExprs es) := by
  cases es with
  | nil => exact .pure _
  | cons e es => exact (bindExpr_adds e).bind fun _ => (bindExprs_adds es).bind fun _ => .pure _

theorem bindStmt_adds (s : RawStmt) : Adds (bindStmt s) := by
  cases s with
  | expression e => exact (bindExpr_adds e).bind fun _ => .pure _
  | print e => exact (bindExpr_adds e).bind fun _ => .pure _
  | var name initial =>
    cases initial with
    | none => exact (Adds.declareAndDefine name).bind fun _ => .pure _
    | some e =>
      exact (Adds.declare name).bind fun _ => (bindExpr_adds e).bind fun _ =>
        (Adds.define name).bind fun _ => .pure _
  | block body => exact (Adds.inScope [] (bindStmts_adds body)).bind fun _ => .pure _
  | step body increment =>
    exact .inScope [] ((bindStmt_adds body).bind fun _ => (bindExpr_adds increment).bind
      fun _ => .pure _)
  | if_ condition yes no =>
    cases no with
    | none =>
      exact (bindExpr_adds condition).bind fun _ => (bindStmt_adds yes).bind fun _ => .pure _
    | some no =>
      exact (bindExpr_adds condition).bind fun _ => (bindStmt_adds yes).bind fun _ =>
        (bindStmt_adds no).bind fun _ => .pure _
  | while_ condition body =>
    exact (bindExpr_adds condition).bind fun _ => (Adds.inLoop (bindStmt_adds body)).bind
      fun _ => .pure _
  | jump jump line => exact .get_bind (fun _ _ => rfl) fun _ => .complainIf fun _ => .pure _
  | function name params body =>
    exact (Adds.declareAndDefine name).bind fun _ =>
      (Adds.inFunction _ ((Adds.declareParams params).bind fun _ => bindStmts_adds body)).bind
        fun _ => .pure _
  | return_ line value =>
    cases value with
    | none => exact .get_bind (fun _ _ => rfl) fun _ => .complainIf fun _ => .pure _
    | some e =>
      exact .get_bind (fun _ _ => rfl) fun _ => .complainIf fun _ =>
        .get_bind (fun _ _ => rfl) fun _ => .complainIf fun _ =>
          (bindExpr_adds e).bind fun _ => .pure _
  | class_ name methods =>
    exact (Adds.inClass name (bindMethods_adds methods)).bind fun _ => .pure _

theorem bindStmts_adds (ss : List RawStmt) : Adds (bindStmts ss) := by
  cases ss with
  | nil => exact .pure _
  | cons s ss => exact (bindStmt_adds s).bind fun _ => (bindStmts_adds ss).bind fun _ => .pure _

theorem bindMethods_adds (ms : List RawMethod) : Adds (bindMethods ms) := by
  cases ms with
  | nil => exact .pure _
  | cons m ms =>
    cases m with
    | mk name params body =>
      exact (Adds.inFunction _ ((Adds.declareParams params).bind fun _ =>
        bindStmts_adds body)).bind fun _ => (bindMethods_adds ms).bind fun _ => .pure _

end

theorem bindStmts_append (ss ts : List RawStmt) : bindStmts (ss ++ ts) =
    (bindStmts ss >>= fun ss => bindStmts ts >>= fun ts => pure (ss ++ ts)) := by
  induction ss with
  | nil => simp [bindStmts]
  | cons s ss ih => simp [bindStmts, ih]

/-- What an accepted program leaves behind is the top level, with the uses that it found. -/
theorem bindStmts_outermost {program : List RawStmt}
    (plain : ∀ x ∈ stmtsNodes (.top 0) program, x.2.Plain)
    (accepted : (bindProgram program).reports = []) :
    ((bindStmts program).run outermost).run =
      ((bindProgram program).statements,
        Context.behind (bindProgram program).occurrences outermost) := by
  obtain ⟨fits, kept, -⟩ := bindStmts_finds (.top 0) program plain outermost fits_outermost
  have scopes := scopes_outermost fits (afterAll_outermost program rfl)
  refine Prod.ext rfl ?_
  change ((bindStmts program).run outermost).run.2.reports = [] at accepted
  show _ = Context.behind ((bindStmts program).run outermost).run.2.occurrences outermost
  generalize ((bindStmts program).run outermost).run.2 = t at scopes kept accepted ⊢
  obtain ⟨_, enclosing, inClass, loops, _, occurrences⟩ := t
  cases kept.loops
  cases kept.enclosing
  cases kept.inClass
  cases scopes
  cases accepted
  simp only [Context.behind, outermost, List.append_nil]

/-- Behind an accepted program another one is bound as it is on its own. -/
theorem bindProgram_append {program : List RawStmt}
    (plain : ∀ x ∈ stmtsNodes (.top 0) program, x.2.Plain)
    (accepted : (bindProgram program).reports = []) (more : List RawStmt) :
    bindProgram (program ++ more) =
      ⟨(bindProgram program).statements ++ (bindProgram more).statements,
        (bindProgram more).reports,
        (bindProgram program).occurrences ++ (bindProgram more).occurrences⟩ := by
  have first := bindStmts_outermost plain accepted
  have second := bindStmts_adds more (bindProgram program).occurrences outermost
  show Bound.mk ((bindStmts (program ++ more)).run outermost).run.1
    ((bindStmts (program ++ more)).run outermost).run.2.reports
    ((bindStmts (program ++ more)).run outermost).run.2.occurrences = _
  rw [bindStmts_append]
  simp only [StateT.run_bind, StateT.run_pure, Id.run_bind, Id.run_pure] at first second ⊢
  rw [first]
  simp only [second]
  rfl

end Script.Lexical
