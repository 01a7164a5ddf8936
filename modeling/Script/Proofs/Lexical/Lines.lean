import Script.Binding
import Script.Proofs.Grammar.Lines

/-! Binding a program that stands on other lines.
Scopes know a name by its text only, so the same uses are bound over the same distances. -/
namespace Script

open Lexical Grammar

def Local.relined (line : Nat → Nat) (l : Local) : Local := { l with name := nameOn line l.name }

def Occurrence.relined (line : Nat → Nat) (o : Occurrence) : Occurrence :=
  { o with name := nameOn line o.name }

namespace Binding

variable {α β γ δ : Type}

def Context.relined (line : Nat → Nat) (s : Context) : Context :=
  { s with
    scopes := s.scopes.map (List.map (Local.relined line))
    reports := s.reports.map (Report.relined line)
    occurrences := s.occurrences.map (Occurrence.relined line) }

/-- On other lines the second binding does as the first one does. -/
def Carries (line : Nat → Nat) (x : Binder α) (f : α → β) (y : Binder β) : Prop :=
  ∀ s, y.run (s.relined line) = (f (x.run s).1, (x.run s).2.relined line)

variable {line : Nat → Nat}

theorem find?_relined (scope : Scope) (key : String) :
    Scope.find? (scope.map (Local.relined line)) key =
      (scope.find? key).map (Local.relined line) := by
  simp only [Scope.find?, List.find?_map]
  rfl

theorem holds_relined (scope : Scope) (key : String) :
    Scope.holds (scope.map (Local.relined line)) key = scope.holds key := by
  simp only [Scope.holds, find?_relined, Option.isSome_map]

theorem declare_relined (name : Name) (scope : Scope) :
    Scope.declare (nameOn line name) (scope.map (Local.relined line)) =
      (scope.declare name).map (Local.relined line) := by
  induction scope with
  | nil => rfl
  | cons l rest ih =>
    have same : ((l.relined line).key = (nameOn line name).text) ↔ l.key = name.text := Iff.rfl
    simp only [List.map_cons, Scope.declare, same]
    split
    · rfl
    · rw [ih, List.map_cons]

theorem advance_relined (key : String) (progress : Progress) (scope : Scope) :
    Scope.advance key progress (scope.map (Local.relined line)) =
      (scope.advance key progress).map (Local.relined line) := by
  induction scope with
  | nil => rfl
  | cons l rest ih =>
    have same : (l.relined line).key = key ↔ l.key = key := Iff.rfl
    simp only [List.map_cons, Scope.advance, same]
    split
    · rfl
    · rw [ih, List.map_cons]

theorem unused_relined (scope : Scope) : Scope.unused (scope.map (Local.relined line)) =
    scope.unused.map (Report.relined line) := by
  simp only [Scope.unused, List.filter_map, List.map_map]
  rfl

theorem distance?_relined (scopes : List Scope) (key : String) :
    Scope.distance? (scopes.map (List.map (Local.relined line))) key =
      Scope.distance? scopes key := by
  simp only [Scope.distance?, List.findIdx?_map]
  congr 1
  funext scope
  exact holds_relined scope key

theorem read_relined (scopes : List Scope) (distance : Nat) (key : String) :
    (scopes.map (List.map (Local.relined line))).modify distance
        (fun scope => Scope.advance key .read scope) =
      (scopes.modify distance fun scope => Scope.advance key .read scope).map
        (List.map (Local.relined line)) := by
  induction scopes generalizing distance with
  | nil => cases distance <;> rfl
  | cons scope outer ih =>
    cases distance with
    | zero =>
      simp only [List.map_cons, List.modify_zero_cons, advance_relined]
    | succ distance =>
      simp only [List.map_cons, List.modify_succ_cons, ih]

namespace Carries

variable {f : α → β} {x : Binder α} {y : Binder β}

theorem pure (a : α) : Carries line (Pure.pure a) f (Pure.pure (f a)) := fun _ => rfl

theorem bind {g : α → Binder γ} {h : γ → δ} {k : β → Binder δ} (hx : Carries line x f y)
    (hg : ∀ a, Carries line (g a) h (k (f a))) : Carries line (x >>= g) h (y >>= k) := by
  intro s
  have first := hx s
  have rest := hg (x.run s).1 (x.run s).2
  simp only [StateT.run_bind] at first ⊢
  rw [first]
  exact rest

theorem get_bind {g : Context → Binder α} {k : Context → Binder β}
    (h : ∀ s, Carries line (g s) f (k (s.relined line))) :
    Carries line (get >>= g) f (get >>= k) := fun s => h s s

theorem change {g k : Context → Context} (h : ∀ s, k (s.relined line) = (g s).relined line) :
    Carries line (modify g) (fun u => u) (modify k) := fun s => congrArg (Prod.mk ()) (h s)

theorem change_bind {g k : Context → Context} {n : Unit → Binder α} {n' : Unit → Binder β}
    (h : ∀ s, k (s.relined line) = (g s).relined line) (hn : Carries line (n ()) f (n' ())) :
    Carries line (modify g >>= n) f (modify k >>= n') :=
  (change h).bind fun _ => hn

theorem complain (name : Name) (complaint : Complaint) : Carries line
    (Binding.complain name complaint) (fun u => u)
    (Binding.complain (nameOn line name) complaint) := by
  refine change fun s => ?_
  simp only [Context.relined, List.map_append, List.map_cons, List.map_nil]
  rfl

theorem complainIf {c c' : Prop} [Decidable c] [Decidable c'] (same : c' ↔ c) {name : Name}
    {complaint : Complaint} {g : Unit → Binder α} {k : Unit → Binder β}
    (h : ∀ u, Carries line (g u) f (k u)) :
    Carries line (if c then Binding.complain name complaint >>= g else Pure.pure PUnit.unit >>= g) f
      (if c' then Binding.complain (nameOn line name) complaint >>= k
        else Pure.pure PUnit.unit >>= k) := by
  simp only [same]
  split
  · exact (complain name complaint).bind h
  · exact (pure PUnit.unit).bind h

theorem declare (name : Name) : Carries line (Binding.declare name) (fun u => u)
    (Binding.declare (nameOn line name)) := by
  refine get_bind fun s => ?_
  obtain ⟨scopes, enclosing, inClass, loops, reports, occurrences⟩ := s
  cases scopes with
  | nil => exact pure ()
  | cons scope outer =>
    have held : Scope.holds (scope.map (Local.relined line)) (nameOn line name).text ↔
        scope.holds name.text := by rw [holds_relined]; rfl
    refine complainIf held fun _ => change fun s => ?_
    simp only [Context.relined, List.map_cons, declare_relined]

theorem define (name : Name) : Carries line (Binding.define name) (fun u => u)
    (Binding.define (nameOn line name)) := by
  refine change fun s => ?_
  obtain ⟨scopes, enclosing, inClass, loops, reports, occurrences⟩ := s
  cases scopes with
  | nil => rfl
  | cons scope outer =>
    simp only [Context.relined, List.map_cons]
    exact congrArg (fun scope => Context.mk (scope :: _) _ _ _ _ _) (advance_relined _ _ scope)

theorem declareAndDefine (name : Name) : Carries line (Binding.declareAndDefine name) (fun u => u)
    (Binding.declareAndDefine (nameOn line name)) :=
  (declare name).bind fun _ => define name

theorem declareParams (params : List Name) : Carries line (params.forM Binding.declareAndDefine)
    (fun u => u) ((params.map (nameOn line)).forM Binding.declareAndDefine) := by
  induction params with
  | nil => exact pure PUnit.unit
  | cons name params ih => exact (declareAndDefine name).bind fun _ => ih

theorem occur (use : Use) (name : Name) : Carries line (Binding.occur use name) (fun site => site)
    (Binding.occur use (nameOn line name)) := by
  refine get_bind fun s => ?_
  have distance : Scope.distance? (s.relined line).scopes (nameOn line name).text =
      Scope.distance? s.scopes name.text := distance?_relined s.scopes name.text
  simp only [distance]
  cases Scope.distance? s.scopes name.text with
  | none => exact pure Site.global
  | some d =>
    refine change_bind (fun s => ?_) (pure (Site.local_ d))
    simp only [Context.relined, List.map_append, List.map_cons, List.map_nil]
    split
    · rfl
    · exact congrArg (fun scopes => Context.mk scopes _ _ _ _ _) (read_relined s.scopes d _)

theorem checkInitialized (name : Name) : Carries line (Binding.checkInitialized name) (fun u => u)
    (Binding.checkInitialized (nameOn line name)) := by
  refine get_bind fun s => ?_
  obtain ⟨scopes, enclosing, inClass, loops, reports, occurrences⟩ := s
  cases scopes with
  | nil => exact pure ()
  | cons scope outer =>
    have found : Scope.find? (scope.map (Local.relined line)) (nameOn line name).text =
        (scope.find? name.text).map (Local.relined line) := find?_relined scope name.text
    simp only [Context.relined, List.map_cons, found]
    cases scope.find? name.text with
    | none => exact pure ()
    | some l =>
      have progress : (l.relined line).progress = l.progress := rfl
      simp only [Option.map_some, progress]
      split
      · exact complain name _
      · exact pure ()

theorem inScope (first : Scope) (h : Carries line x f y) : Carries line (Binding.inScope first x) f
    (Binding.inScope (first.map (Local.relined line)) y) := by
  refine change_bind (fun _ => rfl) (h.bind fun a => change_bind (fun s => ?_) (pure a))
  obtain ⟨scopes, enclosing, inClass, loops, reports, occurrences⟩ := s
  cases scopes with
  | nil => rfl
  | cons scope outer =>
    simp only [Context.relined, List.map_cons, List.map_append, unused_relined]

theorem inFunction (enclosing : Enclosing) (h : Carries line x f y) :
    Carries line (Binding.inFunction enclosing x) f (Binding.inFunction enclosing y) :=
  get_bind fun _ => change_bind (fun _ => rfl) ((inScope [] h).bind fun a =>
    change_bind (fun _ => rfl) (pure a))

theorem inLoop (h : Carries line x f y) :
    Carries line (Binding.inLoop x) f (Binding.inLoop y) :=
  get_bind fun _ => change_bind (fun _ => rfl) (h.bind fun a =>
    change_bind (fun _ => rfl) (pure a))

theorem inClass (name : Name) (h : Carries line x f y) :
    Carries line (Binding.inClass name x) f (Binding.inClass (nameOn line name) y) :=
  get_bind fun _ => change_bind (fun _ => rfl) ((declareAndDefine name).bind fun _ =>
    (inScope (Scope.ofClass name) h).bind fun a => change_bind (fun _ => rfl) (pure a))

end Carries

mutual

theorem bindExpr_carries (e : RawExpr) : Carries line (bindExpr e)
    (translateExpr (.relined line) fun site => site) (bindExpr (exprOn line e)) := by
  cases e with
  | literal value => exact .pure (Expr.literal value)
  | grouping inner => exact (bindExpr_carries inner).bind fun inner => .pure (Expr.grouping inner)
  | «variable» name site =>
    exact (Carries.checkInitialized name).bind fun _ => (Carries.occur .variable name).bind
      fun site => .pure (Expr.variable name site)
  | assign name site value =>
    exact (bindExpr_carries value).bind fun value => (Carries.occur .assign name).bind fun site =>
      .pure (Expr.assign name site value)
  | this l site =>
    refine .get_bind fun s => ?_
    cases hs : s.inClass with
    | true =>
      simp only [Context.relined, hs, if_true]
      exact (Carries.occur .this _).bind fun site => .pure (Expr.this l site)
    | false =>
      simp only [Context.relined, hs]
      exact (Carries.complain _ _).bind fun _ => .pure (Expr.this l Site.global)
  | unary op l operand =>
    exact (bindExpr_carries operand).bind fun operand => .pure (Expr.unary op l operand)
  | binary left op l right =>
    exact (bindExpr_carries left).bind fun left => (bindExpr_carries right).bind fun right =>
      .pure (Expr.binary left op l right)
  | logical left op l right =>
    exact (bindExpr_carries left).bind fun left => (bindExpr_carries right).bind fun right =>
      .pure (Expr.logical left op l right)
  | ternary condition yes no =>
    exact (bindExpr_carries condition).bind fun condition => (bindExpr_carries yes).bind fun yes =>
      (bindExpr_carries no).bind fun no => .pure (Expr.ternary condition yes no)
  | sequence earlier last =>
    exact (bindExpr_carries earlier).bind fun earlier => (bindExpr_carries last).bind fun last =>
      .pure (Expr.sequence earlier last)
  | call callee l arguments =>
    exact (bindExpr_carries callee).bind fun callee => (bindExprs_carries arguments).bind
      fun arguments => .pure (Expr.call callee l arguments)
  | get object property =>
    exact (bindExpr_carries object).bind fun object => .pure (Expr.get object property)
  | set object property value =>
    exact (bindExpr_carries value).bind fun value => (bindExpr_carries object).bind fun object =>
      .pure (Expr.set object property value)
  | function params body =>
    exact (Carries.inFunction _ ((Carries.declareParams params).bind fun _ =>
      bindStmts_carries body)).bind fun body => .pure (Expr.function params body)

theorem bindExprs_carries (es : List RawExpr) : Carries line (bindExprs es)
    (translateExprs (.relined line) fun site => site)
    (bindExprs (translateExprs (.relined line) (fun u => u) es)) := by
  cases es with
  | nil => exact .pure []
  | cons e es =>
    exact (bindExpr_carries e).bind fun e => (bindExprs_carries es).bind fun es => .pure (e :: es)

theorem bindStmt_carries (s : RawStmt) : Carries line (bindStmt s)
    (translateStmt (.relined line) fun site => site) (bindStmt (stmtOn line s)) := by
  cases s with
  | expression e => exact (bindExpr_carries e).bind fun e => .pure (Stmt.expression e)
  | print e => exact (bindExpr_carries e).bind fun e => .pure (Stmt.print e)
  | var name initial =>
    cases initial with
    | none => exact (Carries.declareAndDefine name).bind fun _ => .pure (Stmt.var name none)
    | some e =>
      exact (Carries.declare name).bind fun _ => (bindExpr_carries e).bind fun e =>
        (Carries.define name).bind fun _ => .pure (Stmt.var name (some e))
  | block body =>
    exact (Carries.inScope [] (bindStmts_carries body)).bind fun body => .pure (Stmt.block body)
  | step body increment =>
    exact .inScope [] ((bindStmt_carries body).bind fun body => (bindExpr_carries increment).bind
      fun increment => .pure (Stmt.step body increment))
  | if_ condition yes no =>
    cases no with
    | none =>
      exact (bindExpr_carries condition).bind fun condition => (bindStmt_carries yes).bind
        fun yes => .pure (Stmt.if_ condition yes none)
    | some no =>
      exact (bindExpr_carries condition).bind fun condition => (bindStmt_carries yes).bind
        fun yes => (bindStmt_carries no).bind fun no => .pure (Stmt.if_ condition yes (some no))
  | while_ condition body =>
    exact (bindExpr_carries condition).bind fun condition =>
      (Carries.inLoop (bindStmt_carries body)).bind fun body => .pure (Stmt.while_ condition body)
  | jump jump l =>
    exact .get_bind fun _ => .complainIf Iff.rfl fun _ => .pure (Stmt.jump jump l)
  | function name params body =>
    exact (Carries.declareAndDefine name).bind fun _ =>
      (Carries.inFunction _ ((Carries.declareParams params).bind fun _ =>
        bindStmts_carries body)).bind fun body => .pure (Stmt.function name params body)
  | return_ l value =>
    cases value with
    | none => exact .get_bind fun _ => .complainIf Iff.rfl fun _ => .pure (Stmt.return_ l none)
    | some e =>
      exact .get_bind fun _ => .complainIf Iff.rfl fun _ => .get_bind fun _ =>
        .complainIf Iff.rfl fun _ => (bindExpr_carries e).bind fun e =>
          .pure (Stmt.return_ l (some e))
  | class_ name methods =>
    exact (Carries.inClass name (bindMethods_carries methods)).bind fun methods =>
      .pure (Stmt.class_ name methods)

theorem bindStmts_carries (ss : List RawStmt) : Carries line (bindStmts ss)
    (translateStmts (.relined line) fun site => site) (bindStmts (stmtsOn line ss)) := by
  cases ss with
  | nil => exact .pure []
  | cons s ss =>
    exact (bindStmt_carries s).bind fun s => (bindStmts_carries ss).bind fun ss => .pure (s :: ss)

theorem bindMethods_carries (ms : List RawMethod) : Carries line (bindMethods ms)
    (translateMethods (.relined line) fun site => site)
    (bindMethods (translateMethods (.relined line) (fun u => u) ms)) := by
  cases ms with
  | nil => exact .pure []
  | cons m ms =>
    cases m with
    | mk name params body =>
      exact (Carries.inFunction (methodEnclosing name) ((Carries.declareParams params).bind fun _ =>
        bindStmts_carries body)).bind fun body => (bindMethods_carries ms).bind fun ms =>
          .pure (Method.mk name params body :: ms)

end

def Bound.relined (line : Nat → Nat) (bound : Bound) : Bound where
  statements := translateStmts (.relined line) (fun site => site) bound.statements
  reports := bound.reports.map (Report.relined line)
  occurrences := bound.occurrences.map (Occurrence.relined line)

theorem bindProgram_lines (line : Nat → Nat) (program : List RawStmt) :
    bindProgram (stmtsOn line program) = (bindProgram program).relined line := by
  have carries : Carries line (bindStmts program)
      (translateStmts (.relined line) fun site => site) (bindStmts (stmtsOn line program)) :=
    bindStmts_carries program
  have bound := carries ⟨[], .none, false, 0, [], []⟩
  have outermost : Context.relined line ⟨[], .none, false, 0, [], []⟩ =
      ⟨[], .none, false, 0, [], []⟩ := rfl
  rw [outermost] at bound
  simp only [bindProgram, bound]
  rfl

end Binding

end Script
