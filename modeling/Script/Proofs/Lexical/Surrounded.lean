import Mathlib.Data.List.Perm.Basic
import Script.Proofs.Lexical.Sites
import Script.Proofs.Lexical.Surroundings

/-! Complaints about what surrounds a place.
Binding keeps the number of loops, the kind of function and whether there is a class around, changes
them where a construct begins and puts them back where it ends. -/
namespace Script

open Lexical Binding

namespace Lexical

variable {α β : Type}

/-- The complaint is about what surrounds a place. -/
def isSurrounding (r : Report) : Bool :=
  match r.complaint with
  | .jumpOutsideLoop _ | .returnAtTopLevel | .returnFromInitializer | .thisOutsideClass => true
  | _ => false

/-- A complaint at a keyword. -/
def reportAt (keyword : Keyword) (line : Nat) (complaint : Complaint) : Report :=
  ⟨line, .atToken keyword.spelling, complaint⟩

/-- A jump that stands in no loop of its function. -/
def strayJump? : Surroundings × Node Unit → Option Report
  | (around, .stmt (.jump jump line)) =>
    if around.inLoop then none else some (reportAt jump.keyword line (.jumpOutsideLoop jump))
  | _ => none

/-- A return that stands in no function. -/
def topReturn? : Surroundings × Node Unit → Option Report
  | (around, .stmt (.return_ line _)) =>
    if around.function? = none then some (reportAt .return_ line .returnAtTopLevel) else none
  | _ => none

/-- A return with a value, of which the innermost function around is an initializer. -/
def initializerReturn? : Surroundings × Node Unit → Option Report
  | (around, .stmt (.return_ line (some _))) =>
    if around.inInitializer then some (reportAt .return_ line .returnFromInitializer) else none
  | _ => none

/-- An instance that stands in no class. -/
def strayThis? : Surroundings × Node Unit → Option Report
  | (around, .expr (.this line _)) =>
    if around.inClass then none else some (reportAt .this_ line .thisOutsideClass)
  | _ => none

/-- All that is complained of at a node because of its surroundings. -/
def surroundingReports (x : Surroundings × Node Unit) : List Report :=
  (strayJump? x).toList ++ (topReturn? x).toList ++ (initializerReturn? x).toList ++
    (strayThis? x).toList

namespace Surroundings

def enclosing (around : Surroundings) : Enclosing :=
  match around.function? with
  | some (.method name) => methodEnclosing name
  | some _ => .function
  | none => .none

variable {around : Surroundings}

theorem enclosing_eq_none_iff : around.enclosing = .none ↔ around.function? = none := by
  unfold enclosing
  cases around.function? with
  | none => exact ⟨fun _ => rfl, fun _ => rfl⟩
  | some c =>
    refine ⟨fun h => ?_, nofun⟩
    cases c with
    | method name =>
      simp only [methodEnclosing] at h
      split at h <;> cases h
    | _ => cases h

theorem enclosing_eq_initializer_iff :
    around.enclosing = .initializer ↔ around.inInitializer = true := by
  unfold enclosing inInitializer
  cases around.function? with
  | none => constructor <;> intro h <;> cases h
  | some c =>
    cases c with
    | method name =>
      simp only [methodEnclosing, beq_iff_eq]
      split
      · exact ⟨fun _ => ‹_›, fun _ => rfl⟩
      · exact ⟨Enclosing.noConfusion, fun h => absurd h ‹_›⟩
    | _ => constructor <;> intro h <;> cases h

end Surroundings

structure Surrounded (around : Surroundings) (s : Context) : Prop where
  loops : around.inLoop = decide (s.loops ≠ 0)
  enclosing : s.enclosing = around.enclosing
  inClass : s.inClass = around.inClass

theorem Surrounded.kept {around : Surroundings} {s t : Context} (h : Surrounded around s)
    (kept : Kept s t) : Surrounded around t :=
  ⟨kept.loops ▸ h.loops, kept.enclosing.trans h.enclosing, kept.inClass.trans h.inClass⟩

/-- From one context to another the nodes were bound: all around is as it was, and what was complained
of the surroundings in between is what they say of the nodes. -/
structure Told (nodes : List (Surroundings × Node Unit)) (s t : Context) : Prop
    extends Kept s t where
  reports : (t.reports.filter isSurrounding).Perm
    (s.reports.filter isSurrounding ++ nodes.flatMap surroundingReports)

namespace Told

variable {nodes nodes' : List (Surroundings × Node Unit)} {s t u : Context}

theorem same (kept : Kept s t) (reports : t.reports = s.reports) : Told [] s t :=
  ⟨kept, by rw [reports, List.flatMap_nil, List.append_nil]⟩

theorem refl (s : Context) : Told [] s s := same ⟨rfl, rfl, rfl⟩ rfl

theorem other (kept : Kept s t) {more : List Report} (reports : t.reports = s.reports ++ more)
    (others : ∀ r ∈ more, isSurrounding r = false) : Told [] s t := by
  have none : more.filter isSurrounding = [] :=
    List.filter_eq_nil_iff.mpr fun r hr => by rw [others r hr]; exact Bool.false_ne_true
  exact ⟨kept, by rw [reports, List.filter_append, none, List.flatMap_nil]⟩

theorem trans (h : Told nodes s t) (h' : Told nodes' t u) : Told (nodes ++ nodes') s u := by
  refine ⟨h.toKept.trans h'.toKept, h'.reports.trans ?_⟩
  rw [List.flatMap_append, ← List.append_assoc]
  exact h.reports.append_right _

theorem weaken (h : Told nodes s t) (same : nodes.Perm nodes') : Told nodes' s t :=
  ⟨h.toKept, h.reports.trans ((same.flatMap_right _).append_left _)⟩

end Told

def Tells (around : Surroundings) (x : Binder α) (nodes : List (Surroundings × Node Unit)) : Prop :=
  ∀ s, Surrounded around s → Told nodes s (x.run s).run.2

namespace Tells

variable {around : Surroundings} {x : Binder α} {nodes nodes' : List (Surroundings × Node Unit)}

theorem pure (a : α) : Tells around (Pure.pure a) [] := fun s _ => .refl s

theorem bind {f : α → Binder β} (h : Tells around x nodes) (hf : ∀ a, Tells around (f a) nodes') :
    Tells around (x >>= f) (nodes ++ nodes') :=
  fun s hs => (h s hs).trans (hf _ _ (hs.kept (h s hs).toKept))

theorem before {f : α → Binder β} (h : Tells around x nodes) (hf : ∀ a, Tells around (f a) []) :
    Tells around (x >>= f) nodes := by
  have both := h.bind hf
  rwa [List.append_nil] at both

theorem behind {f : α → Binder β} (h : Tells around x []) (hf : ∀ a, Tells around (f a) nodes) :
    Tells around (x >>= f) nodes := h.bind hf

theorem weaken (h : Tells around x nodes) (same : nodes.Perm nodes') : Tells around x nodes' :=
  fun s hs => (h s hs).weaken same

theorem node (h : Tells around x nodes) {node : Node Unit}
    (silent : surroundingReports (around, node) = []) : Tells around x ((around, node) :: nodes) := by
  refine fun s hs => ⟨(h s hs).toKept, ?_⟩
  rw [List.flatMap_cons, silent, List.nil_append]
  exact (h s hs).reports

theorem change {f : Context → Context} (h : ∀ s, Told [] s (f s)) : Tells around (modify f) [] :=
  fun s _ => h s

theorem get_bind {f : Context → Binder β} (h : ∀ s, Surrounded around s → Tells around (f s) nodes) :
    Tells around (get >>= f) nodes := fun s hs => h s hs s hs

theorem complain (name : Name) {c : Complaint}
    (other : isSurrounding ⟨name.line, .atToken name.text, c⟩ = false) :
    Tells around (Binding.complain name c) [] :=
  change fun _ => .other ⟨rfl, rfl, rfl⟩ rfl fun _ hr => List.mem_singleton.mp hr ▸ other

theorem complained {node : Node Unit} (keyword : Keyword) (line : Nat) (c : Complaint)
    (told : surroundingReports (around, node) = [reportAt keyword line c])
    (about : isSurrounding (reportAt keyword line c) = true) :
    Tells around (complainAt keyword line c) [(around, node)] := by
  refine fun s _ => ⟨⟨rfl, rfl, rfl⟩, ?_⟩
  have found : ((complainAt keyword line c).run s).run.2.reports =
    s.reports ++ [reportAt keyword line c] := rfl
  rw [found, List.filter_append, List.filter_cons, if_pos about, List.filter_nil, List.flatMap_cons,
    told, List.flatMap_nil, List.append_nil]

theorem declare (name : Name) : Tells around (Binding.declare name) [] := by
  refine get_bind fun s _ => ?_
  split
  · exact pure ()
  · split
    · exact (complain name rfl).behind fun _ => change fun _ => .same ⟨rfl, rfl, rfl⟩ rfl
    · exact change fun _ => .same ⟨rfl, rfl, rfl⟩ rfl

theorem define (name : Name) : Tells around (Binding.define name) [] := by
  refine change fun s => ?_
  cases s with
  | mk scopes => cases scopes <;> exact .same ⟨rfl, rfl, rfl⟩ rfl

theorem declareAndDefine (name : Name) : Tells around (Binding.declareAndDefine name) [] :=
  (declare name).behind fun _ => define name

theorem declareParams (params : List Name) :
    Tells around (params.forM Binding.declareAndDefine) [] := by
  induction params with
  | nil => exact pure ()
  | cons name params ih => exact (declareAndDefine name).behind fun _ => ih

theorem occur (use : Use) (name : Name) : Tells around (Binding.occur use name) [] := by
  refine get_bind fun s _ => ?_
  split
  · exact pure _
  · refine (change fun s => ?_).behind fun _ => pure _
    exact .same ⟨rfl, rfl, rfl⟩ rfl

theorem checkInitialized (name : Name) : Tells around (Binding.checkInitialized name) [] := by
  refine get_bind fun s _ => ?_
  split
  · exact pure ()
  · split
    · split
      · exact complain _ rfl
      · exact pure _
    · exact pure ()

theorem inScope (first : Scope) (h : Tells around x nodes) :
    Tells around (Binding.inScope first x) nodes := by
  refine (change fun s => ?_).behind fun _ => h.before fun a =>
    (change fun s => ?_).behind fun _ => pure a
  · exact .same ⟨rfl, rfl, rfl⟩ rfl
  · cases s with
    | mk scopes =>
      cases scopes with
      | nil => exact .refl _
      | cons scope outer =>
        refine .other ⟨rfl, rfl, rfl⟩ rfl fun r hr => ?_
        obtain ⟨l, _, rfl⟩ := List.mem_map.mp hr
        rfl

theorem inFunction {c : Construct} {enclosing : Enclosing} (hc : c.isFunction = true)
    (he : Surroundings.enclosing (c :: around) = enclosing) (h : Tells (c :: around) x nodes) :
    Tells around (Binding.inFunction enclosing x) nodes := by
  intro s hs
  have loopless : Surroundings.inLoop (c :: around) = false := by
    rw [Surroundings.inLoop, List.takeWhile_cons, hc]
    rfl
  have inClass : Surroundings.inClass (c :: around) = around.inClass := by
    cases c <;> first | rfl | cases hc
  have inside := inScope [] h { s with enclosing := enclosing, loops := 0 }
    ⟨loopless, he.symm, hs.inClass.trans inClass.symm⟩
  exact ⟨⟨rfl, rfl, inside.inClass⟩, inside.reports⟩

theorem inLoop (h : Tells (.loop :: around) x nodes) : Tells around (Binding.inLoop x) nodes := by
  intro s hs
  have inside := h { s with loops := s.loops + 1 } ⟨rfl, hs.enclosing, hs.inClass⟩
  exact ⟨⟨rfl, inside.enclosing, inside.inClass⟩, inside.reports⟩

theorem inClass (name : Name) (h : Tells (.class_ :: around) x nodes) :
    Tells around (Binding.inClass name x) nodes := by
  intro s hs
  have inside := (declareAndDefine name).behind (fun _ => inScope (Scope.ofClass name) h)
    { s with inClass := true } ⟨hs.loops, hs.enclosing, rfl⟩
  exact ⟨⟨inside.loops, inside.enclosing, hs.inClass ▸ rfl⟩, inside.reports⟩

end Tells

variable {around : Surroundings}

theorem jump_tells (jump : Jump) (line : Nat) :
    Tells around (bindStmt (.jump jump line)) (stmtPlaces around (.jump jump line)) := by
  refine Tells.get_bind fun s hs => ?_
  by_cases hl : s.loops = 0
  · have told : surroundingReports (around, .stmt (.jump jump line)) =
        [reportAt jump.keyword line (.jumpOutsideLoop jump)] := by
      have free : around.inLoop = false := hs.loops.trans (decide_eq_false fun h => h hl)
      simp only [surroundingReports, strayJump?, free]
      rfl
    rw [if_pos hl]
    exact (Tells.complained _ _ _ told rfl).before fun _ => .pure _
  · rw [if_neg hl]
    refine (Tells.pure _).node ?_
    have held : around.inLoop = true := hs.loops.trans (decide_eq_true hl)
    simp only [surroundingReports, strayJump?, held]
    rfl

theorem this_tells (line : Nat) (site : Unit) :
    Tells around (bindExpr (.this line site)) (exprPlaces around (.this line site)) := by
  refine Tells.get_bind fun s hs => ?_
  split
  · rename_i inside
    refine ((Tells.occur .this _).behind fun _ => .pure _).node ?_
    simp only [surroundingReports, strayThis?, hs.inClass.symm.trans inside]
    rfl
  · rename_i outside
    refine (Tells.complained _ _ _ ?_ rfl).before fun _ => .pure _
    simp only [surroundingReports, strayThis?, hs.inClass.symm.trans (Bool.not_eq_true _ ▸ outside)]
    rfl

/-- What is complained of at a return. It cannot be both at the top level and in an initializer. -/
theorem surroundingReports_return (around : Surroundings) (line : Nat) (value : Option RawExpr) :
    surroundingReports (around, .stmt (.return_ line value)) =
      (if around.enclosing = .none then [reportAt .return_ line .returnAtTopLevel] else []) ++
      (if value.isSome ∧ around.enclosing = .initializer then
        [reportAt .return_ line .returnFromInitializer] else []) := by
  simp only [Surroundings.enclosing_eq_none_iff, Surroundings.enclosing_eq_initializer_iff]
  cases value with
  | none =>
    simp only [surroundingReports, strayJump?, topReturn?, initializerReturn?, strayThis?]
    split <;> rfl
  | some e =>
    simp only [surroundingReports, strayJump?, topReturn?, initializerReturn?, strayThis?,
      Option.isSome_some, true_and]
    split <;> split <;> rfl

theorem return_tells (line : Nat) :
    Tells around (bindStmt (.return_ line none)) (stmtPlaces around (.return_ line none)) := by
  have reports := surroundingReports_return around line none
  refine Tells.get_bind fun s hs => ?_
  by_cases top : around.enclosing = .none
  · rw [if_pos (hs.enclosing.trans top)]
    rw [if_pos top] at reports
    exact (Tells.complained _ _ _ reports rfl).before fun _ => .pure _
  · rw [if_neg fun h => top (hs.enclosing.symm.trans h)]
    rw [if_neg top] at reports
    exact (Tells.pure _).node reports

theorem returnValue_tells (line : Nat) {e : RawExpr}
    (h : Tells around (bindExpr e) (exprPlaces around e)) :
    Tells around (bindStmt (.return_ line (some e))) (stmtPlaces around (.return_ line (some e))) := by
  have reports := surroundingReports_return around line (some e)
  simp only [Option.isSome_some, true_and] at reports
  have value : Tells around (do let e ← bindExpr e; pure (.return_ line (some e) : BoundStmt))
      (exprPlaces around e) := h.before fun _ => .pure _
  refine Tells.get_bind fun s hs => ?_
  by_cases top : around.enclosing = .none
  · have other : ¬ around.enclosing = .initializer := fun h => nomatch top.symm.trans h
    rw [if_pos (hs.enclosing.trans top)]
    rw [if_pos top, if_neg other, List.append_nil] at reports
    refine (Tells.complained _ _ _ reports rfl).bind fun _ => Tells.get_bind fun t ht => ?_
    rw [if_neg fun h => other (ht.enclosing.symm.trans h)]
    exact value
  · rw [if_neg fun h => top (hs.enclosing.symm.trans h)]
    rw [if_neg top, List.nil_append] at reports
    refine Tells.get_bind fun t ht => ?_
    by_cases initializer : around.enclosing = .initializer
    · rw [if_pos (ht.enclosing.trans initializer)]
      rw [if_pos initializer] at reports
      exact (Tells.complained _ _ _ reports rfl).bind fun _ => value
    · rw [if_neg fun h => initializer (ht.enclosing.symm.trans h)]
      rw [if_neg initializer] at reports
      exact value.node reports

mutual

theorem bindExpr_tells (around : Surroundings) (e : RawExpr) :
    Tells around (bindExpr e) (exprPlaces around e) := by
  cases e with
  | literal value => exact (Tells.pure _).node rfl
  | grouping inner => exact ((bindExpr_tells _ inner).before fun _ => .pure _).node rfl
  | «variable» name site =>
    exact ((Tells.checkInitialized name).behind fun _ => (Tells.occur .variable name).behind
      fun _ => .pure _).node rfl
  | assign name site value =>
    exact ((bindExpr_tells _ value).before fun _ => (Tells.occur .assign name).behind
      fun _ => .pure _).node rfl
  | this line site => exact this_tells line site
  | unary op line operand => exact ((bindExpr_tells _ operand).before fun _ => .pure _).node rfl
  | binary left op line right =>
    exact ((bindExpr_tells _ left).bind fun _ => (bindExpr_tells _ right).before
      fun _ => .pure _).node rfl
  | logical left op line right =>
    exact ((bindExpr_tells _ left).bind fun _ => (bindExpr_tells _ right).before
      fun _ => .pure _).node rfl
  | ternary condition yes no =>
    have parts : Tells around (bindExpr (.ternary condition yes no)) (exprPlaces around condition ++
        (exprPlaces around yes ++ exprPlaces around no)) :=
      (bindExpr_tells _ condition).bind fun _ => (bindExpr_tells _ yes).bind fun _ =>
        (bindExpr_tells _ no).before fun _ => .pure _
    rw [← List.append_assoc] at parts
    exact parts.node rfl
  | sequence earlier last =>
    exact ((bindExpr_tells _ earlier).bind fun _ => (bindExpr_tells _ last).before
      fun _ => .pure _).node rfl
  | call callee line arguments =>
    exact ((bindExpr_tells _ callee).bind fun _ => (bindExprs_tells _ arguments).before
      fun _ => .pure _).node rfl
  | get object property => exact ((bindExpr_tells _ object).before fun _ => .pure _).node rfl
  | set object property value =>
    -- the value is bound first
    have parts : Tells around (bindExpr (.set object property value))
        (exprPlaces around value ++ exprPlaces around object) :=
      (bindExpr_tells _ value).bind fun _ => (bindExpr_tells _ object).before fun _ => .pure _
    exact (parts.weaken List.perm_append_comm).node rfl
  | function params body =>
    have code := (Tells.declareParams params).behind fun _ => bindStmts_tells (.function :: around) body
    exact (((Tells.inFunction rfl rfl code).before fun _ => .pure _).node rfl).node rfl

theorem bindExprs_tells (around : Surroundings) (es : List RawExpr) :
    Tells around (bindExprs es) (exprsPlaces around es) := by
  cases es with
  | nil => exact .pure _
  | cons e es =>
    exact (bindExpr_tells _ e).bind fun _ => (bindExprs_tells _ es).before fun _ => .pure _

theorem bindStmt_tells (around : Surroundings) (s : RawStmt) :
    Tells around (bindStmt s) (stmtPlaces around s) := by
  cases s with
  | expression e => exact ((bindExpr_tells _ e).before fun _ => .pure _).node rfl
  | print e => exact ((bindExpr_tells _ e).before fun _ => .pure _).node rfl
  | var name initial =>
    cases initial with
    | none => exact ((Tells.declareAndDefine name).behind fun _ => .pure _).node rfl
    | some e =>
      exact ((Tells.declare name).behind fun _ => (bindExpr_tells _ e).before fun _ =>
        (Tells.define name).behind fun _ => .pure _).node rfl
  | block body =>
    exact ((Tells.inScope [] (bindStmts_tells _ body)).before fun _ => .pure _).node rfl
  | step body increment =>
    exact (Tells.inScope [] ((bindStmt_tells _ body).bind fun _ =>
      (bindExpr_tells _ increment).before fun _ => .pure _)).node rfl
  | if_ condition yes no =>
    cases no with
    | none =>
      exact ((bindExpr_tells _ condition).bind fun _ => (bindStmt_tells _ yes).before
        fun _ => .pure _).node rfl
    | some no =>
      have parts : Tells around (bindStmt (.if_ condition yes (some no)))
          (exprPlaces around condition ++ (stmtPlaces around yes ++ stmtPlaces around no)) :=
        (bindExpr_tells _ condition).bind fun _ => (bindStmt_tells _ yes).bind fun _ =>
          (bindStmt_tells _ no).before fun _ => .pure _
      rw [← List.append_assoc] at parts
      exact parts.node rfl
  | while_ condition body =>
    exact ((bindExpr_tells _ condition).bind fun _ =>
      (Tells.inLoop (bindStmt_tells (.loop :: around) body)).before fun _ => .pure _).node rfl
  | jump jump line => exact jump_tells jump line
  | function name params body =>
    have code := (Tells.declareParams params).behind fun _ => bindStmts_tells (.function :: around) body
    exact (((Tells.declareAndDefine name).behind fun _ => (Tells.inFunction rfl rfl code).before
      fun _ => .pure _).node rfl).node rfl
  | return_ line value =>
    cases value with
    | none => exact return_tells line
    | some e => exact returnValue_tells line (bindExpr_tells around e)
  | class_ name methods =>
    exact ((Tells.inClass name (bindMethods_tells (.class_ :: around) methods)).before
      fun _ => .pure _).node rfl

theorem bindStmts_tells (around : Surroundings) (ss : List RawStmt) :
    Tells around (bindStmts ss) (stmtsPlaces around ss) := by
  cases ss with
  | nil => exact .pure _
  | cons s ss =>
    exact (bindStmt_tells around s).bind fun _ => (bindStmts_tells around ss).before fun _ => .pure _

theorem bindMethods_tells (around : Surroundings) (ms : List RawMethod) :
    Tells around (bindMethods ms) (methodsPlaces around ms) := by
  cases ms with
  | nil => exact .pure _
  | cons m ms =>
    cases m with
    | mk name params body =>
      have code := (Tells.declareParams params).behind fun _ =>
        bindStmts_tells (.method name :: around) body
      exact ((Tells.inFunction rfl rfl code).bind fun _ =>
        (bindMethods_tells around ms).before fun _ => .pure _).node rfl

end

/-- All that is complained of the surroundings in a program. -/
theorem bindProgram_surroundings (program : List RawStmt) :
    ((bindProgram program).reports.filter isSurrounding).Perm
      ((programPlaces program).flatMap surroundingReports) :=
  (bindStmts_tells [] program outermost ⟨rfl, rfl, rfl⟩).reports

/-- Every context is that of some surroundings. -/
theorem exists_surrounded (s : Context) : ∃ around, Surrounded around s := by
  obtain ⟨classes, inClass, noLoop, noFunction⟩ : ∃ classes : Surroundings,
      s.inClass = classes.inClass ∧ classes.inLoop = false ∧ classes.function? = none := by
    cases s.inClass with
    | false => exact ⟨[], rfl, rfl, rfl⟩
    | true => exact ⟨[.class_], rfl, rfl, rfl⟩
  obtain ⟨functions, enclosing, inClass', noLoop'⟩ : ∃ functions : Surroundings,
      s.enclosing = functions.enclosing ∧ functions.inClass = classes.inClass ∧
        functions.inLoop = false := by
    cases s.enclosing with
    | none => exact ⟨classes, (Surroundings.enclosing_eq_none_iff.mpr noFunction).symm, rfl, noLoop⟩
    | function => exact ⟨.function :: classes, rfl, rfl, rfl⟩
    | method => exact ⟨.method ⟨"", 0⟩ :: classes, rfl, rfl, rfl⟩
    | initializer => exact ⟨.method ⟨initializerName, 0⟩ :: classes, rfl, rfl, rfl⟩
  by_cases hl : s.loops = 0
  · exact ⟨functions, noLoop'.trans (decide_eq_false fun h => h hl).symm, enclosing,
      inClass.trans inClass'.symm⟩
  · exact ⟨.loop :: functions, (decide_eq_true hl).symm, enclosing, inClass.trans inClass'.symm⟩

/-- Binding a statement leaves what surrounds it as it was, whatever that is. -/
theorem bindStmt_kept (s : RawStmt) (c : Context) : Kept c ((bindStmt s).run c).run.2 := by
  obtain ⟨around, held⟩ := exists_surrounded c
  exact (bindStmt_tells around s c held).toKept

/-! Each kind of complaint has its own nodes. -/

theorem complaint_of_strayJump {x : Surroundings × Node Unit} {r : Report} (h : strayJump? x = some r) :
    ∃ jump, r.complaint = .jumpOutsideLoop jump := by
  unfold strayJump? at h
  split at h
  · split at h <;> cases h
    exact ⟨_, rfl⟩
  · cases h

theorem complaint_of_topReturn {x : Surroundings × Node Unit} {r : Report} (h : topReturn? x = some r) :
    r.complaint = .returnAtTopLevel := by
  unfold topReturn? at h
  split at h
  · split at h <;> cases h
    rfl
  · cases h

theorem complaint_of_initializerReturn {x : Surroundings × Node Unit} {r : Report}
    (h : initializerReturn? x = some r) : r.complaint = .returnFromInitializer := by
  unfold initializerReturn? at h
  split at h
  · split at h <;> cases h
    rfl
  · cases h

theorem complaint_of_strayThis {x : Surroundings × Node Unit} {r : Report} (h : strayThis? x = some r) :
    r.complaint = .thisOutsideClass := by
  unfold strayThis? at h
  split at h
  · split at h <;> cases h
    rfl
  · cases h

theorem filter_own {o : Option Report} {complaint : Complaint}
    (h : ∀ r, o = some r → r.complaint = complaint) :
    o.toList.filter (·.complaint = complaint) = o.toList := by
  cases o with
  | none => rfl
  | some r =>
    refine List.filter_eq_self.mpr fun r' hr => ?_
    cases List.mem_singleton.mp hr
    exact decide_eq_true (h r rfl)

theorem filter_foreign {o : Option Report} {complaint : Complaint}
    (h : ∀ r, o = some r → r.complaint ≠ complaint) :
    o.toList.filter (·.complaint = complaint) = [] := by
  cases o with
  | none => rfl
  | some r =>
    refine List.filter_eq_nil_iff.mpr fun r' hr => ?_
    cases List.mem_singleton.mp hr
    exact fun same => h r rfl (of_decide_eq_true same)

theorem reports_perm (program : List RawStmt) {complaint : Complaint}
    {pick : Surroundings × Node Unit → Option Report}
    (about : ∀ r : Report, r.complaint = complaint → isSurrounding r = true)
    (picks : ∀ x, (surroundingReports x).filter (·.complaint = complaint) = (pick x).toList) :
    ((bindProgram program).reports.filter (·.complaint = complaint)).Perm
      ((programPlaces program).filterMap pick) := by
  have all := (bindProgram_surroundings program).filter (·.complaint = complaint)
  rw [List.filter_filter, List.filter_flatMap] at all
  simp only [picks] at all
  rw [← List.filterMap_eq_flatMap_toList] at all
  refine (List.Perm.of_eq ?_).trans all
  refine List.filter_congr fun r _ => ?_
  by_cases hc : r.complaint = complaint
  · rw [decide_eq_true hc, about r hc, Bool.and_true]
  · rw [decide_eq_false hc, Bool.false_and]

/-- A return is complained of as one at the top level exactly if no function is around it, and as one
from an initializer exactly if it has a value and the innermost function around it is a method called
`init`; an instance is complained of exactly if no class is around it. Each is complained of once, and
the places with their surroundings are those of all the nodes of the program. -/
theorem surroundings_reported (program : List RawStmt) :
    let reports := (bindProgram program).reports
    let places := programPlaces program
    (reports.filter (·.complaint = .returnAtTopLevel)).Perm (places.filterMap topReturn?) ∧
      (reports.filter (·.complaint = .returnFromInitializer)).Perm
        (places.filterMap initializerReturn?) ∧
      (reports.filter (·.complaint = .thisOutsideClass)).Perm (places.filterMap strayThis?) ∧
      places.map Prod.snd = (programNodes 0 program).map Prod.snd := by
  intro reports places
  have about (c : Complaint) (hc : isSurrounding ⟨0, .unnamed, c⟩ = true) (r : Report)
      (h : r.complaint = c) : isSurrounding r = true := by
    subst h
    exact hc
  have noJump (x : Surroundings × Node Unit) {c : Complaint}
      (hc : ∀ jump, c ≠ .jumpOutsideLoop jump) :
      (strayJump? x).toList.filter (·.complaint = c) = [] := by
    refine filter_foreign fun r hr same => ?_
    obtain ⟨jump, hj⟩ := complaint_of_strayJump hr
    exact hc jump (same.symm.trans hj)
  have noTop (x : Surroundings × Node Unit) {c : Complaint} (hc : .returnAtTopLevel ≠ c) :
      (topReturn? x).toList.filter (·.complaint = c) = [] :=
    filter_foreign fun r hr same => hc ((complaint_of_topReturn hr).symm.trans same)
  have noInitializer (x : Surroundings × Node Unit) {c : Complaint} (hc : .returnFromInitializer ≠ c) :
      (initializerReturn? x).toList.filter (·.complaint = c) = [] :=
    filter_foreign fun r hr same => hc ((complaint_of_initializerReturn hr).symm.trans same)
  have noThis (x : Surroundings × Node Unit) {c : Complaint} (hc : .thisOutsideClass ≠ c) :
      (strayThis? x).toList.filter (·.complaint = c) = [] :=
    filter_foreign fun r hr same => hc ((complaint_of_strayThis hr).symm.trans same)
  refine ⟨reports_perm program (about _ rfl) fun x => ?_, reports_perm program (about _ rfl) fun x => ?_,
    reports_perm program (about _ rfl) fun x => ?_, ?_⟩
  · rw [surroundingReports, List.filter_append, List.filter_append, List.filter_append,
      noJump x (c := .returnAtTopLevel) nofun, noInitializer x (c := .returnAtTopLevel) nofun,
      noThis x (c := .returnAtTopLevel) nofun, filter_own fun _ => complaint_of_topReturn,
      List.nil_append, List.append_nil, List.append_nil]
  · rw [surroundingReports, List.filter_append, List.filter_append, List.filter_append,
      noJump x (c := .returnFromInitializer) nofun, noTop x (c := .returnFromInitializer) nofun,
      noThis x (c := .returnFromInitializer) nofun,
      filter_own fun _ => complaint_of_initializerReturn, List.nil_append, List.nil_append,
      List.append_nil]
  · rw [surroundingReports, List.filter_append, List.filter_append, List.filter_append,
      noJump x (c := .thisOutsideClass) nofun, noTop x (c := .thisOutsideClass) nofun,
      noInitializer x (c := .thisOutsideClass) nofun, filter_own fun _ => complaint_of_strayThis,
      List.nil_append, List.nil_append, List.nil_append]
  · have same := congrArg (List.map Prod.snd) (programPlaces_same 0 program)
    rwa [List.map_map, List.map_map] at same

end Lexical

end Script
