import Script.Proofs.Lexical.Forgetting
import Script.Proofs.Tracking.Operations
import Script.Proofs.Running.Related

/-! Running a program whose lines are others.
Lines are of no account while a program runs: with other lines in the program and in all that the
machine holds, a run does the same, and it fails on the line that stands for the one it failed on.
-/
namespace Script

open Lexical

variable {α β γ δ : Type}

/-- The machine with other lines in its code and with text before what it printed. -/
def Machine.relined (line : Nat → Nat) (before : String) (m : Machine) : Machine :=
  { m with
    closures := m.closures.map (Renaming.relined line).closure
    classes := m.classes.map (Renaming.relined line).klass
    output := before ++ m.output }

@[simp] theorem Machine.relined_frames (line : Nat → Nat) (before : String) (m : Machine) :
    (m.relined line before).frames = m.frames := rfl

@[simp] theorem Machine.relined_current (line : Nat → Nat) (before : String) (m : Machine) :
    (m.relined line before).current = m.current := rfl

namespace Run

def onLines (line : Nat → Nat) (before : String) (f : α → β) :
    EStateM.Result Exit Machine α → EStateM.Result Exit Machine β
  | .ok a m => .ok (f a) (m.relined line before)
  | .error e m => .error (e.onLine line) (m.relined line before)

/-- On a machine with other lines the second run ends as the first one does. -/
def Moves (line : Nat → Nat) (before : String) (x : Run α) (f : α → β) (y : Run β) : Prop :=
  ∀ m, y (m.relined line before) = onLines line before f (x m)

abbrev Stays (line : Nat → Nat) (before : String) (x y : Run α) : Prop :=
  Moves line before x (fun a => a) y

namespace Moves

variable {line : Nat → Nat} {before : String} {f : α → β} {x : Run α} {y : Run β}

theorem pure (a : α) : Moves line before (Pure.pure a) f (Pure.pure (f a)) := fun _ => rfl

theorem bind {g : α → Run γ} {h : γ → δ} {k : β → Run δ} (hx : Moves line before x f y)
    (hg : ∀ a, Moves line before (g a) h (k (f a))) :
    Moves line before (x >>= g) h (y >>= k) := by
  intro m
  have first := hx m
  simp only [Bind.bind, EStateM.bind]
  rw [first]
  cases x m with
  | ok a m => exact hg a m
  | error e m => rfl

theorem exit (e : Exit) : Moves line before (Run.exit e) f (Run.exit (e.onLine line)) :=
  fun _ => rfl

theorem fail (l : Nat) (fault : Fault) :
    Moves line before (Run.fail l fault) f (Run.fail (line l) fault) := fun _ => rfl

theorem ofExcept (l : Nat) (r : Except Fault α) :
    Stays line before (Run.ofExcept l r) (Run.ofExcept (line l) r) := by
  cases r with
  | ok a => exact pure a
  | error fault => exact fail l fault

theorem within (frame : Nat) (h : Moves line before x f y) :
    Moves line before (Run.within frame x) f (Run.within frame y) := by
  intro m
  have inside := h { m with current := frame }
  show (match y (Machine.relined line before { m with current := frame }) with
    | .ok a m' => _ | .error e m' => _ : EStateM.Result Exit Machine β) = _
  rw [inside, Run.within]
  cases x { m with current := frame } <;> rfl

theorem openFrame (parent : Nat) (bindings : Bindings Value) :
    Stays line before (Run.openFrame parent bindings) (Run.openFrame parent bindings) :=
  fun _ => rfl

theorem currentFrame : Stays line before Run.currentFrame Run.currentFrame := fun _ => rfl

theorem defineIn (frame : Nat) (name : String) (v : Value) :
    Stays line before (Run.defineIn frame name v) (Run.defineIn frame name v) := fun _ => rfl

theorem define (name : String) (v : Value) :
    Stays line before (Run.define name v) (Run.define name v) :=
  currentFrame.bind fun _ => defineIn _ name v

theorem load (name : Name) (l : Nat) (site : Site) (hl : site = .global → l = line name.line) :
    Stays line before (Run.load name site) (Run.load ⟨name.text, l⟩ site) := by
  intro m
  cases site with
  | global =>
    cases hl rfl
    simp only [Run.load, Machine.relined_frames]
    cases m.frames.lookup? Machine.globals name.text <;> rfl
  | local_ distance =>
    simp only [Run.load, Machine.relined_frames, Machine.relined_current]
    cases m.frames.valueAt m.current distance name.text <;> rfl

theorem store (name : Name) (l : Nat) (v : Value) (site : Site) :
    Stays line before (Run.store name v site) (Run.store ⟨name.text, l⟩ v site) := by
  intro m
  cases site with
  | global => rfl
  | local_ distance =>
    simp only [Run.store, Machine.relined_frames, Machine.relined_current]
    cases m.frames.frameAt m.current distance <;> rfl

theorem text (m : Machine) (v : Value) : (m.relined line before).text v = m.text v := by
  cases v with
  | function ref =>
    simp only [Machine.text, Machine.relined, Array.getElem?_map]
    cases m.closures[ref]? <;> rfl
  | class_ ref =>
    simp only [Machine.text, Machine.text.className, Machine.relined, Array.getElem?_map]
    cases m.classes[ref]? <;> rfl
  | instance_ ref =>
    simp only [Machine.text, Machine.text.className, Machine.relined, Array.getElem?_map]
    cases m.instances[ref]? with
    | none => rfl
    | some i => simp only; cases m.classes[i.class_]? <;> rfl
  | _ => rfl

theorem print (v : Value) : Stays line before (Run.print v) (Run.print v) := by
  intro m
  simp only [Run.print, text]
  simp only [onLines, Machine.relined, String.append_assoc]

theorem readClock : Stays line before Run.readClock Run.readClock := fun _ => rfl

theorem makeFunction (c : Closure) :
    Stays line before (Run.makeFunction c)
      (Run.makeFunction ((Renaming.relined line).closure c)) := by
  intro m
  simp only [Run.makeFunction, onLines, Machine.relined, Array.size_map, Array.map_push]

theorem makeClass (c : Class) :
    Stays line before (Run.makeClass c) (Run.makeClass ((Renaming.relined line).klass c)) := by
  intro m
  simp only [Run.makeClass, onLines, Machine.relined, Array.size_map, Array.map_push]

theorem makeInstance (ref : Nat) :
    Stays line before (Run.makeInstance ref) (Run.makeInstance ref) := fun _ => rfl

theorem setField (ref : Nat) (name : String) (v : Value) :
    Stays line before (Run.setField ref name v) (Run.setField ref name v) := fun _ => rfl

theorem instance? (m : Machine) (v : Value) :
    (m.relined line before).instance? v = m.instance? v := by
  cases v <;> rfl

theorem fieldOwner (object : Value) (name : Name) :
    Stays line before (Run.fieldOwner object name)
      (Run.fieldOwner object ((Renaming.relined line).name name)) := by
  intro m
  simp only [Run.fieldOwner, instance?]
  cases m.instance? object <;> rfl

theorem bindMethod (c : Class) (method : BoundMethod) (receiver : Value) :
    Moves line before (Run.bindMethod c method receiver) (Renaming.relined line).closure
      (Run.bindMethod ((Renaming.relined line).klass c)
        (translateMethod (.relined line) (fun site => site) method) receiver) :=
  (openFrame _ _).bind fun _ => pure _

theorem method? (c : Class) (name : String) : ((Renaming.relined line).klass c).method? name =
    (c.method? name).map (translateMethod (.relined line) fun site => site) := by
  simp only [Class.method?, Renaming.klass, translateMethods_eq_map, ← List.map_reverse,
    List.find?_map]
  rfl

theorem property (object : Value) (name : Name) :
    Stays line before (Run.property object name)
      (Run.property object ((Renaming.relined line).name name)) := by
  intro m
  have text : ((Renaming.relined line).name name).text = name.text := rfl
  simp only [Run.property, read_bind, instance?, text]
  cases m.instance? object with
  | none => rfl
  | some found =>
    obtain ⟨ref, i⟩ := found
    simp only
    cases i.fields.find? name.text with
    | some v => rfl
    | none =>
      have classes : (m.relined line before).classes[i.class_]? =
          (m.classes[i.class_]?).map (Renaming.relined line).klass := by
        simp only [Machine.relined, Array.getElem?_map]
      rw [classes]
      cases m.classes[i.class_]? with
      | none => rfl
      | some c =>
        simp only [Option.map_some, Option.bind_some, method?]
        cases c.method? name.text with
        | none => rfl
        | some method =>
          exact ((bindMethod c method object).bind fun closure => makeFunction closure) m

theorem callee? (m : Machine) (value : Value) : (m.relined line before).callee? value =
    (m.callee? value).map (Machine.Callee.renamed (.relined line)) := by
  cases value with
  | function ref =>
    simp only [Machine.callee?, Machine.relined, Array.getElem?_map, Option.map_map]
    rfl
  | class_ ref =>
    simp only [Machine.callee?, Machine.relined, Array.getElem?_map, Option.map_map]
    rfl
  | _ => rfl

theorem arity (c : Machine.Callee) : (c.renamed (.relined line)).arity = c.arity := by
  cases c with
  | native n => rfl
  | function c => exact List.length_map _
  | class_ ref c =>
    simp only [Machine.Callee.renamed, Machine.Callee.arity, method?]
    cases c.method? initializerName with
    | none => rfl
    | some method => exact List.length_map _

theorem callee (value : Value) (given l : Nat) :
    Moves line before (Run.callee value given l) (Machine.Callee.renamed (.relined line))
      (Run.callee value given (line l)) := by
  intro m
  simp only [Run.callee, callee?]
  cases m.callee? value with
  | none => rfl
  | some c =>
    simp only [Option.map_some, arity]
    split <;> rfl

theorem returning {x y : Run Unit} (h : Stays line before x y) :
    Stays line before (Run.returning x) (Run.returning y) := by
  intro m
  simp only [Run.returning, h m]
  cases x m with
  | ok a m => rfl
  | error e m => cases e <;> rfl

theorem continuing {x y : Run Unit} (h : Stays line before x y) :
    Stays line before (Run.continuing x) (Run.continuing y) := by
  intro m
  simp only [Run.continuing, h m]
  cases x m with
  | ok a m => rfl
  | error e m =>
    cases e with
    | jumped jump => cases jump <;> rfl
    | _ => rfl

theorem goesOn {x y : Run Unit} (h : Stays line before x y) :
    Stays line before (Run.goesOn x) (Run.goesOn y) := by
  intro m
  simp only [Run.goesOn, h m]
  cases x m with
  | ok a m => rfl
  | error e m =>
    cases e with
    | jumped jump => cases jump <;> rfl
    | _ => rfl

end Moves

structure Relined (line : Nat → Nat) (before : String) (fuel : Nat) : Prop where
  evaluate : ∀ room e, Stays line before (Run.evaluate fuel room e)
    (Run.evaluate fuel room (translateExpr (.relined line) (fun site => site) e))
  evaluateAll : ∀ room es, Stays line before (Run.evaluateAll fuel room es)
    (Run.evaluateAll fuel room (translateExprs (.relined line) (fun site => site) es))
  call : ∀ room c given l, Stays line before (Run.call fuel room c given l)
    (Run.call fuel room (c.renamed (.relined line)) given (line l))
  enter : ∀ room c given l, Stays line before (Run.enter fuel room c given l)
    (Run.enter fuel room ((Renaming.relined line).closure c) given (line l))
  execute : ∀ room s, Stays line before (Run.execute fuel room s)
    (Run.execute fuel room (translateStmt (.relined line) (fun site => site) s))
  executeAll : ∀ room ss, Stays line before (Run.executeAll fuel room ss)
    (Run.executeAll fuel room (translateStmts (.relined line) (fun site => site) ss))
  loop : ∀ room condition body, Stays line before (Run.loop fuel room condition body)
    (Run.loop fuel room (translateExpr (.relined line) (fun site => site) condition)
      (translateStmt (.relined line) (fun site => site) body))

namespace Relined

variable {line : Nat → Nat} {before : String} {fuel : Nat}

theorem zero : Relined line before 0 where
  evaluate _ _ := .exit .exhausted
  evaluateAll _ _ := .exit .exhausted
  call _ _ _ _ := .exit .exhausted
  enter _ _ _ _ := .exit .exhausted
  execute _ _ := .exit .exhausted
  executeAll _ _ := .exit .exhausted
  loop _ _ _ := .exit .exhausted

theorem evaluate_succ (ih : Relined line before fuel) (room : Nat) (e : BoundExpr) :
    Stays line before (Run.evaluate (fuel + 1) room e)
      (Run.evaluate (fuel + 1) room (translateExpr (.relined line) (fun site => site) e)) := by
  cases e with
  | literal value => exact .pure _
  | grouping inner => exact ih.evaluate room inner
  | «variable» name site => exact .load name _ site fun _ => rfl
  | assign name site value =>
    exact (ih.evaluate room value).bind fun v => (Moves.store name _ v site).bind fun _ => .pure v
  | this l site => exact .load ⟨Keyword.this_.spelling, l⟩ _ site fun _ => rfl
  | unary op l operand =>
    exact (ih.evaluate room operand).bind fun v => .ofExcept l (op.apply v)
  | binary left op l right =>
    exact (ih.evaluate room left).bind fun a => (ih.evaluate room right).bind fun b =>
      .ofExcept l (op.apply a b)
  | logical left op l right =>
    refine (ih.evaluate room left).bind fun a => ?_
    cases op <;> cases a.isTruthy
    · exact .pure a
    · exact ih.evaluate room right
    · exact ih.evaluate room right
    · exact .pure a
  | ternary condition yes no =>
    refine (ih.evaluate room condition).bind fun c => ?_
    cases c.isTruthy
    · exact ih.evaluate room no
    · exact ih.evaluate room yes
  | sequence earlier last =>
    exact (ih.evaluate room earlier).bind fun _ => ih.evaluate room last
  | call f l arguments =>
    exact (ih.evaluate room f).bind fun value => (ih.evaluateAll room arguments).bind fun given =>
      (Moves.callee value given.length l).bind fun c => ih.call room c given l
  | get object name => exact (ih.evaluate room object).bind fun o => .property o name
  | set object name value =>
    exact (ih.evaluate room object).bind fun o => (Moves.fieldOwner o name).bind fun ref =>
      (ih.evaluate room value).bind fun v => (Moves.setField ref name.text v).bind fun _ => .pure v
  | function params body =>
    exact Moves.currentFrame.bind fun frame => .makeFunction ⟨none, params, body, frame, false⟩

theorem evaluateAll_succ (ih : Relined line before fuel) (room : Nat) (es : List BoundExpr) :
    Stays line before (Run.evaluateAll (fuel + 1) room es)
      (Run.evaluateAll (fuel + 1) room (translateExprs (.relined line) (fun site => site) es)) := by
  cases es with
  | nil => exact .pure []
  | cons e es =>
    exact (ih.evaluate room e).bind fun v => (ih.evaluateAll room es).bind fun vs => .pure (v :: vs)

theorem call_succ (ih : Relined line before fuel) (room : Nat) (c : Machine.Callee)
    (given : List Value) (l : Nat) : Stays line before (Run.call (fuel + 1) room c given l)
      (Run.call (fuel + 1) room (c.renamed (.relined line)) given (line l)) := by
  cases c with
  | native n => cases n; exact .readClock
  | function closure => exact ih.enter room closure given l
  | class_ ref c =>
    refine (Moves.makeInstance ref).bind fun made => ?_
    simp only [Moves.method?]
    cases c.method? initializerName with
    | none => exact .pure made
    | some method =>
      exact (Moves.bindMethod c method made).bind fun closure =>
        (ih.enter room closure given l).bind fun _ => .pure made

theorem enter_succ (ih : Relined line before fuel) (room : Nat) (c : Closure)
    (given : List Value) (l : Nat) : Stays line before (Run.enter (fuel + 1) room c given l)
      (Run.enter (fuel + 1) room ((Renaming.relined line).closure c) given (line l)) := by
  cases room with
  | zero => exact .fail l .stackOverflow
  | succ room =>
    have params : ((Renaming.relined line).closure c).params.map Name.text =
        c.params.map Name.text := by
      simp only [Renaming.closure, List.map_map]
      rfl
    simp only [Run.enter, params]
    refine (Moves.openFrame _ _).bind fun frame =>
      ((ih.executeAll room c.body).within frame).returning.bind fun v => ?_
    show Stays line before (if c.isInitializer = true then _ else _)
      (if c.isInitializer = true then _ else _)
    by_cases hi : c.isInitializer = true
    · simp only [if_pos hi]
      refine Moves.within c.frame (Moves.load ⟨Keyword.this_.spelling, 0⟩ 0 (.local_ 0) ?_)
      exact fun h => by cases h
    · simp only [if_neg hi]
      exact .pure v

theorem execute_succ (ih : Relined line before fuel) (room : Nat) (s : BoundStmt) :
    Stays line before (Run.execute (fuel + 1) room s)
      (Run.execute (fuel + 1) room (translateStmt (.relined line) (fun site => site) s)) := by
  cases s with
  | expression e => exact (ih.evaluate room e).bind fun _ => .pure ()
  | print e => exact (ih.evaluate room e).bind fun v => .print v
  | var name initial =>
    cases initial with
    | none => exact .define name.text .nil
    | some e => exact (ih.evaluate room e).bind fun v => .define name.text v
  | block body =>
    exact Moves.currentFrame.bind fun parent => (Moves.openFrame parent []).bind fun frame =>
      (ih.executeAll room body).within frame
  | step body increment =>
    exact Moves.currentFrame.bind fun parent => (Moves.openFrame parent []).bind fun frame =>
      .within frame ((ih.execute room body).continuing.bind fun _ =>
        (ih.evaluate room increment).bind fun _ => .pure ())
  | if_ condition yes no =>
    cases no with
    | none =>
      refine (ih.evaluate room condition).bind fun c => ?_
      cases c.isTruthy
      · exact .pure ()
      · exact ih.execute room yes
    | some no =>
      refine (ih.evaluate room condition).bind fun c => ?_
      cases c.isTruthy
      · exact ih.execute room no
      · exact ih.execute room yes
  | while_ condition body => exact ih.loop room condition body
  | jump jump l => exact .exit (.jumped jump)
  | function name params body =>
    exact Moves.currentFrame.bind fun frame =>
      (Moves.makeFunction ⟨some name.text, params, body, frame, false⟩).bind fun f =>
        .define name.text f
  | return_ l value =>
    cases value with
    | none => exact .exit (.returned .nil)
    | some e => exact (ih.evaluate room e).bind fun v => .exit (.returned v)
  | class_ name methods =>
    exact Moves.currentFrame.bind fun frame =>
      (Moves.makeClass ⟨name.text, methods, frame⟩).bind fun c => .define name.text c

theorem executeAll_succ (ih : Relined line before fuel) (room : Nat) (ss : List BoundStmt) :
    Stays line before (Run.executeAll (fuel + 1) room ss)
      (Run.executeAll (fuel + 1) room (translateStmts (.relined line) (fun site => site) ss)) := by
  cases ss with
  | nil => exact .pure ()
  | cons s ss => exact (ih.execute room s).bind fun _ => ih.executeAll room ss

theorem loop_succ (ih : Relined line before fuel) (room : Nat) (condition : BoundExpr)
    (body : BoundStmt) : Stays line before (Run.loop (fuel + 1) room condition body)
      (Run.loop (fuel + 1) room (translateExpr (.relined line) (fun site => site) condition)
        (translateStmt (.relined line) (fun site => site) body)) := by
  rw [Run.loop_succ, Run.loop_succ]
  refine (ih.evaluate room condition).bind fun c => ?_
  split
  · refine (ih.execute room body).goesOn.bind fun on => ?_
    split
    · exact ih.loop room condition body
    · exact .pure ()
  · exact .pure ()

theorem all (line : Nat → Nat) (before : String) (fuel : Nat) : Relined line before fuel := by
  induction fuel with
  | zero => exact zero
  | succ fuel ih =>
    exact
      { evaluate := evaluate_succ ih
        evaluateAll := evaluateAll_succ ih
        call := call_succ ih
        enter := enter_succ ih
        execute := execute_succ ih
        executeAll := executeAll_succ ih
        loop := loop_succ ih }

end Relined

def unmarked (line : Nat → Nat) (n : Nat) : Nat := if n % 2 = 0 then n / 2 else line (n / 2)

theorem unmarked_even (line : Nat → Nat) (n : Nat) : unmarked line (2 * n) = n := by
  simp [unmarked]

theorem unmarked_odd (line : Nat → Nat) (n : Nat) : unmarked line (2 * n + 1) = line n := by
  rw [unmarked, if_neg (by omega)]
  congr 1
  omega

theorem even_unmarked (line : Nat → Nat) :
    (Renaming.relined (unmarked line)).behind (.relined (2 * ·)) = .identity :=
  congrArg Renaming.relined (funext (unmarked_even line))

theorem odd_unmarked (line : Nat → Nat) :
    (Renaming.relined (unmarked line)).behind (.relined (2 * · + 1)) = .relined line :=
  congrArg Renaming.relined (funext (unmarked_odd line))

/-- A marked machine without its marks. -/
theorem relined_even (line : Nat → Nat) (before : String) (m : Machine) :
    (m.relined (2 * ·) "").relined (unmarked line) before =
      { m with output := before ++ m.output } := by
  have closure : (Renaming.relined (unmarked line)).closure ∘ (Renaming.relined (2 * ·)).closure =
      fun c => c := by
    rw [← Renaming.closure_identity, ← even_unmarked line]
    funext c
    simp only [Function.comp_apply, Renaming.closure, Renaming.stmts, List.map_map,
      translateStmts_translate, Renaming.name_behind]
    rfl
  have klass : (Renaming.relined (unmarked line)).klass ∘ (Renaming.relined (2 * ·)).klass =
      fun c => c := by
    rw [← Renaming.klass_identity, ← even_unmarked line]
    funext c
    simp only [Function.comp_apply, Renaming.klass, translateMethods_translate]
    rfl
  simp only [Machine.relined, Array.map_map, closure, klass, Array.map_id_fun', id,
    String.empty_append]

/-- With any lines in the program and any text before, a run ends as a marked one does: every line
that is found in it is one of the program or is not. -/
theorem executeAll_marked (fuel room : Nat) (program : List BoundStmt) (m : Machine) :
    ∃ ended, ∀ line before,
      executeAll fuel room (translateStmts (.relined line) (fun site => site) program)
          { m with output := before ++ m.output } =
        onLines (unmarked line) before (fun a => a) ended := by
  refine ⟨executeAll fuel room (translateStmts (.relined (2 * · + 1)) (fun site => site) program)
    (m.relined (2 * ·) ""), fun line before => ?_⟩
  have marked := (Relined.all (unmarked line) before fuel).executeAll room
    (translateStmts (.relined (2 * · + 1)) (fun site => site) program) (m.relined (2 * ·) "")
  rw [relined_even, translateStmts_translate, odd_unmarked] at marked
  exact marked

end Run

end Script
