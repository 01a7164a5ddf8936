import Script.Proofs.Guarded.Mirroring

/-! Guarded evaluation of scoped code.
An induction over the fuel, for all the functions of the evaluation at once. -/
namespace Script

open Lexical

/-- Around a place in a loop there are loops, and around one in a function there are calls. -/
structure Lexical.Position.Within (p : Position) (calls loops : Nat) : Prop where
  loop : p.inLoop = true → loops ≠ 0
  function : p.inFunction = true → calls ≠ 0

namespace Lexical.Position.Within

variable {p : Position} {calls loops : Nat}

theorem child (h : p.Within calls loops) (i : Nat) : (p.child i).Within calls loops := ⟨h.1, h.2⟩

theorem opened (h : p.Within calls loops) (params locals : List Name) (i : Nat) :
    ((p.opened params locals).child i).Within calls loops := ⟨h.1, h.2⟩

theorem looping (h : p.Within calls loops) (i : Nat) : (p.loop.child i).Within calls (loops + 1) :=
  ⟨fun _ => Nat.succ_ne_zero loops, h.2⟩

theorem entered (p : Position) (params : List Name) (body : List BoundStmt) (calls : Nat) :
    ((p.function params body).child 0).Within (calls + 1) 0 :=
  ⟨Bool.noConfusion, fun _ => Nat.succ_ne_zero calls⟩

theorem after (h : p.Within calls loops) (s : BoundStmt) (i : Nat) :
    ((p.after s).child i).Within calls loops where
  loop := fun inLoop => h.loop (Position.after_inLoop p s ▸ inLoop)
  function := fun inFunction => h.function (Position.after_inFunction p s ▸ inFunction)

theorem top (number : Nat) : (Position.top number).Within 0 0 :=
  ⟨Bool.noConfusion, Bool.noConfusion⟩

end Lexical.Position.Within

/-- Guarded evaluations of some fuel end as evaluations do. -/
structure Guards (fuel : Nat) : Prop where
  evaluate : ∀ room calls p e, (∀ x ∈ exprNodes p e, Scoped x) →
    Mirrors calls 0 false (guarding.evaluate fuel room ⟨calls, 0⟩ e) (Run.evaluate fuel room e) Any
  evaluateAll : ∀ room calls p es, (∀ x ∈ exprsNodes p es, Scoped x) →
    Mirrors calls 0 false (guarding.evaluateAll fuel room ⟨calls, 0⟩ es)
      (Run.evaluateAll fuel room es) Any
  call : ∀ room calls (c : Machine.Callee) given line, c.Confined → given.length = c.arity →
    Mirrors calls 0 false (guarding.call fuel room ⟨calls, 0⟩ c given line)
      (Run.call fuel room c given line) Any
  enter : ∀ room calls (c : Closure) given line, c.Confined → given.length = c.params.length →
    Mirrors calls 0 false (guarding.enter fuel room ⟨calls, 0⟩ c given line)
      (Run.enter fuel room c given line) Any
  execute : ∀ room calls loops p s, (∀ x ∈ stmtNodes p s, Scoped x) → p.Within calls loops →
    Mirrors calls loops p.inFunction (guarding.execute fuel room ⟨calls, loops⟩ s)
      (Run.execute fuel room s) Any
  executeAll : ∀ room calls loops p ss, (∀ x ∈ stmtsNodes p ss, Scoped x) → p.Within calls loops →
    Mirrors calls loops p.inFunction (guarding.executeAll fuel room ⟨calls, loops⟩ ss)
      (Run.executeAll fuel room ss) Any
  loop : ∀ room calls loops p condition body,
    (∀ x ∈ stmtNodes p (.while_ condition body), Scoped x) → p.Within calls loops →
    Mirrors calls loops p.inFunction (guarding.loop fuel room ⟨calls, loops⟩ condition body)
      (Run.loop fuel room condition body) Any

namespace Guards

theorem zero : Guards 0 where
  evaluate _ _ _ _ _ := .exhausted
  evaluateAll _ _ _ _ _ := .exhausted
  call _ _ _ _ _ _ _ := .exhausted
  enter _ _ _ _ _ _ _ := .exhausted
  execute _ _ _ _ _ _ _ := .exhausted
  executeAll _ _ _ _ _ _ _ := .exhausted
  loop _ _ _ _ _ _ _ _ := .exhausted

variable {fuel : Nat}

theorem evaluate_succ (ih : Guards fuel) (room calls : Nat) (p : Position) (e : BoundExpr)
    (h : ∀ x ∈ exprNodes p e, Scoped x) :
    Mirrors calls 0 false (guarding.evaluate (fuel + 1) room ⟨calls, 0⟩ e)
      (Run.evaluate (fuel + 1) room e) Any := by
  cases e with
  | literal value => exact .pure trivial
  | grouping inner =>
    exact ih.evaluate room calls (p.child 0) inner fun x hx => h x (by simp [exprNodes, hx])
  | «variable» name site => exact .lift (.load name site)
  | assign name site value =>
    have value := ih.evaluate room calls (p.child 0) value fun x hx => h x (by simp [exprNodes, hx])
    exact value.bind fun v _ => (Mirrors.lift (.store name v site)).bind fun _ _ => .pure trivial
  | this line site => exact .lift (.load _ site)
  | unary op line operand =>
    have operand := ih.evaluate room calls (p.child 0) operand fun x hx =>
      h x (by simp [exprNodes, hx])
    exact operand.bind fun v _ => .ofExcept line _
  | binary left op line right =>
    have left := ih.evaluate room calls (p.child 0) left fun x hx => h x (by simp [exprNodes, hx])
    have right := ih.evaluate room calls (p.child 1) right fun x hx => h x (by simp [exprNodes, hx])
    exact left.bind fun a _ => right.bind fun b _ => .applyBinary op line a b
  | logical left op line right =>
    have left := ih.evaluate room calls (p.child 0) left fun x hx => h x (by simp [exprNodes, hx])
    have right := ih.evaluate room calls (p.child 1) right fun x hx => h x (by simp [exprNodes, hx])
    refine left.bind fun a _ => ?_
    cases op <;> cases a.isTruthy
    · exact .pure trivial
    · exact right
    · exact right
    · exact .pure trivial
  | ternary condition yes no =>
    have condition := ih.evaluate room calls (p.child 0) condition fun x hx =>
      h x (by simp [exprNodes, hx])
    have yes := ih.evaluate room calls (p.child 1) yes fun x hx => h x (by simp [exprNodes, hx])
    have no := ih.evaluate room calls (p.child 2) no fun x hx => h x (by simp [exprNodes, hx])
    refine condition.bind fun c _ => ?_
    cases c.isTruthy
    · exact no
    · exact yes
  | sequence earlier last =>
    have earlier := ih.evaluate room calls (p.child 0) earlier fun x hx =>
      h x (by simp [exprNodes, hx])
    have last := ih.evaluate room calls (p.child 1) last fun x hx => h x (by simp [exprNodes, hx])
    exact earlier.bind fun _ _ => last
  | call callee line arguments =>
    have callee := ih.evaluate room calls (p.child 0) callee fun x hx =>
      h x (by simp [exprNodes, hx])
    have arguments := ih.evaluateAll room calls (p.child 1) arguments fun x hx =>
      h x (by simp [exprNodes, hx])
    refine callee.bind fun value _ => arguments.bind fun given _ => ?_
    exact (Mirrors.lift (.callee value given.length line)).bind fun c found =>
      (ih.call room calls c given line found.1 found.2).contained
  | get object property =>
    have object := ih.evaluate room calls (p.child 0) object fun x hx =>
      h x (by simp [exprNodes, hx])
    exact object.bind fun o _ => .property o property
  | set object property value =>
    have object := ih.evaluate room calls (p.child 0) object fun x hx =>
      h x (by simp [exprNodes, hx])
    have value := ih.evaluate room calls (p.child 1) value fun x hx => h x (by simp [exprNodes, hx])
    exact object.bind fun o _ => (Mirrors.lift (.fieldOwner o property)).bind fun ref _ =>
      value.bind fun v _ => (Mirrors.lift (.setField ref property.text v)).bind fun _ _ =>
        .pure trivial
  | function params body =>
    have confined : ∀ x ∈ codeNodes (p.child 0) params body, Scoped x := fun x hx =>
      h x (List.mem_cons_of_mem _ hx)
    exact (Mirrors.lift .currentFrame).bind fun frame _ =>
      .lift (.makeFunction ⟨p.child 0, confined⟩)

theorem evaluateAll_succ (ih : Guards fuel) (room calls : Nat) (p : Position)
    (es : List BoundExpr) (h : ∀ x ∈ exprsNodes p es, Scoped x) :
    Mirrors calls 0 false (guarding.evaluateAll (fuel + 1) room ⟨calls, 0⟩ es)
      (Run.evaluateAll (fuel + 1) room es) Any := by
  cases es with
  | nil => exact .pure trivial
  | cons e es =>
    have first := ih.evaluate room calls (p.child 0) e fun x hx => h x (by simp [exprsNodes, hx])
    have others := ih.evaluateAll room calls (p.child 1) es fun x hx =>
      h x (by simp [exprsNodes, hx])
    exact first.bind fun v _ => others.bind fun vs _ => .pure trivial

theorem call_succ (ih : Guards fuel) (room calls : Nat) (c : Machine.Callee) (given : List Value)
    (line : Nat) (confined : c.Confined) (arity : given.length = c.arity) :
    Mirrors calls 0 false (guarding.call (fuel + 1) room ⟨calls, 0⟩ c given line)
      (Run.call (fuel + 1) room c given line) Any := by
  cases c with
  | native n => cases n; exact .lift .readClock
  | function c => exact ih.enter room calls c given line confined arity
  | class_ ref c =>
    refine (Mirrors.lift (.makeInstance ref)).bind fun made _ => ?_
    simp only [Machine.Callee.arity] at arity
    simp only [GuardedRun.method?_eq]
    cases found : c.method? initializerName with
    | none => exact .pure trivial
    | some method =>
      rw [found] at arity
      refine (Mirrors.lift (.bindMethod confined found made)).bind fun closure bound => ?_
      have entered := ih.enter room calls closure given line bound.1 (by rw [bound.2]; exact arity)
      exact entered.bind fun _ _ => .pure trivial

theorem enter_succ (ih : Guards fuel) (room calls : Nat) (c : Closure) (given : List Value)
    (line : Nat) (confined : c.Confined) (arity : given.length = c.params.length) :
    Mirrors calls 0 false (guarding.enter (fuel + 1) room ⟨calls, 0⟩ c given line)
      (Run.enter (fuel + 1) room c given line) Any := by
  cases room with
  | zero => exact .lift .fail
  | succ room =>
    obtain ⟨q, placed⟩ := confined
    -- one call more, and in it none of the loops around the call
    have body := ih.executeAll room (calls + 1) 0 ((q.function c.params c.body).child 0) c.body
      (fun x hx => placed x (List.mem_cons_of_mem _ hx)) (.entered q c.params c.body calls)
    have bindings : guarding.arguments c.params given = _ :=
      GuardedRun.bindFrom_eq given 0 c.params [] (by omega)
    simp only [Instrument.enter, Run.enter, bindings, pure_bind, List.drop_zero]
    refine (Mirrors.lift (.openFrame _ _)).bind fun frame _ => ?_
    refine (body.within frame).returning.bind fun v _ => ?_
    split
    · rw [guarding.receiver_eq rfl]
      exact (Mirrors.lift (.load _ _)).within c.frame
    · exact .pure trivial

theorem opened {calls loops : Nat} {inCall : Bool} {x : GuardedRun Unit} {y : Run Unit}
    (h : Mirrors calls loops inCall x y Any) :
    Mirrors calls loops inCall
      (do
        let frame ← GuardedRun.lift (Run.openFrame (← GuardedRun.lift Run.currentFrame) [])
        guarding.within frame x)
      (do
        let frame ← Run.openFrame (← Run.currentFrame) []
        Run.within frame y) Any :=
  (Mirrors.lift .currentFrame).bind fun current _ =>
    (Mirrors.lift (.openFrame current [])).bind fun frame _ => h.within frame

theorem execute_succ (ih : Guards fuel) (room calls loops : Nat) (p : Position) (s : BoundStmt)
    (h : ∀ x ∈ stmtNodes p s, Scoped x) (around : p.Within calls loops) :
    Mirrors calls loops p.inFunction (guarding.execute (fuel + 1) room ⟨calls, loops⟩ s)
      (Run.execute (fuel + 1) room s) Any := by
  cases s with
  | expression e =>
    have e := ih.evaluate room calls (p.child 0) e fun x hx => h x (by simp [stmtNodes, hx])
    exact e.anywhere.bind fun _ _ => .pure trivial
  | print e =>
    have e := ih.evaluate room calls (p.child 0) e fun x hx => h x (by simp [stmtNodes, hx])
    exact e.anywhere.bind fun v _ => .print v
  | var name initial =>
    cases initial with
    | none => exact .lift (.define name.text .nil)
    | some e =>
      have e := ih.evaluate room calls ((p.pend name).child 0) e fun x hx =>
        h x (by simp [stmtNodes, hx])
      exact e.anywhere.bind fun v _ => .lift (.define name.text v)
  | block body =>
    have body := ih.executeAll room calls loops ((p.block body).child 0) body
      (fun x hx => h x (by simp [stmtNodes, hx])) (around.opened _ _ 0)
    exact opened body
  | step body increment =>
    have body := ih.execute room calls loops ((p.opened [] []).child 0) body
      (fun x hx => h x (by simp [stmtNodes, hx])) (around.opened _ _ 0)
    have increment := ih.evaluate room calls ((p.opened [] []).child 1) increment fun x hx =>
      h x (by simp [stmtNodes, hx])
    exact opened (body.continuing.bind fun _ _ => increment.anywhere.bind fun _ _ => .pure trivial)
  | if_ condition yes no =>
    cases no with
    | none =>
      have condition := ih.evaluate room calls (p.child 0) condition fun x hx =>
        h x (by simp [stmtNodes, hx])
      have yes := ih.execute room calls loops (p.child 1) yes
        (fun x hx => h x (by simp [stmtNodes, hx])) (around.child 1)
      refine condition.anywhere.bind fun c _ => ?_
      cases c.isTruthy
      · exact .pure trivial
      · exact yes
    | some no =>
      have condition := ih.evaluate room calls (p.child 0) condition fun x hx =>
        h x (by simp [stmtNodes, hx])
      have yes := ih.execute room calls loops (p.child 1) yes
        (fun x hx => h x (by simp [stmtNodes, hx])) (around.child 1)
      have no := ih.execute room calls loops (p.child 2) no
        (fun x hx => h x (by simp [stmtNodes, hx])) (around.child 2)
      refine condition.anywhere.bind fun c _ => ?_
      cases c.isTruthy
      · exact no
      · exact yes
  | while_ condition body => exact ih.loop room calls loops p condition body h around
  | jump jump line =>
    have inLoop : p.inLoop = true := h (p, .stmt (.jump jump line)) (by simp [stmtNodes])
    exact .jump (around.loop inLoop)
  | function name params body =>
    have confined : ∀ x ∈ codeNodes ((p.declare name).child 0) params body, Scoped x := fun x hx =>
      h x (List.mem_cons_of_mem _ hx)
    exact (Mirrors.lift .currentFrame).bind fun frame _ =>
      (Mirrors.lift (.makeFunction ⟨_, confined⟩)).bind fun f _ => .lift (.define name.text f)
  | return_ line value =>
    cases value with
    | none =>
      have inFunction : p.inFunction = true :=
        h (p, .stmt (.return_ line none)) (by simp [stmtNodes])
      rw [inFunction]
      exact .giveBack (around.function inFunction)
    | some e =>
      have inFunction : p.inFunction = true :=
        h (p, .stmt (.return_ line (some e))) (by simp [stmtNodes])
      have e := ih.evaluate room calls (p.child 0) e fun x hx => h x (by simp [stmtNodes, hx])
      rw [inFunction]
      exact e.anywhere.bind fun v _ => .giveBack (around.function inFunction)
  | class_ name methods =>
    have confined : ∀ x ∈ methodsNodes ((p.declare name).class_.child 0) methods, Scoped x :=
      fun x hx => h x (List.mem_cons_of_mem _ hx)
    exact (Mirrors.lift .currentFrame).bind fun frame _ =>
      (Mirrors.lift (.makeClass ⟨_, confined⟩)).bind fun c _ => .lift (.define name.text c)

theorem executeAll_succ (ih : Guards fuel) (room calls loops : Nat) (p : Position)
    (ss : List BoundStmt) (h : ∀ x ∈ stmtsNodes p ss, Scoped x) (around : p.Within calls loops) :
    Mirrors calls loops p.inFunction (guarding.executeAll (fuel + 1) room ⟨calls, loops⟩ ss)
      (Run.executeAll (fuel + 1) room ss) Any := by
  cases ss with
  | nil => exact .pure trivial
  | cons s ss =>
    have first := ih.execute room calls loops (p.child 0) s
      (fun x hx => h x (by simp [stmtsNodes, hx])) (around.child 0)
    have others := ih.executeAll room calls loops ((p.after s).child 1) ss
      (fun x hx => h x (by simp [stmtsNodes, hx])) (around.after s 1)
    rw [show ((p.after s).child 1).inFunction = p.inFunction from Position.after_inFunction p s]
      at others
    exact first.bind fun _ _ => others

theorem loop_succ (ih : Guards fuel) (room calls loops : Nat) (p : Position)
    (condition : BoundExpr) (body : BoundStmt)
    (h : ∀ x ∈ stmtNodes p (.while_ condition body), Scoped x) (around : p.Within calls loops) :
    Mirrors calls loops p.inFunction (guarding.loop (fuel + 1) room ⟨calls, loops⟩ condition body)
      (Run.loop (fuel + 1) room condition body) Any := by
  have head := ih.evaluate room calls (p.child 0) condition fun x hx =>
    h x (by simp [stmtNodes, hx])
  have round := ih.execute room calls (loops + 1) (p.loop.child 1) body
    (fun x hx => h x (by simp [stmtNodes, hx])) (around.looping 1)
  have again := ih.loop room calls loops p condition body h around
  rw [Run.loop_succ]
  refine head.anywhere.bind fun c _ => ?_
  by_cases hc : c.isTruthy = true
  · simp only [if_pos hc]
    refine round.goesOn.bind fun on _ => ?_
    cases on
    · exact .pure trivial
    · exact again
  · simp only [if_neg hc]
    exact .pure trivial

/-- Whatever the fuel, a guarded evaluation ends as the evaluation does. -/
theorem all (fuel : Nat) : Guards fuel := by
  induction fuel with
  | zero => exact zero
  | succ fuel ih =>
    exact
      { evaluate := evaluate_succ ih
        evaluateAll := evaluateAll_succ ih
        call := call_succ ih
        enter := enter_succ ih
        execute := execute_succ ih
        executeAll := executeAll_succ ih
        loop := loop_succ ih }

end Guards

end Script
