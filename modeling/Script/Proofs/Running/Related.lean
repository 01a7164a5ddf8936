import Script.Evaluation
import Script.Proofs.Result

/-! Evaluations of the same code.
They differ in the fuel and in the room they have, and in nothing else. So a relation between runs
that every operation of the machine has to itself, and that goes from the parts of a run to the run,
is one between the two evaluations, if only it holds where one of them is out of fuel or of room.
The induction over the fuel is made here for all such relations. -/
namespace Script.Run

/-- What an evaluation does on the machine without evaluating anything. -/
inductive Operation : {α : Type} → Run α → Prop where
  | ofExcept (line : Nat) (r : Except Fault Value) : Operation (ofExcept line r)
  | load (name : Name) (site : Site) : Operation (load name site)
  | store (name : Name) (v : Value) (site : Site) : Operation (store name v site)
  | define (name : String) (v : Value) : Operation (define name v)
  | print (v : Value) : Operation (print v)
  | readClock : Operation readClock
  | currentFrame : Operation currentFrame
  | openFrame (parent : Nat) (bindings : Bindings Value) : Operation (openFrame parent bindings)
  | makeFunction (c : Closure) : Operation (makeFunction c)
  | makeClass (c : Class) : Operation (makeClass c)
  | makeInstance (ref : Nat) : Operation (makeInstance ref)
  | bindMethod (c : Class) (method : BoundMethod) (receiver : Value) :
      Operation (bindMethod c method receiver)
  | property (object : Value) (name : Name) : Operation (property object name)
  | fieldOwner (object : Value) (name : Name) : Operation (fieldOwner object name)
  | setField (ref : Nat) (name : String) (v : Value) : Operation (setField ref name v)
  | callee (value : Value) (given line : Nat) : Operation (callee value given line)

/-- Whether a loop goes on behind its body. A jump that reaches the loop ends with the body. -/
def goesOn (body : Run Unit) : Run Bool := fun m =>
  match body m with
  | .ok () m => .ok true m
  | .error (.jumped .continue_) m => .ok true m
  | .error (.jumped .break_) m => .ok false m
  | .error e m => .error e m

/-- What looks at how a run ends and at nothing else. Failures are passed on, and so is the want of
fuel. -/
structure Handler {β : Type} (handle : Run Unit → Run β) : Prop where
  looks : ∀ x m, handle x m = handle (fun _ => x m) m
  ends : ∀ x m, endState (handle x m) = endState (x m)
  failed : ∀ failure m m', handle (fun _ => .error (.failed failure) m') m =
    .error (.failed failure) m'
  exhausted : ∀ m m', handle (fun _ => .error .exhausted m') m = .error .exhausted m'

theorem returning_handler : Handler returning where
  looks _ _ := rfl
  ends x m := by
    simp only [returning]
    generalize x m = r
    cases r with
    | ok a m' => rfl
    | error e m' => cases e <;> rfl
  failed _ _ _ := rfl
  exhausted _ _ := rfl

theorem continuing_handler : Handler continuing where
  looks _ _ := rfl
  ends x m := by
    simp only [continuing]
    generalize x m = r
    cases r with
    | ok a m' => rfl
    | error e m' =>
      cases e with
      | jumped jump => cases jump <;> rfl
      | _ => rfl
  failed _ _ _ := rfl
  exhausted _ _ := rfl

theorem goesOn_handler : Handler goesOn where
  looks _ _ := rfl
  ends x m := by
    simp only [goesOn]
    generalize x m = r
    cases r with
    | ok a m' => rfl
    | error e m' =>
      cases e with
      | jumped jump => cases jump <;> rfl
      | _ => rfl
  failed _ _ _ := rfl
  exhausted _ _ := rfl

/-- A round of a loop, and the others where the loop goes on. -/
theorem loop_succ (fuel room : Nat) (condition : BoundExpr) (body : BoundStmt) :
    loop (fuel + 1) room condition body = (do
      let c ← evaluate fuel room condition
      if c.isTruthy then
        if ← goesOn (execute fuel room body) then loop fuel room condition body) := by
  funext m
  simp only [loop, Bind.bind, EStateM.bind]
  cases evaluate fuel room condition m with
  | error e m => rfl
  | ok c m =>
    by_cases hc : c.isTruthy = true
    · simp only [if_pos hc]
      show _ = EStateM.bind (goesOn (execute fuel room body)) _ m
      simp only [EStateM.bind, goesOn]
      cases execute fuel room body m with
      | ok _ m => rfl
      | error e m =>
        cases e with
        | jumped jump => cases jump <;> rfl
        | _ => rfl
    · simp only [if_neg hc]
      rfl

/-- A relation that every operation has to itself, and that goes from parts to the whole. -/
structure Congruence (R : ∀ {α : Type}, Run α → Run α → Prop) : Prop where
  pure : ∀ {α : Type} (a : α), R (Pure.pure a) (Pure.pure a)
  exit : ∀ {α : Type} (e : Exit), R (exit e : Run α) (exit e)
  operation : ∀ {α : Type} {x : Run α}, Operation x → R x x
  bind : ∀ {α β : Type} {x y : Run α} {f g : α → Run β},
    R y x → (∀ a, R (g a) (f a)) → R (y >>= g) (x >>= f)
  within : ∀ {α : Type} {x y : Run α} (frame : Nat), R y x → R (within frame y) (within frame x)
  handled : ∀ {β : Type} {handle : Run Unit → Run β} {x y : Run Unit},
    Handler handle → R y x → R (handle y) (handle x)

/-- Which room two evaluations may have. If only one of them is without, it is the second, and all
that the first may do is related to its failure. -/
structure Rooms (R : ∀ {α : Type}, Run α → Run α → Prop) (rooms : Nat → Nat → Prop) : Prop where
  refl : ∀ room, rooms room room
  inner : ∀ {room room'}, rooms (room' + 1) (room + 1) → rooms room' room
  first : ∀ {room}, ¬ rooms 0 (room + 1)
  overflow : ∀ {room'}, rooms (room' + 1) 0 → ∀ {x y : Run Value}, R y x → ∀ line,
    R y (fail line .stackOverflow)

structure Related (R : ∀ {α : Type}, Run α → Run α → Prop) (rooms : Nat → Nat → Prop)
    (fuel' fuel : Nat) : Prop where
  evaluate : ∀ {room room'}, rooms room' room → ∀ e,
    R (evaluate fuel' room' e) (evaluate fuel room e)
  evaluateAll : ∀ {room room'}, rooms room' room → ∀ es,
    R (evaluateAll fuel' room' es) (evaluateAll fuel room es)
  call : ∀ {room room'}, rooms room' room → ∀ c given line,
    R (call fuel' room' c given line) (call fuel room c given line)
  enter : ∀ {room room'}, rooms room' room → ∀ c given line,
    R (enter fuel' room' c given line) (enter fuel room c given line)
  execute : ∀ {room room'}, rooms room' room → ∀ s,
    R (execute fuel' room' s) (execute fuel room s)
  executeAll : ∀ {room room'}, rooms room' room → ∀ ss,
    R (executeAll fuel' room' ss) (executeAll fuel room ss)
  loop : ∀ {room room'}, rooms room' room → ∀ condition body,
    R (loop fuel' room' condition body) (loop fuel room condition body)

variable {R : ∀ {α : Type}, Run α → Run α → Prop} {rooms : Nat → Nat → Prop}

theorem Rooms.same : Rooms R (· = ·) where
  refl _ := rfl
  inner := Nat.succ.inj
  first := nofun
  overflow := nofun

namespace Congruence

variable {α β : Type} (h : Congruence R)
include h

theorem behind {x : Run α} (op : Operation x) {f g : α → Run β} (hf : ∀ a, R (g a) (f a)) :
    R (x >>= g) (x >>= f) := h.bind (h.operation op) hf

theorem opened {x y : Run α} (part : R y x) :
    R (do
      let frame ← openFrame (← currentFrame) []
      Run.within frame y) (do
      let frame ← openFrame (← currentFrame) []
      Run.within frame x) :=
  h.behind .currentFrame fun current => h.behind (.openFrame current []) fun frame =>
    h.within frame part

end Congruence

namespace Related

variable {fuel fuel' : Nat} (h : Congruence R)
include h

theorem zero : Related R rooms 0 0 where
  evaluate _ _ := h.exit _
  evaluateAll _ _ := h.exit _
  call _ _ _ _ := h.exit _
  enter _ _ _ _ := h.exit _
  execute _ _ := h.exit _
  executeAll _ _ := h.exit _
  loop _ _ _ := h.exit _

variable (ih : Related R rooms fuel' fuel) {room room' : Nat} (beside : rooms room' room)
include ih beside

theorem evaluate_succ (e : BoundExpr) :
    R (Run.evaluate (fuel' + 1) room' e) (Run.evaluate (fuel + 1) room e) := by
  cases e with
  | literal value => exact h.pure _
  | grouping inner => exact ih.evaluate beside inner
  | «variable» name site => exact h.operation (.load name site)
  | assign name site value =>
    exact h.bind (ih.evaluate beside value) fun v => h.behind (.store name v site) fun _ => h.pure v
  | this line site => exact h.operation (.load _ site)
  | unary op line operand =>
    exact h.bind (ih.evaluate beside operand) fun v => h.operation (.ofExcept line (op.apply v))
  | binary left op line right =>
    exact h.bind (ih.evaluate beside left) fun a => h.bind (ih.evaluate beside right) fun b =>
      h.operation (.ofExcept line (op.apply a b))
  | logical left op line right =>
    refine h.bind (ih.evaluate beside left) fun a => ?_
    cases op <;> cases a.isTruthy
    · exact h.pure a
    · exact ih.evaluate beside right
    · exact ih.evaluate beside right
    · exact h.pure a
  | ternary condition yes no =>
    refine h.bind (ih.evaluate beside condition) fun c => ?_
    cases c.isTruthy
    · exact ih.evaluate beside no
    · exact ih.evaluate beside yes
  | sequence earlier last =>
    exact h.bind (ih.evaluate beside earlier) fun _ => ih.evaluate beside last
  | call f line arguments =>
    exact h.bind (ih.evaluate beside f) fun value =>
      h.bind (ih.evaluateAll beside arguments) fun given =>
        h.behind (.callee value given.length line) fun c => ih.call beside c given line
  | get object name =>
    exact h.bind (ih.evaluate beside object) fun o => h.operation (.property o name)
  | set object name value =>
    exact h.bind (ih.evaluate beside object) fun o => h.behind (.fieldOwner o name) fun ref =>
      h.bind (ih.evaluate beside value) fun v => h.behind (.setField ref name.text v) fun _ =>
        h.pure v
  | function params body =>
    exact h.behind .currentFrame fun frame => h.operation (.makeFunction _)

theorem evaluateAll_succ (es : List BoundExpr) :
    R (Run.evaluateAll (fuel' + 1) room' es) (Run.evaluateAll (fuel + 1) room es) := by
  cases es with
  | nil => exact h.pure _
  | cons e es =>
    exact h.bind (ih.evaluate beside e) fun v => h.bind (ih.evaluateAll beside es) fun vs =>
      h.pure (v :: vs)

theorem call_succ (c : Machine.Callee) (given : List Value) (line : Nat) :
    R (Run.call (fuel' + 1) room' c given line) (Run.call (fuel + 1) room c given line) := by
  cases c with
  | native n => cases n; exact h.operation .readClock
  | function closure => exact ih.enter beside closure given line
  | class_ ref c =>
    refine h.behind (.makeInstance ref) fun made => ?_
    cases c.method? initializerName with
    | none => exact h.pure made
    | some method =>
      exact h.behind (.bindMethod c method made) fun closure =>
        h.bind (ih.enter beside closure given line) fun _ => h.pure made

theorem entered (c : Closure) (given : List Value) (line : Nat) :
    R (Run.enter (fuel' + 1) (room' + 1) c given line)
      (Run.enter (fuel + 1) (room + 1) c given line) := by
  refine h.behind (.openFrame _ _) fun frame => ?_
  have body := h.within frame (ih.executeAll beside c.body)
  refine h.bind (h.handled returning_handler body) fun v => ?_
  split
  · exact h.within c.frame (h.operation (.load _ _))
  · exact h.pure v

/-- Only here is the room looked at. -/
theorem enter_succ (s : Rooms R rooms) (c : Closure) (given : List Value) (line : Nat) :
    R (Run.enter (fuel' + 1) room' c given line) (Run.enter (fuel + 1) room c given line) := by
  cases room with
  | zero =>
    cases room' with
    | zero => exact h.exit _
    | succ room' => exact s.overflow beside (entered h ih (s.refl room') c given line) line
  | succ room =>
    cases room' with
    | zero => exact absurd beside s.first
    | succ room' => exact entered h ih (s.inner beside) c given line

theorem execute_succ (s : BoundStmt) :
    R (Run.execute (fuel' + 1) room' s) (Run.execute (fuel + 1) room s) := by
  cases s with
  | expression e => exact h.bind (ih.evaluate beside e) fun _ => h.pure ()
  | print e => exact h.bind (ih.evaluate beside e) fun v => h.operation (.print v)
  | var name initial =>
    cases initial with
    | none => exact h.operation (.define name.text .nil)
    | some e => exact h.bind (ih.evaluate beside e) fun v => h.operation (.define name.text v)
  | block body => exact h.opened (ih.executeAll beside body)
  | step body increment =>
    exact h.opened (h.bind (h.handled continuing_handler (ih.execute beside body)) fun _ =>
      h.bind (ih.evaluate beside increment) fun _ => h.pure ())
  | if_ condition yes no =>
    refine h.bind (ih.evaluate beside condition) fun c => ?_
    cases c.isTruthy
    · cases no with
      | none => exact h.pure ()
      | some no => exact ih.execute beside no
    · exact ih.execute beside yes
  | while_ condition body => exact ih.loop beside condition body
  | jump jump line => exact h.exit _
  | function name params body =>
    exact h.behind .currentFrame fun frame => h.behind (.makeFunction _) fun f =>
      h.operation (.define name.text f)
  | return_ line value =>
    cases value with
    | none => exact h.exit _
    | some e => exact h.bind (ih.evaluate beside e) fun v => h.exit _
  | class_ name methods =>
    exact h.behind .currentFrame fun frame => h.behind (.makeClass _) fun c =>
      h.operation (.define name.text c)

theorem executeAll_succ (ss : List BoundStmt) :
    R (Run.executeAll (fuel' + 1) room' ss) (Run.executeAll (fuel + 1) room ss) := by
  cases ss with
  | nil => exact h.pure ()
  | cons s ss => exact h.bind (ih.execute beside s) fun _ => ih.executeAll beside ss

theorem loop_succ (condition : BoundExpr) (body : BoundStmt) :
    R (Run.loop (fuel' + 1) room' condition body) (Run.loop (fuel + 1) room condition body) := by
  rw [Run.loop_succ, Run.loop_succ]
  refine h.bind (ih.evaluate beside condition) fun c => ?_
  split
  · refine h.bind (h.handled goesOn_handler (ih.execute beside body)) fun on => ?_
    split
    · exact ih.loop beside condition body
    · exact h.pure ()
  · exact h.pure ()

omit beside in
theorem succ (s : Rooms R rooms) : Related R rooms (fuel' + 1) (fuel + 1) where
  evaluate beside := evaluate_succ h ih beside
  evaluateAll beside := evaluateAll_succ h ih beside
  call beside := call_succ h ih beside
  enter beside := enter_succ h ih beside s
  execute beside := execute_succ h ih beside
  executeAll beside := executeAll_succ h ih beside
  loop beside := loop_succ h ih beside

omit ih beside

/-- Evaluations of which the first has some fuel more, if they are related where the second has
none. -/
theorem add (s : Rooms R rooms) {extra : Nat} (out : Related R rooms extra 0) (fuel : Nat) :
    Related R rooms (extra + fuel) fuel := by
  induction fuel with
  | zero => exact out
  | succ fuel ih => exact succ h ih s

theorem all (s : Rooms R rooms) (fuel : Nat) : Related R rooms fuel fuel := by
  have related := add h s (zero h) fuel
  rwa [Nat.zero_add] at related

end Related

end Script.Run
