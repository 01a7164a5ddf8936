import Script.Proofs.Guarded.Mirroring
import Script.Proofs.Running.Current

/-! How a guarded evaluation is left.
The frame that was current is current again, and the only jumps that leave a statement are for the
innermost loop around it. Nothing is asked of the code, since calls let no jump through. -/
namespace Script

variable {α β : Type}

def GuardedExit.isJump : GuardedExit → Bool
  | .jumped _ _ _ => true
  | _ => false

/-- With so many calls and loops around, the frame is the one of before, and a jump is for the
innermost of the loops. Without loops around there is no jump. -/
inductive Left (calls loops frame : Nat) : EStateM.Result GuardedExit Machine α → Prop
  | ok {a m} (back : m.current = frame) : Left calls loops frame (.ok a m)
  | jumped {j loop m} (back : m.current = frame) (innermost : loop + 1 = loops) :
    Left calls loops frame (.error (.jumped j calls loop) m)
  | other {e m} (back : m.current = frame) (quiet : e.isJump = false) :
    Left calls loops frame (.error e m)

def Leaves (calls loops : Nat) (x : GuardedRun α) : Prop := ∀ m, Left calls loops m.current (x m)

theorem Left.target {calls loops frame : Nat} {j : Jump} {call loop : Nat} {m : Machine}
    (h : Left calls loops frame (.error (.jumped j call loop) m : EStateM.Result _ _ α)) :
    call = calls ∧ loop + 1 = loops := by
  cases h with
  | jumped back innermost => exact ⟨rfl, innermost⟩
  | other back quiet => cases quiet

namespace Leaves

variable {calls loops : Nat} {x : GuardedRun α}

theorem restores (h : Leaves calls loops x) : Restores x := by
  intro m
  have left := h m
  generalize x m = r at left ⊢
  cases left with
  | ok back => exact back
  | jumped back _ => exact back
  | other back _ => exact back

theorem pure {a : α} : Leaves calls loops (Pure.pure a) := fun _ => .ok rfl

theorem bind {f : α → GuardedRun β} (h : Leaves calls loops x) (hf : ∀ a, Leaves calls loops (f a)) :
    Leaves calls loops (x >>= f) := by
  intro m
  have first := h m
  simp only [Bind.bind, EStateM.bind]
  generalize x m = r at first ⊢
  cases first with
  | ok back => exact back ▸ hf _ _
  | jumped back innermost => exact .jumped back innermost
  | other back quiet => exact .other back quiet

/-- What lets no jump out may stand in any loops. -/
theorem anywhere (h : Leaves calls 0 x) : Leaves calls loops x := by
  intro m
  have left := h m
  generalize x m = r at left ⊢
  cases left with
  | ok back => exact .ok back
  | jumped back innermost => cases innermost
  | other back quiet => exact .other back quiet

theorem exit {e : GuardedExit} (h : e.isJump = false) :
    Leaves calls loops (GuardedRun.exit e : GuardedRun α) := fun _ => .other rfl h

theorem lift {run : Run α} (h : Restores run) : Leaves calls loops (GuardedRun.lift run) := by
  intro m
  have back := h m
  simp only [GuardedRun.lift]
  generalize run m = r at back ⊢
  cases r with
  | ok a m' => exact .ok back
  | error e m' => cases e <;> exact .other back rfl

theorem present (b : Breach) (a : Option α) : Leaves calls loops (GuardedRun.present b a) := by
  cases a with
  | some a => exact .pure
  | none => exact .exit rfl

theorem jump (j : Jump) : Leaves calls loops
    (fun m => .error (guarding.jumped ⟨calls, loops⟩ j) m : GuardedRun α) := by
  cases loops with
  | zero => exact .exit rfl
  | succ loop => exact fun _ => .jumped rfl rfl

theorem giveBack (v : Value) : Leaves calls loops
    (fun m => .error (guarding.returned ⟨calls, loops⟩ v) m : GuardedRun α) := by
  cases calls with
  | zero => exact .exit rfl
  | succ call => exact .exit rfl

theorem within (frame : Nat) (h : Leaves calls loops x) :
    Leaves calls loops (guarding.within frame x) := by
  intro m
  have inside := h { m with current := frame }
  simp only [Instrument.within, guarding]
  generalize x _ = r at inside ⊢
  cases inside with
  | ok _ => exact .ok rfl
  | jumped _ innermost => exact .jumped rfl innermost
  | other _ quiet => exact .other rfl quiet

theorem continuing {x : GuardedRun Unit} (h : Leaves calls loops x) :
    Leaves calls loops (guarding.continuing ⟨calls, loops⟩ x) := by
  intro m
  have body := h m
  simp only [Instrument.continuing, guarding]
  generalize x m = r at body ⊢
  cases body with
  | ok back => exact .ok back
  | @jumped j loop _ back innermost =>
    simp only [innermost, and_self, if_true]
    cases j with
    | break_ => exact .jumped back innermost
    | continue_ => exact .ok back
  | @other e m' back quiet =>
    cases e with
    | jumped _ _ _ => cases quiet
    | _ => exact .other back rfl

/-- A loop takes the jumps of its body, which are all for it. -/
theorem goesOn {x : GuardedRun Unit} (h : Leaves calls (loops + 1) x) :
    Leaves calls 0 (guarding.goesOn ⟨calls, loops + 1⟩ x) := by
  intro m
  have body := h m
  simp only [Instrument.goesOn, guarding]
  generalize x m = r at body ⊢
  cases body with
  | ok back => exact .ok back
  | @jumped j loop _ back innermost =>
    simp only [innermost, and_self, if_true]
    cases j <;> exact .ok back
  | @other e m' back quiet =>
    cases e with
    | jumped _ _ _ => cases quiet
    | _ => exact .other back rfl

/-- The body of a call has no loop around, so no jump leaves it. -/
theorem returning {x : GuardedRun Unit} (h : Leaves (calls + 1) 0 x) :
    Leaves calls 0 (guarding.returning ⟨calls, loops⟩ x) := by
  intro m
  have body := h m
  simp only [Instrument.returning, guarding]
  generalize x m = r at body ⊢
  cases body with
  | ok back => exact .ok back
  | jumped back innermost => cases innermost
  | @other e m' back quiet =>
    cases e with
    | jumped _ _ _ => cases quiet
    | returned v target =>
      by_cases here : target = calls + 1
      · simp only [if_pos here]
        exact .ok back
      · simp only [if_neg here]
        exact .other back rfl
    | _ => exact .other back rfl

theorem contained {x : GuardedRun Value} (h : Restores x) :
    Leaves calls loops (GuardedRun.contained x) := by
  intro m
  have back := h m
  simp only [GuardedRun.contained]
  generalize x m = r at back ⊢
  cases r with
  | ok a m' => exact .ok back
  | error e m' => cases e <;> exact .other back rfl

theorem bindFrom (given : List Value) : ∀ (i : Nat) (params : List Name) (bindings : Bindings Value),
    Leaves calls loops (GuardedRun.bindFrom given i params bindings)
  | _, [], _ => .pure
  | i, param :: params, bindings =>
    (present _ _).bind fun v => bindFrom given (i + 1) params (bindings.set param.text v)

theorem print (v : Value) : Leaves calls loops (GuardedRun.print v) := by
  cases v with
  | number x =>
    intro m
    simp only [GuardedRun.print, read_bind, GuardedRun.numberText_eq]
    exact .ok rfl
  | _ => exact fun _ => .ok rfl

theorem property {x : Around} (object : Value) (name : Name) :
    Leaves calls loops (guarding.property x object name) := by
  rw [GuardedRun.property_eq]
  exact lift (Run.property_restores object name)

theorem applyBinary (op : BinaryOp) (line : Nat) (left right : Value) :
    Leaves calls loops (GuardedRun.applyBinary op line left right) := by
  unfold GuardedRun.applyBinary
  split
  · simp only [GuardedRun.quotient]
    split
    · exact lift .error
    · exact (present _ _).bind fun _ => .pure
  · exact lift (Run.ofExcept_restores line _)

end Leaves

namespace GuardedRun

/-- Guarded evaluations of some fuel are left so. -/
structure Leaving (fuel : Nat) : Prop where
  evaluate : ∀ room calls e, Leaves calls 0 (guarding.evaluate fuel room ⟨calls, 0⟩ e)
  evaluateAll : ∀ room calls es, Leaves calls 0 (guarding.evaluateAll fuel room ⟨calls, 0⟩ es)
  call : ∀ room calls c given line, Leaves calls 0 (guarding.call fuel room ⟨calls, 0⟩ c given line)
  enter : ∀ room calls c given line, Leaves calls 0 (guarding.enter fuel room ⟨calls, 0⟩ c given line)
  execute : ∀ room calls loops s, Leaves calls loops (guarding.execute fuel room ⟨calls, loops⟩ s)
  executeAll : ∀ room calls loops ss, Leaves calls loops (guarding.executeAll fuel room ⟨calls, loops⟩ ss)
  loop : ∀ room calls loops condition body,
    Leaves calls 0 (guarding.loop fuel room ⟨calls, loops⟩ condition body)

namespace Leaving

theorem zero : Leaving 0 where
  evaluate _ _ _ := .exit rfl
  evaluateAll _ _ _ := .exit rfl
  call _ _ _ _ _ := .exit rfl
  enter _ _ _ _ _ := .exit rfl
  execute _ _ _ _ := .exit rfl
  executeAll _ _ _ _ := .exit rfl
  loop _ _ _ _ _ := .exit rfl

variable {fuel : Nat}

theorem evaluate_succ (ih : Leaving fuel) (room calls : Nat) (e : BoundExpr) :
    Leaves calls 0 (guarding.evaluate (fuel + 1) room ⟨calls, 0⟩ e) := by
  have value := ih.evaluate room calls
  cases e with
  | literal value => exact .pure
  | grouping inner => exact value inner
  | «variable» name site => exact .lift (Run.load_restores name site)
  | assign name site e =>
    exact (value e).bind fun v => (Leaves.lift (Run.store_restores name v site)).bind fun _ => .pure
  | this line site => exact .lift (Run.load_restores _ site)
  | unary op line operand =>
    exact (value operand).bind fun v => .lift (Run.ofExcept_restores line _)
  | binary left op line right =>
    exact (value left).bind fun a => (value right).bind fun b => .applyBinary op line a b
  | logical left op line right =>
    refine (value left).bind fun a => ?_
    cases op <;> cases a.isTruthy
    · exact .pure
    · exact value right
    · exact value right
    · exact .pure
  | ternary condition yes no =>
    refine (value condition).bind fun c => ?_
    cases c.isTruthy
    · exact value no
    · exact value yes
  | sequence earlier last => exact (value earlier).bind fun _ => value last
  | call f line arguments =>
    exact (value f).bind fun v => (ih.evaluateAll room calls arguments).bind fun given =>
      (Leaves.lift (Run.callee_restores v given.length line)).bind fun c =>
        .contained (ih.call room calls c given line).restores
  | get object name =>
    exact (value object).bind fun o => .property o name
  | set object name e =>
    exact (value object).bind fun o =>
      (Leaves.lift (Run.fieldOwner_restores o name)).bind fun ref => (value e).bind fun v =>
        (Leaves.lift (Run.setField_restores ref name.text v)).bind fun _ => .pure
  | function params body =>
    exact (Leaves.lift Run.currentFrame_restores).bind fun frame =>
      .lift (Run.makeFunction_restores _)

theorem evaluateAll_succ (ih : Leaving fuel) (room calls : Nat) (es : List BoundExpr) :
    Leaves calls 0 (guarding.evaluateAll (fuel + 1) room ⟨calls, 0⟩ es) := by
  cases es with
  | nil => exact .pure
  | cons e es =>
    exact (ih.evaluate room calls e).bind fun v =>
      (ih.evaluateAll room calls es).bind fun vs => .pure

theorem call_succ (ih : Leaving fuel) (room calls : Nat) (c : Machine.Callee) (given : List Value)
    (line : Nat) : Leaves calls 0 (guarding.call (fuel + 1) room ⟨calls, 0⟩ c given line) := by
  cases c with
  | native n => cases n; exact .lift Run.readClock_restores
  | function c => exact ih.enter room calls c given line
  | class_ ref c =>
    refine (Leaves.lift (Run.makeInstance_restores ref)).bind fun made => ?_
    simp only [method?_eq]
    cases c.method? initializerName with
    | none => exact .pure
    | some method =>
      exact (Leaves.lift (Run.bindMethod_restores c method made)).bind fun closure =>
        (ih.enter room calls closure given line).bind fun _ => .pure

theorem enter_succ (ih : Leaving fuel) (room calls : Nat) (c : Closure) (given : List Value)
    (line : Nat) : Leaves calls 0 (guarding.enter (fuel + 1) room ⟨calls, 0⟩ c given line) := by
  cases room with
  | zero => exact .lift .error
  | succ room =>
    refine (Leaves.bindFrom given 0 c.params []).bind fun bindings => ?_
    refine (Leaves.lift (Run.openFrame_restores c.frame bindings)).bind fun frame => ?_
    have body := ih.executeAll room (calls + 1) 0 c.body
    refine (Leaves.returning (body.within frame)).bind fun v => ?_
    split
    · rw [guarding.receiver_eq rfl]
      exact (Leaves.lift (Run.load_restores _ _)).within c.frame
    · exact .pure

theorem opened {calls loops : Nat} {x : GuardedRun α} (h : Leaves calls loops x) :
    Leaves calls loops (do
      let frame ← lift (Run.openFrame (← lift Run.currentFrame) [])
      guarding.within frame x) :=
  (Leaves.lift Run.currentFrame_restores).bind fun current =>
    (Leaves.lift (Run.openFrame_restores current [])).bind fun frame => h.within frame

theorem execute_succ (ih : Leaving fuel) (room calls loops : Nat) (s : BoundStmt) :
    Leaves calls loops (guarding.execute (fuel + 1) room ⟨calls, loops⟩ s) := by
  have value : ∀ e, Leaves calls loops (guarding.evaluate fuel room ⟨calls, 0⟩ e) := fun e =>
    (ih.evaluate room calls e).anywhere
  cases s with
  | expression e => exact (value e).bind fun _ => .pure
  | print e => exact (value e).bind fun v => .print v
  | var name initial =>
    cases initial with
    | none => exact .lift (Run.define_restores name.text .nil)
    | some e => exact (value e).bind fun v => .lift (Run.define_restores name.text v)
  | block body => exact opened (ih.executeAll room calls loops body)
  | step body increment =>
    exact opened ((ih.execute room calls loops body).continuing.bind fun _ =>
      (value increment).bind fun _ => .pure)
  | if_ condition yes no =>
    refine (value condition).bind fun c => ?_
    cases c.isTruthy
    · cases no with
      | none => exact .pure
      | some no => exact ih.execute room calls loops no
    · exact ih.execute room calls loops yes
  | while_ condition body => exact (ih.loop room calls loops condition body).anywhere
  | jump jump line => exact .jump jump
  | function name params body =>
    exact (Leaves.lift Run.currentFrame_restores).bind fun frame =>
      (Leaves.lift (Run.makeFunction_restores _)).bind fun f =>
        .lift (Run.define_restores name.text f)
  | return_ line value? =>
    cases value? with
    | none => exact .giveBack .nil
    | some e => exact (value e).bind fun v => .giveBack v
  | class_ name methods =>
    exact (Leaves.lift Run.currentFrame_restores).bind fun frame =>
      (Leaves.lift (Run.makeClass_restores _)).bind fun c =>
        .lift (Run.define_restores name.text c)

theorem executeAll_succ (ih : Leaving fuel) (room calls loops : Nat) (ss : List BoundStmt) :
    Leaves calls loops (guarding.executeAll (fuel + 1) room ⟨calls, loops⟩ ss) := by
  cases ss with
  | nil => exact .pure
  | cons s ss =>
    exact (ih.execute room calls loops s).bind fun _ => ih.executeAll room calls loops ss

theorem loop_succ (ih : Leaving fuel) (room calls loops : Nat) (condition : BoundExpr)
    (body : BoundStmt) :
    Leaves calls 0 (guarding.loop (fuel + 1) room ⟨calls, loops⟩ condition body) := by
  refine (ih.evaluate room calls condition).bind fun c => ?_
  by_cases hc : c.isTruthy = true
  · simp only [if_pos hc]
    refine (ih.execute room calls (loops + 1) body).goesOn.bind fun on => ?_
    cases on
    · exact .pure
    · exact ih.loop room calls loops condition body
  · simp only [if_neg hc]
    exact .pure

/-- Whatever the fuel, evaluations are left with the frame restored and by no jump but one for the
innermost loop. -/
theorem all (fuel : Nat) : Leaving fuel := by
  induction fuel with
  | zero => exact zero
  | succ fuel ih =>
    exact
      { evaluate := evaluate_succ ih
        evaluateAll := evaluateAll_succ ih
        call := call_succ ih
        enter := enter_succ ih
        execute := execute_succ ih
        executeAll := executeAll_succ ih
        loop := loop_succ ih }

end Leaving

end GuardedRun

end Script
