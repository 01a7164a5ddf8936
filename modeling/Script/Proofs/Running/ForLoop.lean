import Script.Proofs.Running.Current

/-! The meaning of a `for` loop.
It is given directly, without the `while` loop that a `for` loop is built from. The initializer runs
once in a scope opened for it. Every round is in that one scope, with the body and then the
increment in a scope of the round where there is an increment. The increment follows a body that
ends, or that ends by a jump back to the head of this loop, and it runs once. The loop is left by a
jump out of it, and at once by everything else. That the loop as it is built does the same is shown
for every number of rounds, and from every machine. -/
namespace Script

variable {ε α : Type}

theorem bind_at {β : Type} {x y : EStateM ε Machine α} {f g : α → EStateM ε Machine β} {m : Machine}
    (h : x m = y m) (hf : ∀ a m', y m = .ok a m' → f a m' = g a m') : (x >>= f) m = (y >>= g) m := by
  simp only [Bind.bind, EStateM.bind, h]
  cases hy : y m with
  | ok a m' => exact hf a m' hy
  | error e m' => rfl

/-- Runs in a scope and comes back to the scope of before. -/
def inFrame (frame : Nat) (x : EStateM ε Machine α) : EStateM ε Machine α := fun m =>
  match x { m with current := frame } with
  | .ok a m' => .ok a { m' with current := m.current }
  | .error e m' => .error e { m' with current := m.current }

def openScope (parent : Nat) : EStateM ε Machine Nat := fun m =>
  .ok m.frames.next { m with frames := m.frames.extend parent [] }

def currentScope : EStateM ε Machine Nat := fun m => .ok m.current m

def endWith (e : ε) : EStateM ε Machine α := fun m => .error e m

/-- How expressions and statements run where a loop stands, around it and inside of it. Of an exit
it is known whether it is a jump, and for this loop. -/
structure LoopPlace (ε : Type) where
  exhausted : ε
  jump? : ε → Option Jump
  evaluate : Nat → BoundExpr → EStateM ε Machine Value
  around : Nat → BoundStmt → EStateM ε Machine Unit
  inside : Nat → BoundStmt → EStateM ε Machine Unit

namespace LoopPlace

variable (p : LoopPlace ε)

/-- Whether the loop goes on behind a part of it. -/
def goesOn (part : EStateM ε Machine Unit) : EStateM ε Machine Bool := fun m =>
  match part m with
  | .ok () m => .ok true m
  | .error e m =>
    match p.jump? e with
    | some .continue_ => .ok true m
    | some .break_ => .ok false m
    | none => .error e m

def holds (scope fuel : Nat) : Option BoundExpr → EStateM ε Machine Bool
  | none => pure true
  | some condition => do
    let v ← inFrame scope (p.evaluate fuel condition)
    pure v.isTruthy

/-- An expression for its effect. No jump stands in an expression; one that comes out of it all the
same is taken as one of the body is. -/
def effect (scope fuel : Nat) (e : BoundExpr) : EStateM ε Machine Bool :=
  p.goesOn <| inFrame scope do
    let _ ← p.evaluate fuel e
    pure ()

/-- One round, which tells whether the loop goes on. A scope for the round is one step down. -/
def round (scope : Nat) (increment : Option BoundExpr) (body : BoundStmt) :
    Nat → EStateM ε Machine Bool := fun fuel =>
  match increment, fuel with
  | none, fuel => p.goesOn (inFrame scope (p.inside fuel body))
  | some _, 0 => endWith p.exhausted
  | some increment, fuel + 1 => do
    let fresh ← openScope scope
    if ← p.goesOn (inFrame fresh (p.inside fuel body)) then p.effect fresh fuel increment
    else pure false

def rounds (scope : Nat) (condition increment : Option BoundExpr) (body : BoundStmt) :
    Nat → EStateM ε Machine Unit
  | 0 => endWith p.exhausted
  | fuel + 1 => do
    if ← p.holds scope fuel condition then
      if ← p.round scope increment body fuel then
        rounds scope condition increment body fuel

def forLoop (fuel : Nat) (initial : Option BoundStmt) (condition increment : Option BoundExpr)
    (body : BoundStmt) : EStateM ε Machine Unit := do
  match initial with
  | none => p.rounds (← currentScope) condition increment body fuel
  | some s => do
    let scope ← openScope (← currentScope)
    inFrame scope do
      p.around (fuel + 2) s
      p.rounds scope condition increment body fuel

/-- A jump back to the head of the loop ends its body only. -/
def continuing (part : EStateM ε Machine Unit) : EStateM ε Machine Unit := fun m =>
  match part m with
  | .ok () m => .ok () m
  | .error e m => if p.jump? e = some .continue_ then .ok () m else .error e m

structure Lawful : Prop where
  exhausted : p.jump? p.exhausted = none
  restoresValue : ∀ fuel e, Restores (p.evaluate fuel e)
  restoresBody : ∀ fuel s, Restores (p.inside fuel s)
  restoresInitial : ∀ fuel s, Restores (p.around fuel s)
  evaluate_zero : ∀ e, p.evaluate 0 e = endWith p.exhausted
  inside_zero : ∀ s, p.inside 0 s = endWith p.exhausted
  literal : ∀ fuel v, p.evaluate (fuel + 1) (.literal v) = pure (.ofLiteral v)
  step : ∀ fuel body increment, p.inside (fuel + 1) (.step body increment) = do
    let scope ← openScope (← currentScope)
    inFrame scope do
      p.continuing (p.inside fuel body)
      let _ ← p.evaluate fuel increment
      pure ()
  pair : ∀ fuel s t, p.around (fuel + 4) (.block [s, t]) = do
    let scope ← openScope (← currentScope)
    inFrame scope do
      p.around (fuel + 2) s
      p.around (fuel + 1) t
  while_one : ∀ condition body, p.around 1 (.while_ condition body) = endWith p.exhausted
  while_more : ∀ fuel condition body, p.around (fuel + 2) (.while_ condition body) = do
    let v ← p.evaluate fuel condition
    if v.isTruthy then
      if ← p.goesOn (p.inside fuel body) then
        p.around (fuel + 1) (.while_ condition body)

end LoopPlace

theorem inFrame_restores (scope : Nat) (x : EStateM ε Machine α) : Restores (inFrame scope x) := by
  intro m
  simp only [inFrame]
  generalize x _ = r
  cases r <;> rfl

/-- In the scope that is current anyway. -/
theorem inFrame_current {x : EStateM ε Machine α} (h : Restores x) {m : Machine} {scope : Nat}
    (here : m.current = scope) : inFrame scope x m = x m := by
  subst here
  have back := h m
  simp only [inFrame]
  generalize x m = r at back ⊢
  cases r with
  | ok a m' =>
    have back : m'.current = m.current := back
    rw [← back]
  | error e m' =>
    have back : m'.current = m.current := back
    rw [← back]

/-- One thing and then another in a scope are both in that scope. -/
theorem inFrame_bind {β : Type} {x : EStateM ε Machine α} (h : Restores x)
    (f : α → EStateM ε Machine β) (scope : Nat) :
    inFrame scope (x >>= f) = inFrame scope x >>= fun a => inFrame scope (f a) := by
  funext m
  have back := h { m with current := scope }
  simp only [inFrame, Bind.bind, EStateM.bind]
  generalize x _ = r at back ⊢
  cases r with
  | ok a m' =>
    have back : m'.current = scope := back
    simp only [← back]
  | error e m' => rfl

namespace LoopPlace

variable {p : LoopPlace ε}

theorem goesOn_restores {x : EStateM ε Machine Unit} (h : Restores x) : Restores (p.goesOn x) := by
  intro m
  have back := h m
  simp only [goesOn]
  generalize x m = r at back ⊢
  cases r with
  | ok a m' => exact back
  | error e m' =>
    simp only
    cases p.jump? e with
    | none => exact back
    | some jump => cases jump <;> exact back

theorem goesOn_inFrame (x : EStateM ε Machine Unit) (scope : Nat) :
    p.goesOn (inFrame scope x) = inFrame scope (p.goesOn x) := by
  funext m
  simp only [goesOn, inFrame]
  generalize x _ = r
  cases r with
  | ok a m' => rfl
  | error e m' =>
    simp only
    cases p.jump? e with
    | none => rfl
    | some jump => cases jump <;> rfl

/-- What stands behind a body that may be continued is reached where the body lets the loop go on. -/
theorem goesOn_continuing (x y : EStateM ε Machine Unit) :
    p.goesOn (do p.continuing x; y) =
      (do if ← p.goesOn x then p.goesOn y else pure false) := by
  funext m
  simp only [goesOn, continuing, Bind.bind, EStateM.bind]
  generalize x m = r
  cases r with
  | ok a m' => rfl
  | error e m' =>
    simp only
    cases hj : p.jump? e with
    | none => simp [hj]
    | some jump =>
      cases jump with
      | break_ => simp [hj]; rfl
      | continue_ => rfl

def roundBody {β : Type} (increment : Option (Expr β)) (body : Stmt β) : Stmt β :=
  match increment with
  | some e => .step body e
  | none => body

theorem forLoop_none {β : Type} (condition increment : Option (Expr β)) (body : Stmt β) :
    Stmt.forLoop none condition increment body =
      .while_ (condition.getD (.literal (.bool true))) (roundBody increment body) := by
  cases increment <;> rfl

namespace Lawful

/-- A part without fuel exhausts the loop. -/
theorem goesOn_exhausted (h : p.Lawful) : p.goesOn (endWith p.exhausted) = endWith p.exhausted := by
  funext m
  simp only [goesOn, endWith, h.exhausted]

theorem round_eq (h : p.Lawful) (increment : Option BoundExpr) (body : BoundStmt) (fuel : Nat)
    {m : Machine} {scope : Nat} (here : m.current = scope) :
    p.goesOn (p.inside fuel (roundBody increment body)) m = p.round scope increment body fuel m := by
  cases increment with
  | none =>
    rw [round, goesOn_inFrame]
    exact (inFrame_current (goesOn_restores (h.restoresBody fuel body)) here).symm
  | some e =>
    cases fuel with
    | zero => rw [roundBody, h.inside_zero, h.goesOn_exhausted]; rfl
    | succ fuel =>
      subst here
      have inner : ∀ fresh,
          p.goesOn (inFrame fresh do
            p.continuing (p.inside fuel body)
            let _ ← p.evaluate fuel e
            pure ()) =
          (do
            if ← p.goesOn (inFrame fresh (p.inside fuel body)) then p.effect fresh fuel e
            else pure false) := by
        intro fresh
        rw [goesOn_inFrame, goesOn_continuing,
          inFrame_bind (goesOn_restores (h.restoresBody fuel body)), ← goesOn_inFrame]
        congr 1
        funext on
        cases on with
        | true => exact (goesOn_inFrame _ fresh).symm
        | false => rfl
      rw [roundBody, h.step]
      exact congrFun (inner m.frames.next) { m with frames := m.frames.extend m.current [] }

/-- The head of the loop that is built: its condition is evaluated and the loop goes on, or not. A
loop without a condition has one that holds. -/
theorem holds_eq (h : p.Lawful) (condition : Option BoundExpr) (fuel : Nat) {m : Machine}
    {scope : Nat} (here : m.current = scope) (more : EStateM ε Machine Unit) :
    (do
      let v ← p.evaluate (fuel + 1) (condition.getD (.literal (.bool true)))
      if v.isTruthy then more) m =
      (do if ← p.holds scope (fuel + 1) condition then more) m := by
  cases condition with
  | none => rw [Option.getD_none, h.literal]; rfl
  | some c =>
    simp only [holds, Option.getD_some, bind_assoc, pure_bind]
    simp only [Bind.bind, EStateM.bind, inFrame_current (h.restoresValue (fuel + 1) c) here]

theorem holds_restores (scope fuel : Nat) (condition : Option BoundExpr) :
    Restores (p.holds scope fuel condition) := by
  cases condition with
  | none => exact .pure
  | some c => exact (inFrame_restores scope _).bind fun v => .pure

theorem rounds_one (h : p.Lawful) (scope : Nat) (condition increment : Option BoundExpr)
    (body : BoundStmt) : p.rounds scope condition increment body 1 = endWith p.exhausted := by
  cases condition with
  | some c => simp only [rounds, holds, h.evaluate_zero]; rfl
  | none =>
    cases increment with
    | some e => rfl
    | none =>
      simp only [rounds, holds, pure_bind, if_true, round, h.inside_zero, goesOn_inFrame,
        h.goesOn_exhausted]
      rfl

/-- The loop that is built does what the rounds do, in the scope that is current. -/
theorem rounds_eq (h : p.Lawful) (condition increment : Option BoundExpr) (body : BoundStmt)
    (fuel : Nat) {m : Machine} {scope : Nat} (here : m.current = scope) :
    p.around (fuel + 1)
        (.while_ (condition.getD (.literal (.bool true))) (roundBody increment body)) m =
      p.rounds scope condition increment body fuel m := by
  induction fuel generalizing m with
  | zero => rw [h.while_one]; rfl
  | succ fuel ih =>
    rw [h.while_more]
    cases fuel with
    | zero => rw [h.rounds_one, h.evaluate_zero]; rfl
    | succ fuel =>
      rw [rounds, h.holds_eq condition fuel here]
      refine bind_at rfl fun on m' held => ?_
      have here' : m'.current = scope :=
        ((holds_restores scope (fuel + 1) condition).ok held).trans here
      cases on with
      | false => rfl
      | true =>
        have round := h.round_eq increment body (fuel + 1) here'
        refine bind_at round fun on m'' went => ?_
        cases on with
        | false => rfl
        | true =>
          have restored := goesOn_restores (p := p)
            (h.restoresBody (fuel + 1) (roundBody increment body))
          exact ih ((restored.ok (round.trans went)).trans here')

/-- The statement that is built for a loop means what the loop means. -/
theorem forLoop_eq (h : p.Lawful) (fuel : Nat) (initial : Option BoundStmt)
    (condition increment : Option BoundExpr) (body : BoundStmt) :
    p.around (fuel + if initial.isSome then 4 else 1)
        (Stmt.forLoop initial condition increment body) =
      p.forLoop fuel initial condition increment body := by
  funext m
  cases initial with
  | none =>
    rw [forLoop_none]
    exact h.rounds_eq condition increment body fuel rfl
  | some s =>
    show p.around (fuel + 4) (.block [s, Stmt.forLoop none condition increment body]) m = _
    rw [h.pair, forLoop_none]
    refine bind_at rfl fun around m' _ => bind_at rfl fun scope m'' _ => ?_
    have inner : (do p.around (fuel + 2) s; p.around (fuel + 1) (.while_
        (condition.getD (.literal (.bool true))) (roundBody increment body)))
          { m'' with current := scope } =
        (do p.around (fuel + 2) s; p.rounds scope condition increment body fuel)
          { m'' with current := scope } :=
      bind_at rfl fun _ m begun =>
        h.rounds_eq condition increment body fuel ((h.restoresInitial (fuel + 2) s).ok begun)
    simp only [inFrame, inner]

end Lawful

end LoopPlace

namespace Run

/-- The place of a loop in a run. A jump does not say which loop it is for; one that comes as far as
the loop is for it. -/
def loopPlace (room : Nat) : LoopPlace Exit where
  exhausted := .exhausted
  jump?
    | .jumped jump => some jump
    | _ => none
  evaluate fuel e := evaluate fuel room e
  around fuel s := execute fuel room s
  inside fuel s := execute fuel room s

theorem within_eq (frame : Nat) (x : Run α) : within frame x = inFrame frame x := by
  funext m
  simp only [within, inFrame]
  generalize x _ = r
  cases r <;> rfl

theorem continuing_eq (room : Nat) (x : Run Unit) : continuing x = (loopPlace room).continuing x := by
  funext m
  simp only [continuing, LoopPlace.continuing]
  generalize x m = r
  cases r with
  | ok a m' => rfl
  | error e m' =>
    cases e with
    | jumped jump => cases jump <;> rfl
    | _ => rfl

theorem executeAll_pair (fuel room : Nat) (s t : BoundStmt) :
    executeAll (fuel + 3) room [s, t] = (do execute (fuel + 2) room s; execute (fuel + 1) room t) := by
  show (do execute (fuel + 2) room s; execute (fuel + 1) room t; pure ()) = _
  rw [bind_pure_unit]

theorem goesOn_eq (room : Nat) (x : Run Unit) : goesOn x = (loopPlace room).goesOn x := by
  funext m
  simp only [goesOn, LoopPlace.goesOn]
  generalize x m = r
  cases r with
  | ok a m' => rfl
  | error e m' =>
    cases e with
    | jumped jump => cases jump <;> rfl
    | _ => rfl

theorem loopPlace_lawful (room : Nat) : (loopPlace room).Lawful where
  exhausted := rfl
  restoresValue fuel e := (Restoring.all fuel).evaluate room e
  restoresBody fuel s := (Restoring.all fuel).execute room s
  restoresInitial fuel s := (Restoring.all fuel).execute room s
  evaluate_zero _ := rfl
  inside_zero _ := rfl
  literal _ _ := rfl
  step fuel body increment := by
    show execute (fuel + 1) room (.step body increment) = _
    simp only [execute, within_eq, continuing_eq room]
    rfl
  pair fuel s t := by
    show execute (fuel + 3 + 1) room (.block [s, t]) = _
    rw [execute, executeAll_pair]
    simp only [within_eq]
    rfl
  while_one _ _ := rfl
  while_more fuel condition body := by
    show loop (fuel + 1) room condition body = _
    rw [loop_succ, goesOn_eq room]
    rfl

end Run

end Script
