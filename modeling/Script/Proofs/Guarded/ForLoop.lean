import Script.Proofs.Grammar.Deriving
import Script.Proofs.Guarded.Leaving
import Script.Proofs.Lexical.Forgetting
import Script.Proofs.Running.ForLoop

/-! What a `for` loop means in a run and in a guarded run.
A guarded run says of every jump which loop it is for, so that there the increment of a loop follows
a jump for this very loop only. -/
namespace Script.GuardedRun

variable {α : Type}

/-- The place of a loop with so many calls and loops around it. Its number is that of the loops. -/
def loopPlace (room calls loops : Nat) : LoopPlace GuardedExit where
  exhausted := .exhausted
  jump?
    | .jumped jump call loop => if call = calls ∧ loop = loops then some jump else none
    | _ => none
  evaluate fuel e := guarding.evaluate fuel room ⟨calls, 0⟩ e
  around fuel s := guarding.execute fuel room ⟨calls, loops⟩ s
  inside fuel s := guarding.execute fuel room ⟨calls, loops + 1⟩ s

theorem within_eq (frame : Nat) (x : GuardedRun α) : guarding.within frame x = inFrame frame x := by
  funext m
  simp only [Instrument.within, guarding, inFrame]
  generalize x _ = r
  cases r <;> rfl

/-- The jumps that an exit may be for a loop, in the count of the loops inside of it. -/
theorem jump?_eq (room calls loops : Nat) :
    guarding.jump? ⟨calls, loops + 1⟩ = (loopPlace room calls loops).jump? := by
  funext e
  cases e with
  | jumped jump call loop => simp only [guarding, loopPlace, Nat.add_right_cancel_iff]
  | _ => rfl

theorem continuing_eq (room calls loops : Nat) (x : GuardedRun Unit) :
    guarding.continuing ⟨calls, loops + 1⟩ x = (loopPlace room calls loops).continuing x := by
  funext m
  simp only [Instrument.continuing, jump?_eq room, LoopPlace.continuing]
  generalize x m = r
  cases r with
  | ok a m' => rfl
  | error e m' =>
    simp only
    cases (loopPlace room calls loops).jump? e with
    | none => rfl
    | some jump => cases jump <;> rfl

theorem goesOn_eq (room calls loops : Nat) (x : GuardedRun Unit) :
    guarding.goesOn ⟨calls, loops + 1⟩ x = (loopPlace room calls loops).goesOn x := by
  funext m
  cases hx : x m with
  | ok a m' => simp only [Instrument.goesOn, LoopPlace.goesOn, hx]
  | error e m' =>
    cases hj : (loopPlace room calls loops).jump? e with
    | none => simp only [Instrument.goesOn, LoopPlace.goesOn, hx, jump?_eq room, hj]
    | some jump =>
      cases jump <;> simp only [Instrument.goesOn, LoopPlace.goesOn, hx, jump?_eq room, hj]

theorem executeAll_pair (fuel room calls loops : Nat) (s t : BoundStmt) :
    guarding.executeAll (fuel + 3) room ⟨calls, loops⟩ [s, t] = (do
      guarding.execute (fuel + 2) room ⟨calls, loops⟩ s
      guarding.execute (fuel + 1) room ⟨calls, loops⟩ t) := by
  show (do
    guarding.execute (fuel + 2) room ⟨calls, loops⟩ s
    guarding.execute (fuel + 1) room ⟨calls, loops⟩ t
    pure ()) = _
  rw [bind_pure_unit]

theorem loopPlace_lawful (room calls loops : Nat) : (loopPlace room calls loops).Lawful where
  exhausted := rfl
  restoresValue fuel e := ((Leaving.all fuel).evaluate room calls e).restores
  restoresBody fuel s := ((Leaving.all fuel).execute room calls (loops + 1) s).restores
  restoresInitial fuel s := ((Leaving.all fuel).execute room calls loops s).restores
  evaluate_zero _ := rfl
  inside_zero _ := rfl
  literal _ _ := rfl
  step fuel body increment := by
    show (do
      let scope ← openScope (← currentScope)
      guarding.within scope do
        guarding.continuing ⟨calls, loops + 1⟩ (guarding.execute fuel room ⟨calls, loops + 1⟩ body)
        let _ ← guarding.evaluate fuel room ⟨calls, 0⟩ increment
        pure ()) = _
    simp only [within_eq, continuing_eq room]
    exact rfl
  pair fuel s t := by
    show (do
      let scope ← openScope (← currentScope)
      guarding.within scope (guarding.executeAll (fuel + 3) room ⟨calls, loops⟩ [s, t])) = _
    simp only [within_eq, executeAll_pair]
    rfl
  while_one _ _ := rfl
  while_more fuel condition body := by
    show guarding.loop (fuel + 1) room ⟨calls, loops⟩ condition body = _
    simp only [← goesOn_eq]
    rfl

end Script.GuardedRun

namespace Script

open Lexical Binding

/-- What of a bound statement is a `for` loop of these clauses once its sites are forgotten. -/
def BoundLoop (initial : Option RawStmt) (condition increment : Option RawExpr) (body : RawStmt)
    (s : BoundStmt) : Prop :=
  ∃ initial' condition' increment' body',
    s = Stmt.forLoop initial' condition' increment' body' ∧
    initial'.map (translateStmt .identity unsited) = initial ∧
    condition'.map (translateExpr .identity unsited) = condition ∧
    increment'.map (translateExpr .identity unsited) = increment ∧
    translateStmt .identity unsited body' = body

theorem bindRound_gives (increment : Option RawExpr) (body : RawStmt) :
    Gives (bindStmt (LoopPlace.roundBody increment body)) fun s => ∃ increment' body',
      s = LoopPlace.roundBody increment' body' ∧
      increment'.map (translateExpr .identity unsited) = increment ∧
      translateStmt .identity unsited body' = body := by
  cases increment with
  | none => exact fun s => ⟨none, _, rfl, rfl, bindStmt_gives body s⟩
  | some e =>
    exact Gives.inScope ((bindStmt_gives body).bind fun body' hb =>
      (bindExpr_gives e).bind fun increment' he =>
        .pure ⟨some increment', body', rfl, congrArg some he, hb⟩)

theorem bindCondition_gives (condition : Option RawExpr) :
    Gives (bindExpr (condition.getD (.literal (.bool true)))) fun e => ∃ condition',
      e = condition'.getD (.literal (.bool true)) ∧
      Option.map (translateExpr .identity unsited) condition' = condition := by
  cases condition with
  | none => exact .pure ⟨none, rfl, rfl⟩
  | some c => exact fun s => ⟨some _, rfl, congrArg some (bindExpr_gives c s)⟩

/-- A loop as it is read is bound to a loop of the same clauses. -/
theorem bindStmt_forLoop (initial : Option RawStmt) (condition increment : Option RawExpr)
    (body : RawStmt) :
    Gives (bindStmt (Stmt.forLoop initial condition increment body))
      (BoundLoop initial condition increment body) := by
  have loop : Gives (bindStmt (Stmt.forLoop none condition increment body))
      (BoundLoop none condition increment body) := by
    rw [LoopPlace.forLoop_none]
    refine (bindCondition_gives condition).bind fun _ ⟨condition', hc, sameCondition⟩ => ?_
    refine (bindRound_gives increment body).inLoop.bind fun _ ⟨increment', body', hr, sameRound⟩ => ?_
    refine .pure ⟨none, condition', increment', body', ?_, rfl, sameCondition, sameRound⟩
    rw [hc, hr, LoopPlace.forLoop_none]
  cases initial with
  | none => exact loop
  | some s =>
    have both : Gives (bindStmts [s, Stmt.forLoop none condition increment body]) fun ss =>
        ∃ s' t, ss = [s', t] ∧ translateStmt .identity unsited s' = s ∧
          BoundLoop none condition increment body t :=
      (bindStmt_gives s).bind fun s' hs => Gives.bind
        (loop.bind fun t ht => .pure (P := fun ts => ∃ t, ts = [t] ∧ _) ⟨t, rfl, ht⟩)
        fun _ ⟨t, hts, ht⟩ => .pure ⟨s', t, congrArg _ hts, hs, ht⟩
    refine both.inScope.bind fun _ ⟨s', t, hss, hs, bound⟩ => ?_
    obtain ⟨absent, condition', increment', body', ht, nothing, same⟩ := bound
    refine .pure ⟨some s', condition', increment', body', ?_, congrArg some hs, same⟩
    rw [hss, ht, Option.map_eq_none_iff.mp nothing]
    rfl

/-- What is read behind the keyword of a `for` loop is the loop of clauses and a body that the tokens
taken are by the productions of the grammar, and a loop is bound to one of the same clauses and body.
However a loop of bound parts is run, and from whatever machine, it does what a
loop means, and as much of it as the fuel allows; so a run that does not end is covered. In a guarded
run a jump that leaves the body is for this loop, and there comes none out of a loop in the body, nor
out of an expression. -/
theorem forLoop_means :
    (∀ fuel (r r' : Grammar.Reader) s, Grammar.forStatement fuel r = .ok s r' →
      ∃ ts, r.rest = ts ++ r'.rest ∧ ∃ initial condition increment body,
        s = Stmt.forLoop initial condition increment body ∧
        ∀ us, Grammar.One (.keyword .for_) us →
          Grammar.Derives (.forLoop initial condition increment body) (us ++ ts)) ∧
    (∀ initial condition increment body (c : Context),
      BoundLoop initial condition increment body
        ((bindStmt (Stmt.forLoop initial condition increment body)).run c).1) ∧
    (∀ fuel room initial condition increment body,
      Run.execute (fuel + if initial.isSome then 4 else 1) room
          (Stmt.forLoop initial condition increment body) =
        (Run.loopPlace room).forLoop fuel initial condition increment body) ∧
    (∀ fuel room calls loops initial condition increment body,
      guarding.execute (fuel + if initial.isSome then 4 else 1) room ⟨calls, loops⟩
          (Stmt.forLoop initial condition increment body) =
        (GuardedRun.loopPlace room calls loops).forLoop fuel initial condition increment body) ∧
    (∀ fuel room calls loops body m jump call loop m',
      guarding.execute fuel room ⟨calls, loops + 1⟩ body m = .error (.jumped jump call loop) m' →
        call = calls ∧ loop = loops) ∧
    (∀ fuel room calls loops condition body m jump call loop m',
      guarding.execute fuel room ⟨calls, loops⟩ (.while_ condition body) m ≠
        .error (.jumped jump call loop) m') ∧
    (∀ fuel room calls e m jump call loop m',
      guarding.evaluate fuel room ⟨calls, 0⟩ e m ≠ .error (.jumped jump call loop) m') := by
  refine ⟨?read, bindStmt_forLoop, ?plain, ?guarded, ?body, ?inner, ?expression⟩
  case read =>
    exact fun fuel r r' s read => (Grammar.derivings fuel).forStatement r s r' trivial read
  case plain =>
    intro fuel room initial condition increment body
    exact (Run.loopPlace_lawful room).forLoop_eq fuel initial condition increment body
  case guarded =>
    intro fuel room calls loops initial condition increment body
    exact (GuardedRun.loopPlace_lawful room calls loops).forLoop_eq fuel initial condition increment
      body
  case body =>
    intro fuel room calls loops body m jump call loop m' jumped
    have left := (GuardedRun.Leaving.all fuel).execute room calls (loops + 1) body m
    rw [jumped] at left
    exact ⟨left.target.1, Nat.succ.inj left.target.2⟩
  case inner =>
    intro fuel room calls loops condition body m jump call loop m' jumped
    cases fuel with
    | zero => cases jumped
    | succ fuel =>
      have left : Left calls 0 m.current (guarding.execute (fuel + 1) room ⟨calls, loops⟩
          (.while_ condition body) m) :=
        (GuardedRun.Leaving.all fuel).loop room calls loops condition body m
      rw [jumped] at left
      exact absurd left.target.2 (Nat.succ_ne_zero loop)
  case expression =>
    intro fuel room calls e m jump call loop m' jumped
    have left := (GuardedRun.Leaving.all fuel).evaluate room calls e m
    rw [jumped] at left
    exact absurd left.target.2 (Nat.succ_ne_zero loop)

end Script
