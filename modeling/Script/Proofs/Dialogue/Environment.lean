import Script.Proofs.Dialogue.Accepted
import Script.Proofs.Running.Grounded

/-! The environment between the steps of a session.
Whatever a step does and however it ends, the frame that was current before it is current again, and
every frame there was is still there with its link and its names. -/
namespace Script

/-- What a run may leave of a machine. -/
structure Machine.Left (m m' : Machine) : Prop extends m.Kept m' where
  current : m'.current = m.current

namespace Machine.Left

variable {m m' m'' : Machine}

theorem refl (m : Machine) : m.Left m := ⟨.refl m, rfl⟩

theorem trans (h : m.Left m') (h' : m'.Left m'') : m.Left m'' :=
  ⟨h.toKept.trans h'.toKept, h'.current.trans h.current⟩

end Machine.Left

namespace Run

variable (fuel room : Nat) (m : Machine)

theorem evaluate_left (e : BoundExpr) : m.Left (endState (evaluate fuel room e m)) :=
  ⟨(Keeping.all fuel).evaluate room e m, (Restoring.all fuel).evaluate room e m⟩

theorem execute_left (s : BoundStmt) : m.Left (endState (execute fuel room s m)) :=
  ⟨(Keeping.all fuel).execute room s m, (Restoring.all fuel).execute room s m⟩

theorem executeAll_left (ss : List BoundStmt) : m.Left (endState (executeAll fuel room ss m)) :=
  ⟨(Keeping.all fuel).executeAll room ss m, (Restoring.all fuel).executeAll room ss m⟩

end Run

namespace Dialogue

theorem machineOf_eq (r : EStateM.Result Exit Machine Unit) : machineOf r = endState r := by
  cases r <;> rfl

theorem step_left (limits : Limits) (s : CommandLine.Mode × String) (d : Dialogue) :
    d.machine.Left (CommandLine.step limits s.1 s.2 d).2.machine := by
  by_cases h : Invisible s
  · rw [machine_of_invisible limits h]
    exact .refl _
  · obtain ⟨mode, source⟩ := s
    cases mode with
    | tokens => exact absurd (.inl rfl) h
    | run =>
      have right : Program.check source = [] := Decidable.not_not.mp fun wrong => h (.inr wrong)
      simp only [CommandLine.step, run_accepted ((Program.accepted_iff source).mp right),
        machineOf_eq]
      -- a step begins by forgetting what was printed
      have begun : d.machine.Left d.begun := ⟨.of_same rfl rfl rfl rfl, rfl⟩
      exact begun.trans (Run.executeAll_left limits.fuel limits.room d.begun _)

theorem converse_left (limits : Limits) (steps : List (CommandLine.Mode × String))
    (d : Dialogue) : d.machine.Left (converse limits steps d).2.machine := by
  induction steps generalizing d with
  | nil => exact .refl _
  | cons s rest ih =>
    obtain ⟨mode, source⟩ := s
    exact (step_left limits (mode, source) d).trans (ih _)

theorem converse_grounded (limits : Limits) (steps : List (CommandLine.Mode × String))
    (clock : Nat → Float) : (converse limits steps (initial clock)).2.machine.Grounded :=
  (converse_left limits steps (initial clock)).grounded (Machine.grounded_initial clock)

/-- However the execution of an expression or of statements ends, the frame that was current is
current again, no frame is removed, no link is changed and no name unbound, and frames that lead to
the globals still do. So a session is always back in the globals between its steps. -/
theorem environment_restored :
    (∀ fuel room e (m : Machine), m.Left (endState (Run.evaluate fuel room e m))) ∧
    (∀ fuel room s (m : Machine), m.Left (endState (Run.execute fuel room s m))) ∧
    (∀ fuel room ss (m : Machine), m.Left (endState (Run.executeAll fuel room ss m))) ∧
    (∀ limits steps (d : Dialogue), d.machine.Left (converse limits steps d).2.machine) ∧
    (∀ limits steps clock,
      (converse limits steps (initial clock)).2.machine.current = Machine.globals ∧
      (converse limits steps (initial clock)).2.machine.Grounded) := by
  refine ⟨fun fuel room e m => Run.evaluate_left fuel room m e,
    fun fuel room s m => Run.execute_left fuel room m s,
    fun fuel room ss m => Run.executeAll_left fuel room m ss,
    fun limits steps d => converse_left limits steps d, fun limits steps clock => ⟨?_, ?_⟩⟩
  · exact (converse_left limits steps (initial clock)).current
  · exact converse_grounded limits steps clock

end Dialogue

end Script
