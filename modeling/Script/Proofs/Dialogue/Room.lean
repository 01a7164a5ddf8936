import Script.Proofs.Dialogue.Environment
import Script.Proofs.Dialogue.Joining
import Script.Proofs.Running.Room

/-! Steps with more room.
How deep calls may be nested is only noticed by a step that fails for it. -/
namespace Script

namespace Step

/-- The step failed because calls were nested too deep. -/
def Overflown (s : Step) : Prop := ∃ line, s.outcome = .failed ⟨.stackOverflow, line⟩

/-- It is not the fuel that ends the step. -/
def Ended (s : Step) : Prop := s.outcome ≠ .escaped .exhausted

end Step

namespace Dialogue

open CommandLine (Mode)

theorem shownBy_overflown {r : EStateM.Result Exit Machine Unit} :
    (shownBy r).Overflown ↔ Run.Overflown r := by
  constructor
  · rintro ⟨line, failed⟩
    cases r with
    | ok a m => cases failed
    | error e m =>
      cases e with
      | failed failure =>
        cases failed
        exact ⟨line, m, rfl⟩
      | _ => cases failed
  · rintro ⟨line, m, rfl⟩
    exact ⟨line, rfl⟩

theorem step_limits (limits limits' : Limits) {s : CommandLine.Mode × String} (h : Invisible s)
    (d : Dialogue) : CommandLine.step limits s.1 s.2 d = CommandLine.step limits' s.1 s.2 d := by
  obtain ⟨shown, occurrences, same⟩ := step_of_invisible h d
  rw [same, same]

variable {room room' fuel fuel' : Nat} {mode : Mode} {source : String} {d : Dialogue}

/-- A step that ends does so with more fuel too. -/
theorem step_lasts (ended : (CommandLine.step ⟨room, fuel⟩ mode source d).1.Ended)
    (more : fuel ≤ fuel') : CommandLine.step ⟨room, fuel'⟩ mode source d =
      CommandLine.step ⟨room, fuel⟩ mode source d := by
  rcases invisible_or_accepted mode source with invisible | ⟨rfl, accepted⟩
  · exact step_limits _ _ invisible d
  · simp only [CommandLine.step, run_accepted accepted] at ended ⊢
    rw [Run.executeAll_lasts rfl (outcomeOf_exhausted.mp ended) more]

/-- With any fuel that is not the cause of its end, a step ends as it does with other such fuel. -/
theorem step_same (ended : (CommandLine.step ⟨room, fuel⟩ mode source d).1.Ended)
    (enough : fuel ≤ fuel' ∨ (CommandLine.step ⟨room, fuel'⟩ mode source d).1.Ended) :
    CommandLine.step ⟨room, fuel'⟩ mode source d = CommandLine.step ⟨room, fuel⟩ mode source d := by
  rcases enough with more | ended'
  · exact step_lasts ended more
  · exact (step_lasts ended' (Nat.le_max_right fuel fuel')).symm.trans
      (step_lasts ended (Nat.le_max_left fuel fuel'))

/-- A step with more room and the same fuel. -/
theorem step_outgrows (more : room ≤ room') :
    CommandLine.step ⟨room', fuel⟩ mode source d = CommandLine.step ⟨room, fuel⟩ mode source d ∨
    (CommandLine.step ⟨room, fuel⟩ mode source d).1.Overflown ∧
      ∃ rest, (CommandLine.step ⟨room', fuel⟩ mode source d).1.output =
        (CommandLine.step ⟨room, fuel⟩ mode source d).1.output ++ rest := by
  rcases invisible_or_accepted mode source with invisible | ⟨rfl, accepted⟩
  · exact .inl (step_limits _ _ invisible d)
  · simp only [CommandLine.step, run_accepted accepted]
    rcases ((Run.Growing.all fuel).executeAll more _ d.begun).agrees with same | ⟨overflown, first⟩
    · rw [same]
      exact .inl rfl
    · rw [← machineOf_eq, ← machineOf_eq] at first
      exact .inr ⟨shownBy_overflown.mpr overflown, first⟩

/-- A step that fails for want of room is not out of fuel, so with more of that it fails so too. -/
theorem output_of_overflown (more : room ≤ room') (longer : fuel ≤ fuel')
    (failing : (CommandLine.step ⟨room, fuel⟩ mode source d).1.Overflown) :
    ∃ rest, (CommandLine.step ⟨room', fuel'⟩ mode source d).1.output =
      (CommandLine.step ⟨room, fuel⟩ mode source d).1.output ++ rest := by
  have ended : (CommandLine.step ⟨room, fuel⟩ mode source d).1.Ended := by
    obtain ⟨line, failed⟩ := failing
    rw [Step.Ended, failed]
    nofun
  rw [← step_lasts ended longer]
  rcases step_outgrows more with same | ⟨-, first⟩
  · exact ⟨"", by rw [same, String.append_empty]⟩
  · exact first

/-- A step from any state, with some room and with more. If it does not fail because calls are
nested too deep, it shows and leaves with more room exactly what it does with less: with the same
fuel, whether or not that is what ends it, and if it is not, with any other fuel that suffices. If it
does fail for that, then with more room all that it printed is printed first, in the same order. -/
theorem room_unnoticed (more : room ≤ room') (mode : Mode) (source : String) (d : Dialogue)
    (fuel : Nat) :
    (¬ (CommandLine.step ⟨room, fuel⟩ mode source d).1.Overflown →
      CommandLine.step ⟨room', fuel⟩ mode source d = CommandLine.step ⟨room, fuel⟩ mode source d ∧
      ((CommandLine.step ⟨room, fuel⟩ mode source d).1.Ended → ∀ fuel',
        fuel ≤ fuel' ∨ (CommandLine.step ⟨room', fuel'⟩ mode source d).1.Ended →
        CommandLine.step ⟨room', fuel'⟩ mode source d =
          CommandLine.step ⟨room, fuel⟩ mode source d)) ∧
    ((CommandLine.step ⟨room, fuel⟩ mode source d).1.Overflown → ∀ fuel',
      fuel ≤ fuel' ∨ (CommandLine.step ⟨room', fuel'⟩ mode source d).1.Ended →
      ∃ rest, (CommandLine.step ⟨room', fuel'⟩ mode source d).1.output =
        (CommandLine.step ⟨room, fuel⟩ mode source d).1.output ++ rest) := by
  constructor
  · intro unfailing
    have same : CommandLine.step ⟨room', fuel⟩ mode source d =
        CommandLine.step ⟨room, fuel⟩ mode source d :=
      (step_outgrows more).resolve_right fun failing => unfailing failing.1
    refine ⟨same, fun ended fuel' enough => ?_⟩
    rw [← same] at ended ⊢
    exact step_same ended enough
  · intro failing fuel' enough
    rcases enough with longer | ended
    · exact output_of_overflown more longer failing
    · rw [← step_lasts ended (Nat.le_max_right fuel fuel')]
      exact output_of_overflown more (Nat.le_max_left fuel fuel') failing

def nesting : String := "fun f() \x7b print nil; \x7d f();"
def nestingOn : String := "fun f() \x7b print nil; f(); \x7d f();"

theorem room_unnoticed_nesting :
    (CommandLine.step ⟨3, 50⟩ .run nesting (.initial fun _ => 0)).1 = ⟨.finished, "none\n"⟩ ∧
      ∃ rest, (CommandLine.step ⟨3, 50⟩ .run nestingOn (.initial fun _ => 0)).1.output =
        "none\nnone\n" ++ rest := by
  have ended : (CommandLine.step ⟨1, 20⟩ .run nesting (.initial fun _ => 0)).1 =
      ⟨.finished, "none\n"⟩ := by decide +kernel
  have failed : (CommandLine.step ⟨2, 20⟩ .run nestingOn (.initial fun _ => 0)).1 =
      ⟨.failed ⟨.stackOverflow, 1⟩, "none\nnone\n"⟩ := by decide +kernel
  have same := ((room_unnoticed (by decide : 1 ≤ 3) .run nesting (.initial fun _ => 0) 20).1
    (by rw [ended]; nofun)).2 (by rw [ended]; nofun) 50 (.inl (by decide))
  have first := (room_unnoticed (by decide : 2 ≤ 3) .run nestingOn (.initial fun _ => 0) 20).2
    (by rw [failed]; exact ⟨1, rfl⟩) 50 (.inl (by decide))
  rw [failed] at first
  exact ⟨(congrArg Prod.fst same).trans ended, first⟩

end Dialogue

end Script
