import Mathlib.Data.List.Forall2
import Script.Proofs.Dialogue.Accepted
import Script.Proofs.Guarded.Evaluation

/-! Sessions under guard.
A session that is guarded shows and keeps what the session does: nothing that a guard would stop
happens in any step. -/
namespace Script

open Lexical Binding

/-- How a step with a source may end. Only a local that is not bound escapes, unless the fuel did
not last to the end. -/
inductive Outcome.Regular (source : String) : Outcome → Prop
  | finished : Outcome.Regular source .finished
  | rejected (reports : List Report) (wrong : Program.check source ≠ []) :
    Outcome.Regular source (.rejected reports)
  | failed (failure : Failure) : Outcome.Regular source (.failed failure)
  | unbound (key : String) : Outcome.Regular source (.escaped (.absent (.name key)))
  | unfinished : Outcome.Regular source (.escaped .exhausted)

namespace Dialogue

variable {d : TrackedDialogue}

/-- Whatever a session keeps from one step to the next is scoped. -/
theorem confined (h : d.Sound) : d.erase.machine.Confined where
  functions r c hc :=
    ⟨d.state.functionAt r, fun x hx => h.known x ((h.state.functions r c hc).code x hx)⟩
  classes r c hc :=
    ⟨(d.state.classAt r).class_.child 0, fun x hx => h.known x ((h.state.classes r c hc).code x hx)⟩

/-- At the top level there is no loop to jump in and no function to return from. -/
theorem runGuarded_eq (limits : Limits) {number : Nat} {program : List BoundStmt} {m : Machine}
    (confined : m.Confined) (nodes : ∀ x ∈ programNodes number program, Scoped x) :
    runGuarded limits program m = .ok (runBound limits program m) := by
  have ran := (Guards.all limits.fuel).executeAll limits.room 0 0 (.top number) program nodes
    (.top number) { m with output := "" } (confined.of_same rfl rfl)
  unfold runGuarded runBound
  generalize guarding.executeAll _ _ _ _ _ = r at ran ⊢
  generalize Run.executeAll _ _ _ _ = r' at ran ⊢
  cases ran with
  | ok kept => rfl
  | jumped kept innermost => cases innermost
  | returned kept inside => cases inside
  | quiet kept quiet =>
    cases quiet with
    | failed failure => rfl
    | absent absence => rfl
    | exhausted => rfl

-- without a loop around it a jump is stopped
example (m : Machine) : runGuarded ⟨1, 3⟩ [.jump .break_ 1] m = .error (.strayJump .break_) := rfl

theorem stepGuarded_eq (limits : Limits) (mode : CommandLine.Mode) (source : String) (h : d.Sound) :
    stepGuarded limits mode source d.erase =
      .ok (CommandLine.step limits mode source d.erase) := by
  cases mode with
  | tokens => rfl
  | run =>
    simp only [stepGuarded, CommandLine.step]
    split
    · rename_i checked
      have accepted := (Program.accepted_iff source).mp checked
      have nodes : ∀ x ∈ programNodes 0 (Program.code source), Scoped x :=
        bindProgram_scoped 0 _ (Program.plain source 0) accepted.bound
      rw [run_accepted accepted]
      show (runGuarded limits (Program.code source) d.erase.machine >>= _) = _
      rw [runGuarded_eq limits (confined h) nodes, runBound_eq]
      rfl
    · rfl

theorem outcomeOf_ne_rejected (r : EStateM.Result Exit Machine Unit) (reports : List Report) :
    outcomeOf r ≠ .rejected reports := by
  cases r with
  | ok a m => exact nofun
  | error e m => cases e <;> exact nofun

/-- An accepted source is never rejected. -/
theorem check_of_rejected {limits : Limits} {mode : CommandLine.Mode} {source : String}
    {d : Dialogue} {reports : List Report}
    (h : (CommandLine.step limits mode source d).1.outcome = .rejected reports) :
    Program.check source ≠ [] := by
  intro checked
  have accepted := (Program.accepted_iff source).mp checked
  cases mode with
  | run =>
    simp only [CommandLine.step, run_accepted accepted] at h
    exact outcomeOf_ne_rejected _ reports h
  | tokens =>
    simp only [CommandLine.step, listTokens, accepted.scanned] at h
    cases h

theorem step_regular (limits : Limits) (mode : CommandLine.Mode) (source : String) (h : d.Sound) :
    (CommandLine.step limits mode source d.erase).1.outcome.Regular source := by
  obtain ⟨same, answered⟩ := TrackedDialogue.step_answered limits mode source h
  have known := answered.outcome
  rw [← congrArg Prod.fst same] at known
  rcases known with finished | ⟨reports, rejected⟩ | ⟨failure, failed⟩ | unfinished | ⟨key, unbound⟩
  · rw [finished]
    exact .finished
  · rw [rejected]
    exact .rejected reports (check_of_rejected rejected)
  · rw [failed]
    exact .failed failure
  · rw [unfinished]
    exact .unfinished
  · rw [unbound]
    exact .unbound key

theorem converseGuarded_eq (limits : Limits) (steps : List (CommandLine.Mode × String))
    (h : d.Sound) :
    converseGuarded limits steps d.erase = .ok (converse limits steps d.erase) ∧
      List.Forall₂ (fun step shown => shown.outcome.Regular step.2) steps
        (converse limits steps d.erase).1 := by
  induction steps generalizing d with
  | nil => exact ⟨rfl, .nil⟩
  | cons step rest ih =>
    obtain ⟨mode, source⟩ := step
    obtain ⟨erased, answered⟩ := TrackedDialogue.step_answered limits mode source h
    have regular := step_regular limits mode source h
    have guarded := stepGuarded_eq limits mode source h
    rw [erased] at regular guarded
    obtain ⟨others, regulars⟩ := ih answered.sound
    simp only [converseGuarded, converse, erased]
    rw [guarded]
    refine ⟨?_, .cons regular regulars⟩
    show (converseGuarded limits rest _ >>= _) = _
    rw [others]
    rfl

/-- No jump leaves the function it stands in, no value is returned but to the innermost call, and no
argument, part, quotient or conversion is missing, whatever is run in a session. -/
theorem converse_guarded (limits : Limits) (clock : Nat → Float)
    (steps : List (CommandLine.Mode × String)) :
    converseGuarded limits steps (.initial clock) = .ok (converse limits steps (.initial clock)) ∧
      List.Forall₂ (fun step shown => shown.outcome.Regular step.2) steps
        (converse limits steps (.initial clock)).1 :=
  converseGuarded_eq limits steps (TrackedDialogue.initial_sound clock)

end Dialogue

end Script
