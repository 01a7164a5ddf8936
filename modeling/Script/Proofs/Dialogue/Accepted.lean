import Script.CommandLine
import Script.Proofs.Tracking.Session

/-! Sources that nothing is wrong with.
A step runs the program of its source only if no phase complains of it, and then the step shows how
that run ends. -/
namespace Script

open Lexical Grammar Binding Source

namespace Program

/-- What is bound and run of a source. -/
def code (source : String) : List BoundStmt := (ofSource source).bound.statements

/-- Nothing is wrong with a source, in any phase. -/
structure Accepted (source : String) : Prop where
  scanned : (scan source).reports = []
  read : (readProgram (scan source).tokens (scan source).endLine).reports = []
  bound : (ofSource source).bound.reports = []

theorem accepted_iff (source : String) : check source = [] ↔ Accepted source := by
  simp only [check]
  constructor
  · intro h
    split at h
    · rename_i hr
      have none := @Report.eq_nil_of_merge [] _ (List.isEmpty_iff.mp hr)
      exact ⟨(List.append_eq_nil_iff.mp none).1, (List.append_eq_nil_iff.mp none).2, h⟩
    · rename_i hr
      exact absurd (List.isEmpty_iff.mpr h) hr
  · intro h
    have none : (ofSource source).reports = [] := by
      show Report.byLine (_ ++ _) = []
      rw [h.scanned, h.read]
      rfl
    rw [if_pos (List.isEmpty_iff.mpr none)]
    exact h.bound

theorem plain (source : String) (n : Nat) :
    ∀ x ∈ programNodes n (ofSource source).statements, x.2.Plain :=
  (readProgram_held _ _ ⟨"", 0⟩).plain (.top n)

end Program

namespace Dialogue

def machineOf : EStateM.Result Exit Machine Unit → Machine
  | .ok _ m => m
  | .error _ m => m

def outcomeOf : EStateM.Result Exit Machine Unit → Outcome
  | .ok _ _ => .finished
  | .error e _ => .ofExit e

/-- What a run shows. -/
def shownBy (r : EStateM.Result Exit Machine Unit) : Step := ⟨outcomeOf r, (machineOf r).output⟩

def begun (d : Dialogue) : Machine := { d.machine with output := "" }

theorem runBound_eq (limits : Limits) (program : List BoundStmt) (d : Dialogue) :
    runBound limits program d.machine =
      (outcomeOf (Run.executeAll limits.fuel limits.room program d.begun),
        machineOf (Run.executeAll limits.fuel limits.room program d.begun)) := by
  unfold runBound begun
  cases Run.executeAll limits.fuel limits.room program { d.machine with output := "" } <;> rfl

theorem run_accepted {source : String} (h : Program.Accepted source) (limits : Limits)
    (d : Dialogue) : run limits source d =
      (shownBy (Run.executeAll limits.fuel limits.room (Program.code source) d.begun),
        ⟨machineOf (Run.executeAll limits.fuel limits.room (Program.code source) d.begun),
          d.occurrences + (Program.ofSource source).bound.occurrences.length⟩) := by
  have bound : (bindProgram
      (readProgram (scan source).tokens (scan source).endLine).statements).reports = [] := h.bound
  simp only [run, h.scanned, h.read, bound]
  exact congrArg (fun r : Outcome × Machine => ((⟨r.1, r.2.output⟩ : Step),
    (⟨r.2, d.occurrences + (Program.ofSource source).bound.occurrences.length⟩ : Dialogue)))
    (runBound_eq limits (Program.code source) d)

def Invisible (s : CommandLine.Mode × String) : Prop := s.1 = .tokens ∨ Program.check s.2 ≠ []

theorem merge_eq_nil {found more : List Report} (h : Report.merge found more = []) :
    found = [] ∧ more = [] :=
  List.append_eq_nil_iff.mp (@Report.eq_nil_of_merge [] (found ++ more) h)

/-- What such a step shows hangs on no limits, and at most it counts uses. -/
theorem step_of_invisible {s : CommandLine.Mode × String} (h : Invisible s) (d : Dialogue) :
    ∃ shown occurrences, ∀ limits, CommandLine.step limits s.1 s.2 d =
      (shown, { d with occurrences := occurrences }) := by
  obtain ⟨mode, source⟩ := s
  cases mode with
  | tokens => exact ⟨_, _, fun _ => rfl⟩
  | run =>
    have wrong : Program.check source ≠ [] := h.resolve_left nofun
    simp only [CommandLine.step, run]
    split
    · exact ⟨_, _, fun _ => rfl⟩
    · rename_i read
      split
      · exact ⟨_, _, fun _ => rfl⟩
      · rename_i bound
        rw [Bool.not_eq_true, Bool.not_eq_false', List.isEmpty_iff] at read bound
        obtain ⟨scanned, read⟩ := merge_eq_nil read
        exact absurd ((Program.accepted_iff source).mpr
          ⟨(merge_eq_nil scanned).2, read, (merge_eq_nil bound).2⟩) wrong

theorem machine_of_invisible (limits : Limits) {s : CommandLine.Mode × String} (h : Invisible s)
    (d : Dialogue) : (CommandLine.step limits s.1 s.2 d).2.machine = d.machine := by
  obtain ⟨shown, occurrences, same⟩ := step_of_invisible h d
  rw [same]

theorem invisible_or_accepted (mode : CommandLine.Mode) (source : String) :
    Invisible (mode, source) ∨ mode = .run ∧ Program.Accepted source := by
  cases mode with
  | tokens => exact .inl (.inl rfl)
  | run =>
    by_cases right : Program.check source = []
    · exact .inr ⟨rfl, (Program.accepted_iff source).mp right⟩
    · exact .inl (.inr right)

/-- What was bound before counts for nothing. -/
theorem step_occurrences (limits : Limits) (s : CommandLine.Mode × String) (d d' : Dialogue)
    (same : d.machine = d'.machine) :
    (CommandLine.step limits s.1 s.2 d).1 = (CommandLine.step limits s.1 s.2 d').1 ∧
      (CommandLine.step limits s.1 s.2 d).2.machine =
        (CommandLine.step limits s.1 s.2 d').2.machine := by
  obtain ⟨mode, source⟩ := s
  cases mode with
  | tokens => exact ⟨rfl, same⟩
  | run =>
    simp only [CommandLine.step, run, same]
    split
    · exact ⟨rfl, same⟩
    · split
      · exact ⟨rfl, rfl⟩
      · exact ⟨rfl, rfl⟩

theorem globals_eq {d d' : Dialogue} (same : d.machine = d'.machine) : d.globals = d'.globals := by
  unfold globals
  rw [same]

end Dialogue

end Script
