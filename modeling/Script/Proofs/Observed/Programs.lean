import Script.Proofs.Dialogue.Accepted
import Script.Proofs.Lexical.Sites
import Script.Proofs.Observed.Evaluation
import Script.Proofs.Source.Tokens

/-! Programs that observed runs are of.
Of a program that was accepted it is known that it is scoped, that it declares no instance, and what
the scopes around its uses contain. -/
namespace Script

open Lexical Grammar Binding Source

structure AcceptedNode (x : Position × Node Site) : Prop where
  isScoped : Scoped x
  usual : Node.Usual x
  seen : Seen x

theorem Lexical.Scoped.resolved {x : Position × Node Site} (h : Scoped x) : Resolved x := by
  obtain ⟨p, node⟩ := x
  intro use name site isUse
  replace isUse : node.use? = _ := isUse
  unfold Node.use? at isUse
  split at isUse <;> cases isUse
  · rw [if_neg fun hc => Use.noConfusion hc.1]
    exact h
  · rw [if_neg fun hc => Use.noConfusion hc.1]
    exact h
  · rw [if_neg fun hc => Bool.noConfusion (h.1.symm.trans hc.2)]
    exact h.2

theorem AcceptedNode.sited {x : Position × Node Site} (h : AcceptedNode x) : Sited x :=
  h.isScoped.resolved.sited h.seen

theorem Program.Accepted.nodes {source : String} (h : Program.Accepted source) (number : Nat) :
    ∀ x ∈ programNodes number (Program.code source), AcceptedNode x := by
  have isScoped := bindProgram_scoped number _ (Program.plain source number) h.bound
  have usual := usual_of_read_numbered number (scan source).tokens (scan source).endLine
    fun t => scan_names source t
  have seen := programNodes_seen number (Program.code source) usual
  exact fun x hx => ⟨isScoped x hx, usual x hx, seen x hx⟩

variable {χ κ : Type}

namespace Observed

/-- A step under an observer. Where nothing is run there is nothing to observe. -/
def step (o : Observer χ κ) (limits : Limits) (s : CommandLine.Mode × String) (t : Observed χ κ) :
    Step × Observed χ κ :=
  if s.1 = .run ∧ Program.check s.2 = [] then
    let (outcome, t) := ObservedRun.runBound o limits o.nowhere (Program.code s.2) t
    (⟨outcome, t.machine.output⟩, t)
  else ((CommandLine.step limits s.1 s.2 ⟨t.machine, 0⟩).1, t)

def converse (o : Observer χ κ) (limits : Limits) :
    List (CommandLine.Mode × String) → Observed χ κ → List Step × Observed χ κ
  | [], t => ([], t)
  | s :: rest, t =>
    let (shown, t) := step o limits s t
    let (others, ended) := converse o limits rest t
    (shown :: others, ended)

end Observed

namespace Upkeep

variable {o : Observer χ κ} {K : Upkeep o} {t : Observed χ κ} {d : Dialogue}

structure AtTop (K : Upkeep o) (t : Observed χ κ) : Prop where
  sound : K.Sound t
  here : K.Here o.nowhere (.top 0) t

theorem step_eq (good : ∀ x, AcceptedNode x → K.Good x) (limits : Limits)
    (s : CommandLine.Mode × String) (h : K.AtTop t) (same : d.machine = t.machine) :
    (CommandLine.step limits s.1 s.2 d).1 = (t.step o limits s).1 ∧
      (CommandLine.step limits s.1 s.2 d).2.machine = (t.step o limits s).2.machine ∧
      K.AtTop (t.step o limits s).2 := by
  unfold Observed.step
  by_cases run : s.1 = .run ∧ Program.check s.2 = []
  · have accepted := (Program.accepted_iff s.2).mp run.2
    obtain ⟨ran, sound, later, back⟩ := runBound_eq limits h.sound h.here
      fun x hx => good x (accepted.nodes 0 x hx)
    rw [← same, Dialogue.runBound_eq] at ran
    rw [if_pos run, run.1]
    simp only [CommandLine.step, Dialogue.run_accepted accepted]
    obtain ⟨outcome, machine⟩ := Prod.mk.inj ran
    refine ⟨?_, machine, sound, lasts_here _ _ t _ later back h.here⟩
    rw [Dialogue.shownBy, outcome, machine]
  · have invisible : Dialogue.Invisible s := by
      rw [Dialogue.Invisible]
      by_cases mode : s.1 = .tokens
      · exact .inl mode
      · refine .inr fun checked => run ⟨?_, checked⟩
        cases hm : s.1 with
        | run => rfl
        | tokens => exact absurd hm mode
    rw [if_neg run]
    exact ⟨(Dialogue.step_occurrences limits s d ⟨t.machine, 0⟩ same).1,
      (Dialogue.machine_of_invisible limits invisible d).trans same, h⟩

theorem converse_eq (good : ∀ x, AcceptedNode x → K.Good x) (limits : Limits)
    (steps : List (CommandLine.Mode × String)) (h : K.AtTop t) (same : d.machine = t.machine) :
    (Dialogue.converse limits steps d).1 = (t.converse o limits steps).1 ∧
      (Dialogue.converse limits steps d).2.machine = (t.converse o limits steps).2.machine ∧
      K.AtTop (t.converse o limits steps).2 := by
  induction steps generalizing t d with
  | nil => exact ⟨rfl, same, h⟩
  | cons s rest ih =>
    obtain ⟨shown, machine, atTop⟩ := step_eq good limits s h same
    obtain ⟨others, ended⟩ := ih atTop machine
    exact ⟨congrArg₂ List.cons shown others, ended⟩

end Upkeep

end Script
