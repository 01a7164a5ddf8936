import Script.Proofs.Dialogue.Environment
import Script.Proofs.Globals.Written

/-! The globals of a session.
However the steps end, the globals are changed by what was meant for them and by nothing else: the
declarations at the top level of the source of a step, and the assignments to globals in the sources
that were accepted so far. -/
namespace Script

open Lexical

namespace Dialogue

/-- The source of the step is accepted, and is run. -/
def Runs (s : CommandLine.Mode × String) : Prop := s.1 = .run ∧ Program.Accepted s.2

/-- The node stands in a source that is run in one of the steps. -/
def Stated (steps : List (CommandLine.Mode × String)) (x : Position × Node Site) : Prop :=
  ∃ s ∈ steps, Runs s ∧ x ∈ programNodes 0 (Program.code s.2)

def start (limits : Limits) (source : String) (d : Dialogue) : Stage :=
  ⟨.executeAll (Program.code source), limits.fuel, limits.room, d.begun⟩

/-- In the run of a program a stage explains what it changes. A declaration stands in a source that
was run, and is executed in the globals exactly if it stands in no region; then it is one of the
statements of the program. An assignment stands in a source that was run, and one to a local finds
a frame that is not the globals. -/
structure Confined (steps : List (CommandLine.Mode × String)) (program : List BoundStmt)
    (W : Stage) : Prop where
  explains : W.Explains W.machine W.after
  declares : ∀ s name, W.job = .execute s → declared? s = some name →
    ∃ p, Stated steps (p, .stmt s) ∧ (W.machine.current = Machine.globals ↔ p.layers = []) ∧
      (p.layers = [] → s ∈ program)
  assigns : ∀ name site value, W.job = .evaluate (.assign name site value) →
    ∃ p, Stated steps (p, .expr (.assign name site value)) ∧ ∀ distance frame,
      site = .local_ distance → W.machine.frames.ancestor? W.machine.current distance = some frame →
        frame ≠ Machine.globals

/-- The name is that of a declaration at the top level of the source. -/
def Declares (source : String) (name : String) : Prop :=
  ∃ s ∈ Program.code source, ∃ n, declared? s = some n ∧ n.text = name

/-- The name is that of an assignment to a global, in a source that was run in one of the steps. -/
def Assigns (steps : List (CommandLine.Mode × String)) (name : String) : Prop :=
  ∃ p n value, Stated steps (p, .expr (.assign n .global value)) ∧ n.text = name

variable {steps : List (CommandLine.Mode × String)} {s : CommandLine.Mode × String} {d : Dialogue}

/-- Between the steps the code is known and the globals are current. -/
structure Settled (steps : List (CommandLine.Mode × String)) (d : Dialogue) : Prop where
  known : Standing.Known (Stated steps) d.machine
  at_ : Standing.At (.top 0) d.machine

theorem settled_initial (steps : List (CommandLine.Mode × String)) (clock : Nat → Float) :
    Settled steps (initial clock) where
  known :=
    { functions := fun ref c hc => by cases hc
      classes := fun ref c hc => by cases hc
      kept := Nat.zero_lt_one }
  at_ := ⟨Nat.zero_lt_one, rfl⟩

theorem good_of_runs (among : s ∈ steps) (runs : Runs s) :
    ∀ n ∈ programNodes 0 (Program.code s.2), (Standing.upkeep (Stated steps)).Good n :=
  fun n hn => ⟨runs.2.nodes 0 n hn, s, among, runs, hn⟩

theorem Settled.begun (h : Settled steps d) : Standing.Known (Stated steps) d.begun :=
  Upkeep.Sound.later h.known (.refl _) rfl rfl rfl rfl h.known.root

theorem Settled.start (h : Settled steps d) (among : s ∈ steps) (runs : Runs s) (limits : Limits) :
    Standing.Stands (Stated steps) (Program.code s.2) (start limits s.2 d) :=
  ⟨h.begun, .top 0, h.at_, good_of_runs among runs, fun _ _ hs => hs⟩

/-- A step that runs its source ends where its first stage does. -/
theorem step_start (runs : Runs s) (limits : Limits) (d : Dialogue) :
    (CommandLine.step limits s.1 s.2 d).2.machine = (start limits s.2 d).after := by
  simp only [runs.1, CommandLine.step, run_accepted runs.2, machineOf_eq]
  rfl

theorem invisible_or_runs (s : CommandLine.Mode × String) : Invisible s ∨ Runs s :=
  invisible_or_accepted s.1 s.2

theorem Settled.step (h : Settled steps d) (among : s ∈ steps) (limits : Limits) :
    Settled steps (CommandLine.step limits s.1 s.2 d).2 := by
  rcases invisible_or_runs s with invisible | runs
  · have same := machine_of_invisible limits invisible d
    exact ⟨same ▸ h.known, same ▸ h.at_⟩
  · have here : Standing.At (.top 0) d.begun := h.at_
    have carried := Standing.Carried.executeAll h.begun here (good_of_runs among runs)
      limits.fuel limits.room
    have ends := step_start runs limits d
    exact ⟨ends ▸ carried.known, ends ▸ carried.at_ here⟩

theorem Settled.converse (h : Settled steps d) (limits : Limits)
    (more : List (CommandLine.Mode × String)) (among : ∀ s ∈ more, s ∈ steps) :
    Settled steps (converse limits more d).2 := by
  induction more generalizing d with
  | nil => exact h
  | cons s rest ih =>
    have first := h.step (among s List.mem_cons_self) limits
    exact ih first fun s' hs' => among s' (List.mem_cons_of_mem s hs')

theorem confined_of_stands {program : List BoundStmt} {W : Stage}
    (h : Standing.Stands (Stated steps) program W) : Confined steps program W := by
  refine ⟨Stage.explained h, fun s name job declared => ?_, fun name site value job => ?_⟩
  · have placed := h.placed
    rw [job] at placed
    obtain ⟨p, at_, good, listed⟩ := placed
    refine ⟨p, (good _ (stmt_mem_stmtNodes p s)).2, ?_, fun outermost => listed outermost ?_⟩
    · exact at_.eq_globals_iff.trans List.length_eq_zero_iff
    · rw [declared]
      nofun
  · have placed := h.placed
    rw [job] at placed
    obtain ⟨p, at_, good⟩ := placed
    have node := good (p, .expr (.assign name site value)) (by simp [exprNodes])
    refine ⟨p, node.2, fun distance frame isLocal found => ?_⟩
    subst isLocal
    have isScoped : .local_ distance = p.site name.text := node.1.isScoped
    exact at_.ancestor_ne (p.site_near isScoped.symm) found

/-- A name that is written is one that is declared or assigned there. -/
theorem Confined.named {W : Stage} {name source : String} {v : Value}
    (h : Confined steps (Program.code source) W) (writes : W.Writes name v) :
    Declares source name ∨ Assigns steps name := by
  cases writes with
  | @declaration s n m job declared key top _ _ =>
    obtain ⟨p, _, outermost, listed⟩ := h.declares s n job declared
    exact .inl ⟨s, listed (outermost.mp top), n, declared, key⟩
  | @assignment n value m job key _ _ =>
    obtain ⟨p, stated, _⟩ := h.assigns n .global value job
    exact .inr ⟨p, n, value, stated, key⟩

/-- Locals never become globals. In every session and at every step of it, however the step ends, no
global is lost; a global that is new has the name of a declaration at the top level of the source of
the step, or of an assignment to a global in a source that was run so far; and a global that has
changed has the value that an executed declaration in the globals or an executed assignment to the
global wrote. All that is executed in the step is confined, so no declaration in a block, in a clause
of a loop, in a function or in a method is executed in the globals. -/
theorem globals_written (limits : Limits) (clock : Nat → Float)
    (before : List (CommandLine.Mode × String)) (s : CommandLine.Mode × String) :
    let d := (converse limits before (initial clock)).2
    let d' := (CommandLine.step limits s.1 s.2 d).2
    let steps := before ++ [s]
    (∀ name, d.machine.global? name ≠ none → d'.machine.global? name ≠ none) ∧
    (∀ name, d.machine.global? name = none → d'.machine.global? name ≠ none →
      Runs s ∧ (Declares s.2 name ∨ Assigns steps name)) ∧
    (∀ name, d'.machine.global? name ≠ d.machine.global? name →
      Runs s ∧ ∃ W v, (start limits s.2 d).Reaches W ∧ W.Writes name v ∧
        d'.machine.global? name = some v) ∧
    (Runs s → ∀ W, (start limits s.2 d).Reaches W → Confined steps (Program.code s.2) W) := by
  intro d d' steps
  have settled : Settled steps d := (settled_initial steps clock).converse limits before
    fun s hs => List.mem_append_left _ hs
  have confined : Runs s → ∀ W, (start limits s.2 d).Reaches W →
      Confined steps (Program.code s.2) W := by
    intro runs W reached
    have among : s ∈ steps := List.mem_append_right before List.mem_cons_self
    exact confined_of_stands ((settled.start among runs limits).reaches reached)
  have changed : ∀ name, d'.machine.global? name ≠ d.machine.global? name →
      Runs s ∧ ∃ W v, (start limits s.2 d).Reaches W ∧ W.Writes name v ∧
        d'.machine.global? name = some v := by
    intro name other
    rcases invisible_or_runs s with invisible | runs
    · have same := machine_of_invisible limits invisible d
      exact absurd (congrArg (Machine.global? · name) same) other
    · have ends : d'.machine = _ := step_start runs limits d
      have explains := (confined runs _ .refl).explains name
      rw [← ends] at explains
      exact ⟨runs, explains.resolve_left other⟩
  refine ⟨fun name => (step_left limits s d).grown.names Machine.globals name,
    fun name absent present => ?_, changed, confined⟩
  obtain ⟨runs, W, v, reached, writes, _⟩ := changed name fun same => present (same.trans absent)
  exact ⟨runs, (confined runs W reached).named writes⟩

-- a function names its locals as globals are named, and assigns to others; the call of `a` fails
example : (converse ⟨10, 40⟩
    [(.run, "var a = true; fun f() \x7b var a = nil; \x7b var b = a; c = b; \x7d b = a; \x7d"),
      (.run, "f(); a();")] (initial fun _ => 0)).2.globals =
    [("a", "true"), ("b", "none"), ("c", "none"), ("clock", "<native fn clock>"),
      ("f", "<fn f>")] := by
  decide +kernel

end Dialogue

end Script
