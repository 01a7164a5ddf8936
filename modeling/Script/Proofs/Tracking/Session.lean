import Script.CommandLine
import Script.Proofs.Lexical.Bound
import Script.Proofs.Lexical.Trees
import Script.Proofs.Tracking.Simulation

/-! Sessions with an account of every use of a local.
A tracked session answers steps as a session does and keeps the programs it has accepted, in their
order. -/
namespace Script

open Lexical

def Dialogue.converse (limits : Limits) :
    List (CommandLine.Mode × String) → Dialogue → List Step × Dialogue
  | [], d => ([], d)
  | (mode, source) :: rest, d =>
    let (s, d) := CommandLine.step limits mode source d
    let (shown, d) := converse limits rest d
    (s :: shown, d)

theorem Report.eq_nil_of_merge {found more : List Report} (h : Report.merge found more = []) :
    more = [] := by
  have byLine : ∀ {rs : List Report}, Report.byLine rs = [] → rs = [] := by
    intro rs h
    cases rs with
    | nil => rfl
    | cons r rest =>
      simp only [Report.byLine] at h
      cases hrest : Report.byLine rest with
      | nil => rw [hrest] at h; cases h
      | cons s _ =>
        rw [hrest, Report.insertByLine] at h
        split at h <;> cases h
  exact (List.append_eq_nil_iff.mp (byLine h)).2

def Outcome.absence? : Outcome → Option Absence
  | escaped e => e.absence?
  | _ => none

structure TrackedDialogue where
  state : Tracked
  occurrences : Nat
  programs : List (List BoundStmt)

namespace TrackedDialogue

def initial (clock : Nat → Float) : TrackedDialogue := ⟨.initial clock, 0, []⟩

def erase (d : TrackedDialogue) : Dialogue := ⟨d.state.machine, d.occurrences⟩

def visits (d : TrackedDialogue) : List Visit := d.state.visits

/-- The places of all programs accepted so far, with the nodes there. -/
def Accepted (programs : List (List BoundStmt)) (x : Position × Node Site) : Prop :=
  ∃ number program, programs[number]? = some program ∧ x ∈ programNodes number program

def runBound (limits : Limits) (program : List BoundStmt) (d : TrackedDialogue) :
    Outcome × Tracked :=
  let begun := { d.state with machine := { d.state.machine with output := "" }, visits := [] }
  match tracking.executeAll limits.fuel limits.room (.top d.programs.length) program begun with
  | .ok () t => (.finished, t)
  | .error e t => (.ofExit e, t)

def run (limits : Limits) (source : String) (d : TrackedDialogue) : Step × TrackedDialogue :=
  let d := { d with state := { d.state with visits := [] } }
  let scan := Source.scan source
  let lexical := Report.merge [] scan.reports
  let program := Grammar.readProgram scan.tokens scan.endLine
  let found := Report.merge lexical program.reports
  if !found.isEmpty then (⟨.rejected found, ""⟩, d)
  else
    let bound := Binding.bindProgram program.statements
    let occurrences := d.occurrences + bound.occurrences.length
    let found := Report.merge found bound.reports
    if !found.isEmpty then (⟨.rejected found, ""⟩, { d with occurrences := occurrences })
    else
      let (outcome, state) := runBound limits bound.statements d
      (⟨outcome, state.machine.output⟩, ⟨state, occurrences, d.programs ++ [bound.statements]⟩)

def step (limits : Limits) (mode : CommandLine.Mode) (source : String) (d : TrackedDialogue) :
    Step × TrackedDialogue :=
  match mode with
  | .run => d.run limits source
  | .tokens => (Dialogue.listTokens source, { d with state := { d.state with visits := [] } })

def converse (limits : Limits) :
    List (CommandLine.Mode × String) → TrackedDialogue → List Step × TrackedDialogue
  | [], d => ([], d)
  | (mode, source) :: rest, d =>
    let (s, d) := step limits mode source d
    let (shown, d) := converse limits rest d
    (s :: shown, d)

/-- The invariant of a tracked session: the state is sound between the steps, and every node of an
accepted program is scoped. -/
structure Sound (d : TrackedDialogue) : Prop where
  state : d.state.Sound .identity (Accepted d.programs)
  current : d.state.machine.current = Machine.globals
  known : ∀ x, Accepted d.programs x → Scoped x

theorem initial_sound (clock : Nat → Float) : (initial clock).Sound where
  state := Tracked.initial_sound _ _ clock
  current := rfl
  known x hx := by
    obtain ⟨number, program, hprogram, _⟩ := hx
    cases hprogram

theorem Accepted.append {programs : List (List BoundStmt)} {x : Position × Node Site}
    (h : Accepted programs x) (program : List BoundStmt) : Accepted (programs ++ [program]) x := by
  obtain ⟨number, old, hold, hx⟩ := h
  exact ⟨number, old, List.getElem?_append_left (List.getElem?_eq_some_iff.mp hold).1 ▸ hold, hx⟩

/-- Behind a program the state is sound. It has finished or failed, its fuel was used up, or a
reading use, the only one of the step to do so, did not find its name. -/
structure Ran (programs : List (List BoundStmt)) (ended : Outcome) (t : Tracked) : Prop where
  state : t.Sound .identity (Accepted programs)
  current : t.machine.current = Machine.globals
  outcome : ended = .finished ∨ (∃ failure, ended = .failed failure) ∨
    ended = .escaped .exhausted ∨ ∃ key, ended = .escaped (.absent (.name key))
  absences : t.visits.filterMap Visit.absence? = ended.absence?.toList

theorem known_append {d : TrackedDialogue} (h : d.Sound) {program : List BoundStmt}
    (known : ∀ x ∈ programNodes d.programs.length program, Scoped x) :
    ∀ x, Accepted (d.programs ++ [program]) x → Scoped x := by
  rintro x ⟨number, old, hold, hx⟩
  rcases Nat.lt_or_ge number d.programs.length with hlt | hge
  · rw [List.getElem?_append_left hlt] at hold
    exact h.known x ⟨number, old, hold, hx⟩
  · rw [List.getElem?_append_right hge, List.getElem?_singleton] at hold
    split at hold
    · cases hold
      have : number = d.programs.length := by omega
      subst this
      exact known x hx
    · cases hold

/-- The tracked run of a program is a run of it, and it keeps the invariant. -/
theorem runBound_ran (limits : Limits) (program : List BoundStmt) (d : TrackedDialogue)
    (h : d.Sound) (known : ∀ x ∈ programNodes d.programs.length program, Scoped x) :
    Dialogue.runBound limits program d.state.machine =
        ((runBound limits program d).1, (runBound limits program d).2.machine) ∧
      Ran (d.programs ++ [program]) (runBound limits program d).1 (runBound limits program d).2 := by
  have simulated := Simulated.all
    (fun x hx => ⟨known_append h known x hx, respected_identity x⟩) limits.fuel
  have follows := simulated.executeAll limits.room (.top d.programs.length) program fun x hx =>
    ⟨d.programs.length, program, by simp, hx⟩
  have begun : Tracked.Sound .identity (Accepted (d.programs ++ [program]))
      { d.state with machine := { d.state.machine with output := "" }, visits := [] } :=
    (h.state.mono fun x hx => hx.append program).step (.of_same rfl rfl)
      (h.state.accounted.of_same rfl rfl rfl rfl) (fun _ _ hc => .inl ⟨hc, rfl⟩)
      (fun _ _ hc => .inl ⟨hc, rfl⟩) (List.forall_mem_nil _)
  have ends := follows _ _ begun (Moment.Renamed.identity _) h.current
  rw [translateStmts_identity] at ends
  simp only [runBound, Dialogue.runBound]
  generalize tracking.executeAll _ _ _ _ _ = r at ends ⊢
  generalize Run.executeAll _ _ _ _ = r' at ends ⊢
  cases ends with
  | @ok _ _ t m kept _ =>
    obtain ⟨more, hmore, hnone⟩ := kept.visits
    refine ⟨by rw [kept.renamed.eq_of_identity], kept.sound, kept.current.trans h.current,
      .inl rfl, ?_⟩
    rw [hmore, List.append_nil, hnone]
    rfl
  | @error e e' t m kept allowed renamed =>
    obtain ⟨more, hmore, habsent⟩ := kept.visits
    rw [renamed.eq_of_identity, kept.renamed.eq_of_identity]
    refine ⟨rfl, kept.sound, kept.current.trans h.current, ?_, ?_⟩
    · cases e with
      | jumped jump => cases allowed
      | returned value => cases allowed
      | failed failure => exact .inr (.inl ⟨failure, rfl⟩)
      | absent absence =>
        obtain ⟨key, rfl⟩ := allowed
        exact .inr (.inr (.inr ⟨key, rfl⟩))
      | exhausted => exact .inr (.inr (.inl rfl))
    · rw [hmore, List.append_nil, habsent]
      cases e <;> rfl

structure Answered (shown : Step) (d : TrackedDialogue) : Prop where
  sound : d.Sound
  outcome : shown.outcome = .finished ∨ (∃ reports, shown.outcome = .rejected reports) ∨
    (∃ failure, shown.outcome = .failed failure) ∨ shown.outcome = .escaped .exhausted ∨
      ∃ key, shown.outcome = .escaped (.absent (.name key))
  absences : d.visits.filterMap Visit.absence? = shown.outcome.absence?.toList

theorem Sound.begin {d : TrackedDialogue} (h : d.Sound) (occurrences : Nat) :
    Sound { d with state := { d.state with visits := [] }, occurrences } where
  state := h.state.step (.of_same rfl rfl) (h.state.accounted.of_same rfl rfl rfl rfl)
    (fun _ _ hc => .inl ⟨hc, rfl⟩) (fun _ _ hc => .inl ⟨hc, rfl⟩) (List.forall_mem_nil _)
  current := h.current
  known := h.known

theorem run_answered (limits : Limits) (source : String) {d : TrackedDialogue} (h : d.Sound) :
    Dialogue.run limits source d.erase =
        ((d.run limits source).1, (d.run limits source).2.erase) ∧
      Answered (d.run limits source).1 (d.run limits source).2 := by
  have plain := (readProgram_held (Source.scan source).tokens
    (Source.scan source).endLine ⟨"", 0⟩).plain (.top d.programs.length)
  simp only [Dialogue.run, run]
  generalize Grammar.readProgram _ _ = program at plain ⊢
  generalize Report.merge [] _ = lexical
  split
  · exact ⟨rfl, h.begin _, .inr (.inl ⟨_, rfl⟩), rfl⟩
  · split
    · exact ⟨rfl, h.begin _, .inr (.inl ⟨_, rfl⟩), rfl⟩
    · rename_i hbound
      have accepted : (Binding.bindProgram program.statements).reports = [] :=
        Report.eq_nil_of_merge (by simpa using hbound)
      have nodes := bindProgram_scoped d.programs.length program.statements plain accepted
      obtain ⟨erased, ran⟩ := runBound_ran limits _ _ (h.begin d.occurrences) nodes
      refine ⟨?_, ⟨ran.state, ran.current, known_append (h.begin d.occurrences) nodes⟩, ?_,
        ran.absences⟩
      · simp only [erase] at erased ⊢
        rw [erased]
      · rcases ran.outcome with h | h | h | h
        · exact .inl h
        · exact .inr (.inr (.inl h))
        · exact .inr (.inr (.inr (.inl h)))
        · exact .inr (.inr (.inr (.inr h)))

theorem step_answered (limits : Limits) (mode : CommandLine.Mode) (source : String)
    {d : TrackedDialogue} (h : d.Sound) :
    CommandLine.step limits mode source d.erase =
        ((d.step limits mode source).1, (d.step limits mode source).2.erase) ∧
      Answered (d.step limits mode source).1 (d.step limits mode source).2 := by
  cases mode with
  | run => exact run_answered limits source h
  | tokens =>
    simp only [CommandLine.step, step, Dialogue.listTokens]
    split
    · exact ⟨rfl, h.begin _, .inl rfl, rfl⟩
    · exact ⟨rfl, h.begin _, .inr (.inl ⟨_, rfl⟩), rfl⟩

/-- Whatever the steps, the account changes nothing that a session shows or keeps. -/
theorem converse_answered (limits : Limits) (steps : List (CommandLine.Mode × String))
    {d : TrackedDialogue} (h : d.Sound) :
    Dialogue.converse limits steps d.erase =
        ((d.converse limits steps).1, (d.converse limits steps).2.erase) ∧
      (d.converse limits steps).2.Sound := by
  induction steps generalizing d with
  | nil => exact ⟨rfl, h⟩
  | cons s rest ih =>
    obtain ⟨mode, source⟩ := s
    obtain ⟨erased, answered⟩ := step_answered limits mode source h
    obtain ⟨others, sound⟩ := ih answered.sound
    refine ⟨?_, sound⟩
    simp only [Dialogue.converse, converse, erased, others]

end TrackedDialogue

end Script
