import Script.Proofs.Observed.Table

/-! Steps that leave no trace.
A step that lists tokens, or whose source has complaints, shows what it shows and leaves the machine
as it is. -/
namespace Script

open Lexical Grammar Binding Source

namespace TableDialogue

open Dialogue (Invisible merge_eq_nil)

variable {programs : List (List BoundStmt × Bool)} {program : List BoundStmt} {ran : Bool}
  {x : Position × Node Site}

def LeftOver (programs : List (List BoundStmt × Bool)) (x : Position × Node Site) : Prop :=
  ∃ number program, programs[number]? = some (program, false) ∧ x ∈ programNodes number program

theorem getElem?_append_one {number : Nat} {entry : List BoundStmt × Bool} :
    (programs ++ [entry])[number]? = some (program, ran) ↔
      programs[number]? = some (program, ran) ∨
        number = programs.length ∧ entry = (program, ran) := by
  rcases Nat.lt_trichotomy number programs.length with below | rfl | above
  · rw [List.getElem?_append_left below]
    exact ⟨.inl, fun h => h.resolve_right fun h => Nat.ne_of_lt below h.1⟩
  · simp
  · simp [List.getElem?_eq_none (Nat.le_of_lt above), Nat.ne_of_gt above,
      List.getElem?_append_right (Nat.le_of_lt above), Nat.sub_ne_zero_of_lt above]

theorem bound_enter : Bound (programs ++ [(program, ran)]) x ↔
    Bound programs x ∨ x ∈ programNodes programs.length program := by
  constructor
  · rintro ⟨number, other, ran', here, hx⟩
    rcases getElem?_append_one.mp here with here | ⟨rfl, same⟩
    · exact .inl ⟨number, other, ran', here, hx⟩
    · cases same
      exact .inr hx
  · rintro (⟨number, other, ran', here, hx⟩ | hx)
    · exact ⟨number, other, ran', getElem?_append_one.mpr (.inl here), hx⟩
    · exact ⟨_, program, ran, getElem?_append_one.mpr (.inr ⟨rfl, rfl⟩), hx⟩

theorem ran_enter : Ran (programs ++ [(program, ran)]) x ↔
    Ran programs x ∨ ran = true ∧ x ∈ programNodes programs.length program := by
  constructor
  · rintro ⟨number, other, here, hx⟩
    rcases getElem?_append_one.mp here with here | ⟨rfl, same⟩
    · exact .inl ⟨number, other, here, hx⟩
    · cases same
      exact .inr ⟨rfl, hx⟩
  · rintro (⟨number, other, here, hx⟩ | ⟨rfl, hx⟩)
    · exact ⟨number, other, getElem?_append_one.mpr (.inl here), hx⟩
    · exact ⟨_, program, getElem?_append_one.mpr (.inr ⟨rfl, rfl⟩), hx⟩

theorem Tabled.enter {table : Table} (h : Tabled table programs) (program : List BoundStmt)
    (ran : Bool) :
    Tabled (Table.entries programs.length program ++ table) (programs ++ [(program, ran)]) := by
  intro path distance
  simp only [List.mem_append, Table.mem_entries, h path distance, bound_enter, or_and_right,
    exists_or]
  exact or_comm

theorem find?_enter {table : Table} (program : List BoundStmt) (hx : Bound programs x) :
    (Table.entries programs.length program ++ table).find? x.1.path = table.find? x.1.path := by
  have other : List.find? (fun e : List Nat × Nat => e.1 == x.1.path)
      (Table.entries programs.length program) = none := by
    rw [List.find?_eq_none]
    rintro ⟨path, distance⟩ entry same
    obtain ⟨x', hx', rfl, -⟩ := Table.mem_entries.mp entry
    obtain ⟨number, older, ran, here, hx⟩ := hx
    cases program_of_path hx' hx (beq_iff_eq.mp same)
    rw [List.getElem?_eq_none (Nat.le_refl _)] at here
    cases here
  simp only [Table.find?, List.find?_append, other, Option.none_or]

theorem upkeep_more {table table' : Table} {programs' : List (List BoundStmt × Bool)}
    {tabled : Tabled table programs} {known : ∀ x, Ran programs x → AcceptedNode x}
    {tabled' : Tabled table' programs'} {known' : ∀ x, Ran programs' x → AcceptedNode x}
    (more : ∀ x, Ran programs x → Ran programs' x) {t : Observed (List Nat) (List (List Nat))}
    (h : (upkeep tabled known).Sound t) : (upkeep tabled' known').Sound t where
  functions ref c hc :=
    let ⟨p, code⟩ := h.functions ref c hc
    ⟨p, code.place, fun n hn => more n (code.nodes n hn), code.initializer⟩
  classes ref c hc :=
    let ⟨p, methods⟩ := h.classes ref c hc
    ⟨p, methods.place, fun n hn => more n (methods.nodes n hn)⟩
  kept path hp :=
    let ⟨x, ran, same⟩ := h.kept path hp
    ⟨x, more x ran, same⟩

theorem Sound.enter {d : TableDialogue} (h : d.Sound)
    (known : ran = true → ∀ x ∈ programNodes d.programs.length program, AcceptedNode x) :
    (d.enter program ran).Sound := by
  have known' : ∀ x, Ran (d.programs ++ [(program, ran)]) x → AcceptedNode x := by
    intro x hx
    rcases ran_enter.mp hx with hx | ⟨here, hx⟩
    · exact h.known x hx
    · exact known here x hx
  exact ⟨h.tabled.enter program ran, known', upkeep_more (fun x hx => ran_enter.mpr (.inl hx)) h.state⟩

theorem initial_sound (clock : Nat → Float) : (initial clock).Sound where
  tabled path distance := by
    constructor
    · exact fun h => absurd h List.not_mem_nil
    · rintro ⟨x, ⟨number, program, ran, here, -⟩, -⟩
      cases here
  known x := by
    rintro ⟨number, program, here, -⟩
    cases here
  state :=
    { functions := fun ref c hc => by cases hc
      classes := fun ref c hc => by cases hc
      kept := fun path hp => absurd hp List.not_mem_nil }

/-- Binding a program that was read makes as many entries as it lists uses. -/
theorem length_entries (number : Nat) (tokens : List Token) (endLine : Nat) :
    let bound := bindProgram (readProgram tokens endLine).statements
    (Table.entries number bound.statements).length = bound.occurrences.length := by
  intro bound
  have plain := (readProgram_held tokens endLine ⟨"", 0⟩).plain (.top number)
  obtain ⟨-, -, found, listed, -, hf⟩ :=
    bindStmts_finds (.top number) (readProgram tokens endLine).statements plain _ fits_outermost
  have same : bound.occurrences = found := listed
  have entry : ∀ x, (Table.entry? x).isSome = (occurrence? x).isSome := by
    intro x
    unfold Table.entry? occurrence?
    rcases x.2.use? with _ | ⟨use, name, _ | distance⟩ <;> rfl
  rw [same, hf.perm.length_eq]
  show (List.filterMap Table.entry? (programNodes number bound.statements)).length =
    (List.filterMap occurrence? (programNodes number bound.statements)).length
  rw [List.length_filterMap_eq_countP, List.length_filterMap_eq_countP]
  exact List.countP_congr fun x _ => by rw [entry]

/-- What becomes of a source: it is not bound, it is bound but not run, or it is run. The second
session has the sites in the trees. -/
inductive Treated (limits : Limits) (source : String) (d : TableDialogue) :
    Step × TableDialogue → Step × Dialogue → Prop
  | unread (reports : List Report) (wrong : Program.check source ≠ []) :
    Treated limits source d (⟨.rejected reports, ""⟩, d) (⟨.rejected reports, ""⟩, d.erase)
  | unrun (reports : List Report) (wrong : Program.check source ≠ []) :
    Treated limits source d (⟨.rejected reports, ""⟩, d.enter (Program.code source) false)
      (⟨.rejected reports, ""⟩, (d.enter (Program.code source) false).erase)
  | run (accepted : Program.Accepted source) {e : TableDialogue}
    (entered : e = d.enter (Program.code source) true) {outcome : Outcome}
    {observed : Observed (List Nat) (List (List Nat))} {outcome' : Outcome} {machine : Machine}
    (ran : ObservedRun.runBound e.table.observer limits [d.programs.length] (Program.code source)
      e.observed = (outcome, observed))
    (ran' : Dialogue.runBound limits (Program.code source) e.observed.machine =
      (outcome', machine)) :
    Treated limits source d (⟨outcome, observed.machine.output⟩, { e with observed := observed })
      (⟨outcome', machine.output⟩, ⟨machine, e.table.length⟩)

theorem length_enter (d : TableDialogue) (source : String) (ran : Bool) :
    (d.enter (Program.code source) ran).table.length =
      d.table.length + (Program.ofSource source).bound.occurrences.length := by
  have entries := length_entries d.programs.length (scan source).tokens (scan source).endLine
  show (_ ++ _ : List _).length = _
  rw [List.length_append, Nat.add_comm]
  exact congrArg (d.table.length + ·) entries

theorem run_treated (limits : Limits) (source : String) (d : TableDialogue) :
    Treated limits source d (d.run limits source) (d.erase.run limits source) := by
  have wrong : ¬ Program.Accepted source → Program.check source ≠ [] :=
    fun h checked => h ((Program.accepted_iff source).mp checked)
  have code : bindProgram (readProgram (scan source).tokens (scan source).endLine).statements =
      (Program.ofSource source).bound := rfl
  simp only [run, Dialogue.run, code]
  cases hr : (Report.merge (Report.merge [] (scan source).reports)
      (readProgram (scan source).tokens (scan source).endLine).reports).isEmpty with
  | false =>
    refine .unread _ (wrong fun accepted => ?_)
    rw [accepted.scanned, accepted.read] at hr
    cases hr
  | true =>
    obtain ⟨first, read⟩ := merge_eq_nil (List.isEmpty_iff.mp hr)
    have scanned := (merge_eq_nil first).2
    rw [first, read]
    cases hb : (Report.merge (Report.merge [] []) (Program.ofSource source).bound.reports).isEmpty with
    | false =>
      have treated : Treated limits source d _ _ :=
        .unrun (Report.merge (Report.merge [] []) (Program.ofSource source).bound.reports)
          (wrong fun accepted => by
            rw [accepted.bound] at hb
            cases hb)
      rw [erase, length_enter] at treated
      exact treated
    | true =>
      have accepted : Program.Accepted source :=
        ⟨scanned, read, (merge_eq_nil (List.isEmpty_iff.mp hb)).2⟩
      have treated : Treated limits source d _ _ := .run accepted rfl rfl rfl
      rw [length_enter] at treated
      exact treated

theorem step_erase (limits : Limits) (s : CommandLine.Mode × String) {d : TableDialogue}
    (h : d.Sound) : CommandLine.step limits s.1 s.2 d.erase =
      ((step limits s d).1, (step limits s d).2.erase) ∧ (step limits s d).2.Sound := by
  obtain ⟨mode, source⟩ := s
  cases mode with
  | tokens => exact ⟨rfl, h⟩
  | run =>
    have treated := run_treated limits source d
    simp only [step, CommandLine.step]
    generalize d.run limits source = r at treated ⊢
    generalize d.erase.run limits source = r' at treated ⊢
    cases treated with
    | unread reports wrong => exact ⟨rfl, h⟩
    | unrun reports wrong => exact ⟨rfl, h.enter fun here => absurd here Bool.false_ne_true⟩
    | @run accepted e entered outcome observed outcome' machine ran ran' =>
      have sound : e.Sound := by
        rw [entered]
        exact h.enter fun _ => accepted.nodes d.programs.length
      have nodes : ∀ x ∈ programNodes d.programs.length (Program.code source),
          Ran e.programs x := by
        rw [entered]
        exact fun x hx => ran_enter.mpr (.inr ⟨rfl, hx⟩)
      have ended := Upkeep.runBound_eq limits (p := .top d.programs.length) sound.state
        (rfl : [d.programs.length] = _) nodes
      rw [ran, ran'] at ended
      obtain ⟨same, state, -⟩ := ended
      cases same
      exact ⟨rfl, sound.tabled, sound.known, state⟩

/-- With the sites in the table a session shows and keeps what it does with the sites in the
trees. -/
theorem converse_erase (limits : Limits) (steps : List (CommandLine.Mode × String))
    {d : TableDialogue} (h : d.Sound) :
    Dialogue.converse limits steps d.erase =
        ((converse limits steps d).1.map Prod.fst, (converse limits steps d).2.erase) ∧
      (converse limits steps d).2.Sound := by
  induction steps generalizing d with
  | nil => exact ⟨rfl, h⟩
  | cons s rest ih =>
    obtain ⟨erased, sound⟩ := step_erase limits s h
    obtain ⟨others, ended⟩ := ih sound
    refine ⟨?_, ended⟩
    simp only [Dialogue.converse, converse, erased, others]
    rfl

theorem step_invisible (limits : Limits) {s : CommandLine.Mode × String} (invisible : Invisible s)
    (d : TableDialogue) :
    (step limits s d).2.observed = d.observed ∧ (s.1 = .run → (step limits s d).1.output = "") ∧
      ∀ x, Bound d.programs x →
        (step limits s d).2.table.find? x.1.path = d.table.find? x.1.path := by
  obtain ⟨mode, source⟩ := s
  cases mode with
  | tokens => exact ⟨rfl, nofun, fun _ _ => rfl⟩
  | run =>
    have wrong : Program.check source ≠ [] := invisible.resolve_left nofun
    have treated := run_treated limits source d
    simp only [step]
    generalize d.run limits source = r at treated ⊢
    generalize d.erase.run limits source = r' at treated
    cases treated with
    | unread reports _ => exact ⟨rfl, fun _ => rfl, fun _ _ => rfl⟩
    | unrun reports _ => exact ⟨rfl, fun _ => rfl, fun x hx => find?_enter _ hx⟩
    | run accepted => exact absurd ((Program.accepted_iff source).mpr accepted) wrong

def marked {α : Type} (xs : List (α × Bool)) : List α := (xs.filter Prod.snd).map Prod.fst

/-- Sessions with the same machine, one of which leaves out what is invisible. -/
theorem converse_marked_of_same (limits : Limits)
    (steps : List ((CommandLine.Mode × String) × Bool))
    (invisible : ∀ s ∈ steps, s.2 = false → Invisible s.1) {d d' : TableDialogue} (h : d.Sound)
    (h' : d'.Sound) (same : d.observed.machine = d'.observed.machine) :
    marked ((converse limits (steps.map Prod.fst) d).1.zip (steps.map Prod.snd)) =
        (converse limits (marked steps) d').1 ∧
      (converse limits (steps.map Prod.fst) d).2.observed.machine =
        (converse limits (marked steps) d').2.observed.machine := by
  induction steps generalizing d d' with
  | nil => exact ⟨rfl, same⟩
  | cons s rest ih =>
    obtain ⟨here, rest⟩ := List.forall_mem_cons.mp invisible
    obtain ⟨s, mark⟩ := s
    obtain ⟨erased, sound⟩ := step_erase limits s h
    cases mark with
    | false =>
      have left := (step_invisible limits (here rfl) d).1
      exact ih rest sound h' ((congrArg Observed.machine left).trans same)
    | true =>
      obtain ⟨erased', sound'⟩ := step_erase limits s h'
      have both := Dialogue.step_occurrences limits s d.erase d'.erase same
      rw [erased, erased'] at both
      obtain ⟨shown, same⟩ := both
      obtain ⟨others, ended⟩ := ih rest sound sound' same
      refine ⟨?_, ended⟩
      exact congrArg₂ List.cons (Prod.ext shown (Dialogue.globals_eq same)) others

/-- A session shows and keeps the same without steps that are invisible, in whatever number and
wherever they stand. Such a step writes no output when it is to be run, leaves the machine as it is
and adds no entry for a node bound before it, and no run looks up what is left of it. All this is so
of the session with the sites in the trees. -/
theorem converse_marked (limits : Limits) (clock : Nat → Float)
    (steps : List ((CommandLine.Mode × String) × Bool))
    (invisible : ∀ s ∈ steps, s.2 = false → Invisible s.1) :
    let all := converse limits (steps.map Prod.fst) (initial clock)
    let thinned := converse limits (marked steps) (initial clock)
    (marked (all.1.zip (steps.map Prod.snd)) = thinned.1 ∧
        all.2.observed.machine = thinned.2.observed.machine) ∧
      (∀ s, Invisible s →
        (step limits s all.2).2.observed = all.2.observed ∧
          (s.1 = .run → (step limits s all.2).1.output = "") ∧
          ∀ x, Bound all.2.programs x →
            (step limits s all.2).2.table.find? x.1.path = all.2.table.find? x.1.path) ∧
      (∀ x, LeftOver all.2.programs x → x.1.path ∉ all.2.consulted) ∧
      Dialogue.converse limits (steps.map Prod.fst) (.initial clock) =
        (all.1.map Prod.fst, all.2.erase) := by
  have begun := initial_sound clock
  intro all thinned
  obtain ⟨erased, sound⟩ := converse_erase limits (steps.map Prod.fst) begun
  refine ⟨converse_marked_of_same limits steps invisible begun begun rfl,
    fun s hs => step_invisible limits hs all.2, fun x left looked => ?_, erased⟩
  obtain ⟨number, program, here, hx⟩ := left
  obtain ⟨x', ⟨number', program', here', hx'⟩, same⟩ := sound.state.kept _ looked
  cases program_of_path hx' hx same
  rw [here] at here'
  cases here'

/-- A session in which a source with an unused local and a listing of tokens stand between others. -/
def interrupted : List ((CommandLine.Mode × String) × Bool) :=
  [((.run, "fun f(a) \x7b return a; \x7d"), true),
    ((.run, "\x7b var f = nil; print f; var unused; \x7d"), false),
    ((.tokens, "print f;"), false), ((.run, "print f(nil);"), true)]

theorem converse_marked_interrupted :
    (∀ s ∈ interrupted, s.2 = false → Invisible s.1) ∧
      (converse ⟨10, 20⟩ (interrupted.map Prod.fst) (initial fun _ => 0)).2.table.length = 2 ∧
      marked ((converse ⟨10, 20⟩ (interrupted.map Prod.fst) (initial fun _ => 0)).1.zip
          (interrupted.map Prod.snd)) =
        [(⟨.finished, ""⟩, [("clock", "<native fn clock>"), ("f", "<fn f>")]),
          (⟨.finished, "none\n"⟩, [("clock", "<native fn clock>"), ("f", "<fn f>")])] := by
  have invisible : ∀ s ∈ interrupted, s.2 = false → Invisible s.1 := by
    unfold Invisible
    decide +kernel
  obtain ⟨⟨same, -⟩, -⟩ := converse_marked ⟨10, 20⟩ (fun _ => 0) interrupted invisible
  refine ⟨invisible, by decide +kernel, same.trans ?_⟩
  decide +kernel

end TableDialogue

end Script
