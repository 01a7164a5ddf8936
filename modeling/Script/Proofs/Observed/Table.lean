import Script.Proofs.Lexical.Paths
import Script.Proofs.Observed.Programs

/-! Sessions with one table of sites.
The sites of all programs are kept in a table that only grows, by the path of the node, and a run
takes the site of every use from the table as it comes to it. -/
namespace Script

open Lexical Grammar Binding Source

/-- The distances of the uses that refer to a scope, by the paths of their nodes. -/
abbrev Table := List (List Nat × Nat)

namespace Table

def find? (table : Table) (path : List Nat) : Option Nat :=
  (List.find? (fun e => e.1 == path) table).map Prod.snd

def site (table : Table) (path : List Nat) : Site :=
  match table.find? path with
  | some distance => .local_ distance
  | none => .global

/-- A run that takes every site from the table. -/
def observer (table : Table) : Observer (List Nat) (List (List Nat)) where
  nowhere := []
  child i path := i :: path
  receiving _ path := path
  site path _ := table.site path
  consulted path consulted := path :: consulted
  loaded _ _ _ consulted := consulted
  bound _ consulted := consulted
  received _ _ consulted := consulted
  initialized _ _ consulted := consulted

def entry? (x : Position × Node Site) : Option (List Nat × Nat) :=
  match x.2.use? with
  | some (_, _, .local_ distance) => some (x.1.path, distance)
  | _ => none

def entries (number : Nat) (program : List BoundStmt) : Table :=
  (programNodes number program).filterMap entry?

theorem mem_entries {number : Nat} {program : List BoundStmt} {path : List Nat} {distance : Nat} :
    (path, distance) ∈ entries number program ↔ ∃ x ∈ programNodes number program,
      x.1.path = path ∧ ∃ use name, x.2.use? = some (use, name, .local_ distance) := by
  refine List.mem_filterMap.trans (exists_congr fun x => and_congr_right fun _ => ?_)
  unfold entry?
  cases hu : x.2.use? with
  | none => simp
  | some found =>
    obtain ⟨use, name, site⟩ := found
    cases site <;> simp

end Table

/-- A session with its table, and all programs bound so far in their order, each with whether it was
run. -/
structure TableDialogue where
  observed : Observed (List Nat) (List (List Nat))
  table : Table
  programs : List (List BoundStmt × Bool)

namespace TableDialogue

def initial (clock : Nat → Float) : TableDialogue :=
  ⟨⟨.initial clock, fun _ => [], fun _ => [], []⟩, [], []⟩

def erase (d : TableDialogue) : Dialogue := ⟨d.observed.machine, d.table.length⟩

def consulted (d : TableDialogue) : List (List Nat) := d.observed.account

/-- Enters what was bound, of a program that is run or not. A later entry stands before the earlier
ones. -/
def enter (program : List BoundStmt) (ran : Bool) (d : TableDialogue) : TableDialogue :=
  { d with
    table := Table.entries d.programs.length program ++ d.table
    programs := d.programs ++ [(program, ran)] }

def run (limits : Limits) (source : String) (d : TableDialogue) : Step × TableDialogue :=
  let scan := Source.scan source
  let lexical := Report.merge [] scan.reports
  let program := Grammar.readProgram scan.tokens scan.endLine
  let found := Report.merge lexical program.reports
  if !found.isEmpty then (⟨.rejected found, ""⟩, d)
  else
    let bound := Binding.bindProgram program.statements
    let found := Report.merge found bound.reports
    if !found.isEmpty then (⟨.rejected found, ""⟩, d.enter bound.statements false)
    else
      let e := d.enter bound.statements true
      let (outcome, observed) :=
        ObservedRun.runBound e.table.observer limits [d.programs.length] bound.statements e.observed
      (⟨outcome, observed.machine.output⟩, { e with observed := observed })

def step (limits : Limits) (s : CommandLine.Mode × String) (d : TableDialogue) :
    Step × TableDialogue :=
  match s.1 with
  | .run => d.run limits s.2
  | .tokens => (Dialogue.listTokens s.2, d)

/-- What steps show one after another, each with the globals behind it. -/
def converse (limits : Limits) :
    List (CommandLine.Mode × String) → TableDialogue →
      List (Step × List (String × String)) × TableDialogue
  | [], d => ([], d)
  | s :: rest, d =>
    let (shown, d) := step limits s d
    let (others, ended) := converse limits rest d
    ((shown, d.erase.globals) :: others, ended)

def Ran (programs : List (List BoundStmt × Bool)) (x : Position × Node Site) : Prop :=
  ∃ number program, programs[number]? = some (program, true) ∧ x ∈ programNodes number program

def Bound (programs : List (List BoundStmt × Bool)) (x : Position × Node Site) : Prop :=
  ∃ number program ran, programs[number]? = some (program, ran) ∧ x ∈ programNodes number program

/-- The table has the entries of all programs and no others. -/
def Tabled (table : Table) (programs : List (List BoundStmt × Bool)) : Prop :=
  ∀ path distance, (path, distance) ∈ table ↔ ∃ x, Bound programs x ∧ x.1.path = path ∧
    ∃ use name, x.2.use? = some (use, name, .local_ distance)

theorem Ran.bound {programs : List (List BoundStmt × Bool)} {x : Position × Node Site}
    (h : Ran programs x) : Bound programs x :=
  let ⟨number, program, here, hx⟩ := h
  ⟨number, program, true, here, hx⟩

/-- Bound nodes of one path are one node of one program. -/
theorem bound_unique {programs : List (List BoundStmt × Bool)} {number : Nat}
    {program : List BoundStmt} {ran : Bool} {x x' : Position × Node Site}
    (here : programs[number]? = some (program, ran)) (hx : x ∈ programNodes number program)
    (hx' : Bound programs x') (same : x'.1.path = x.1.path) :
    x' = x ∧ x' ∈ programNodes number program := by
  obtain ⟨number', program', ran', here', hx'⟩ := hx'
  cases program_of_path hx' hx same
  rw [here] at here'
  cases here'
  exact ⟨node_of_path hx' hx same, hx'⟩

/-- The site of a bound use is in the table, where it has one. -/
theorem Tabled.site {table : Table} {programs : List (List BoundStmt × Bool)}
    (h : Tabled table programs) {x : Position × Node Site} (hx : Bound programs x) {use : Use}
    {name : Name} {site : Site} (isUse : x.2.use? = some (use, name, site)) :
    table.site x.1.path = site := by
  obtain ⟨number, program, ran, here, hx⟩ := hx
  have only : ∀ distance, (x.1.path, distance) ∈ table → site = .local_ distance := by
    intro distance entry
    obtain ⟨x', hx', same, use', name', isUse'⟩ := (h _ _).mp entry
    rw [(bound_unique here hx hx' same).1, isUse] at isUse'
    cases isUse'
    rfl
  unfold Table.site Table.find?
  cases found : List.find? (fun e => e.1 == x.1.path) table with
  | some entry =>
    have key : entry.1 = x.1.path := beq_iff_eq.mp
      (List.find?_some (p := fun e : List Nat × Nat => e.1 == x.1.path) found)
    have entry : (x.1.path, entry.2) ∈ table := key ▸ List.mem_of_find?_eq_some found
    exact (only _ entry).symm
  | none =>
    cases site with
    | global => rfl
    | local_ distance =>
      have entry : (x.1.path, distance) ∈ table :=
        (h _ _).mpr ⟨x, ⟨number, program, ran, here, hx⟩, rfl, use, name, isUse⟩
      exact absurd (beq_self_eq_true x.1.path) (List.find?_eq_none.mp found _ entry)

def Looked (programs : List (List BoundStmt × Bool)) (consulted : List (List Nat)) : Prop :=
  ∀ path ∈ consulted, ∃ x, Ran programs x ∧ x.1.path = path

/-- A run that takes its sites from the table is relied on to know its place by the path alone. -/
def upkeep {table : Table} {programs : List (List BoundStmt × Bool)} (tabled : Tabled table programs)
    (known : ∀ x, Ran programs x → AcceptedNode x) : Upkeep table.observer where
  At _ path p _ := path = p.path
  Good := Ran programs
  Kept _ consulted := Looked programs consulted
  Later _ _ := True
  refl _ := trivial
  trans _ _ := trivial
  lasting at_ _ := at_
  regions path _ at_ := at_.trans path
  child i at_ := congrArg (i :: ·) at_
  names good := (known _ good).usual.names
  extend _ _ _ := trivial
  extended _ _ kept := kept
  opened _ _ at_ := at_
  receiving _ at_ := at_
  received _ _ kept := kept
  define _ _ _ _ _ := trivial
  bound _ _ kept := kept
  site good isUse at_ := at_ ▸ tabled.site good.bound isUse
  consulted good _ at_ kept := List.forall_mem_cons.mpr ⟨⟨_, good, at_.symm⟩, kept⟩
  loaded _ _ _ kept := kept
  initialized _ _ _ kept := kept

/-- Between the steps the table is that of the programs, and the machine holds code of those that
were run. -/
structure Sound (d : TableDialogue) : Prop where
  tabled : Tabled d.table d.programs
  known : ∀ x, Ran d.programs x → AcceptedNode x
  state : (upkeep tabled known).Sound d.observed

end TableDialogue

end Script
