import Script.Proofs.Dialogue.Accepted
import Script.Proofs.Grammar.Accepted
import Script.Proofs.Lexical.Lines
import Script.Proofs.Running.Lines

/-! The layout of a source.
Blanks, newlines and comments between the tokens only move the tokens to other lines. -/
namespace Script

open Lexical Grammar Binding Source

/-- The sources have the same tokens, but for the lines. -/
def SameTokens (a b : String) : Prop :=
  (scan a).tokens.map (fun t => (t.kind, t.lexeme)) =
    (scan b).tokens.map (fun t => (t.kind, t.lexeme))

instance (a b : String) : Decidable (SameTokens a b) := inferInstanceAs (Decidable (_ = _))

/-- The line of a token by its number; behind the last token it is the line of the end. -/
def lineAt (source : String) (i : Nat) : Nat :=
  ((scan source).tokens[i]?.map Token.line).getD (scan source).endLine

/-- The tokens with their numbers in place of their lines. -/
def positioned (source : String) : List Token :=
  (scan source).tokens.mapIdx fun i t => { t with line := i }

/-- What is read of the positioned tokens. -/
def positionedResult (source : String) : Grammar.Result :=
  readProgram (positioned source) (positioned source).length

variable {a b : String}

theorem SameTokens.positioned_eq (same : SameTokens a b) : positioned a = positioned b := by
  refine List.ext_getElem? fun i => ?_
  have here := congrArg (fun tokens => tokens[i]?) same
  simp only [List.getElem?_map] at here
  rw [positioned, positioned, List.getElem?_mapIdx, List.getElem?_mapIdx]
  cases found : (scan a).tokens[i]? with
  | none =>
    rw [found, Option.map_none] at here
    rw [Option.map_eq_none_iff.mp here.symm]
  | some t =>
    rw [found, Option.map_some] at here
    obtain ⟨u, found', alike⟩ := Option.map_eq_some_iff.mp here.symm
    obtain ⟨kind, lexeme⟩ := Prod.mk.inj alike
    rw [found', Option.map_some, Option.map_some, kind, lexeme]

theorem tokens_eq (source : String) :
    (scan source).tokens = (positioned source).map (Token.relined (lineAt source)) := by
  refine (relined_numbers _ (fun i => List.getElem?_mapIdx) fun i t found => ?_).symm
  rw [lineAt, found]
  rfl

theorem endLine_eq (source : String) :
    (scan source).endLine = lineAt source (positioned source).length := by
  rw [lineAt, positioned, List.length_mapIdx, List.getElem?_length]
  rfl

theorem readProgram_eq (source : String) :
    readProgram (scan source).tokens (scan source).endLine =
      (positionedResult source).relined (lineAt source) := by
  rw [tokens_eq, endLine_eq, readProgram_lines]
  rfl

def positionedBound (source : String) : Bound := bindProgram (positionedResult source).statements

theorem bound_eq (source : String) :
    (Program.ofSource source).bound = (positionedBound source).relined (lineAt source) := by
  have statements : (Program.ofSource source).statements =
      stmtsOn (lineAt source) (positionedResult source).statements :=
    congrArg Grammar.Result.statements (readProgram_eq source)
  rw [Program.bound, statements, bindProgram_lines]
  rfl

theorem SameTokens.read (same : SameTokens a b) : positionedResult a = positionedResult b := by
  rw [positionedResult, positionedResult, same.positioned_eq]

theorem SameTokens.bound (same : SameTokens a b) : positionedBound a = positionedBound b := by
  rw [positionedBound, positionedBound, same.read]

theorem SameTokens.symm (same : SameTokens a b) : SameTokens b a := Eq.symm same

/-- Whether a source is accepted does not depend on its lines. -/
theorem SameTokens.accepted (same : SameTokens a b) (clean : (scan b).reports = [])
    (h : Program.Accepted a) : Program.Accepted b where
  scanned := clean
  read := by
    have read := h.read
    rw [readProgram_eq] at read ⊢
    rw [← same.read]
    exact List.map_eq_nil_iff.mpr (List.map_eq_nil_iff.mp read)
  bound := by
    have bound := h.bound
    rw [bound_eq] at bound ⊢
    rw [← same.bound]
    exact List.map_eq_nil_iff.mpr (List.map_eq_nil_iff.mp bound)

/-! The numbers in what is read are those of tokens: other numbers behind the last token change
nothing. -/

def pushed (n i : Nat) : Nat := if i < n then i else i + 1

theorem positioned_pushed (source : String) :
    (positioned source).map (Token.relined (pushed (positioned source).length)) =
      positioned source := by
  refine List.ext_getElem? fun i => ?_
  rw [List.getElem?_map]
  cases found : (positioned source)[i]? with
  | none => rfl
  | some t =>
    have inside : i < (positioned source).length := (List.getElem?_eq_some_iff.mp found).1
    have number : t.line = i := by
      rw [positioned, List.getElem?_mapIdx, Option.map_eq_some_iff] at found
      obtain ⟨u, -, rfl⟩ := found
      rfl
    rw [Option.map_some, Token.relined, number, pushed, if_pos inside, ← number]

theorem statements_pushed (source : String) :
    stmtsOn (pushed (positioned source).length) (positionedResult source).statements =
      (positionedResult source).statements := by
  have renamed := (readProgram_renamed (ρ := .relined (pushed (positioned source).length))
    (positioned source) (positioned source).length (positioned source).length).1
  have tokens : (Renaming.relined (pushed (positioned source).length)).token =
      Token.relined (pushed (positioned source).length) := funext (relined_token _)
  rw [tokens, positioned_pushed] at renamed
  exact renamed.symm

theorem code_pushed (source : String) :
    translateStmts (.relined (pushed (positioned source).length)) (fun site => site)
      (positionedBound source).statements = (positionedBound source).statements := by
  have bound := bindProgram_lines (pushed (positioned source).length)
    (positionedResult source).statements
  rw [statements_pushed] at bound
  exact (congrArg Bound.statements bound).symm

namespace Dialogue

theorem relined_initial (line : Nat → Nat) (clock : Nat → Float) :
    (Machine.initial clock).relined line "" = .initial clock := by
  simp only [Machine.relined, Machine.initial, List.map_toArray, List.map_nil, String.empty_append]

def positionedRun (limits : Limits) (source : String) (clock : Nat → Float) :
    EStateM.Result Exit Machine Unit :=
  Run.executeAll limits.fuel limits.room (positionedBound source).statements (.initial clock)

theorem run_eq (h : Program.Accepted a) (limits : Limits) (clock : Nat → Float) :
    (run limits a (.initial clock)).1 =
      shownBy (Run.onLines (lineAt a) "" (fun u => u) (positionedRun limits a clock)) := by
  have code : Program.code a = translateStmts (.relined (lineAt a)) (fun site => site)
      (positionedBound a).statements := congrArg Bound.statements (bound_eq a)
  have begun : (initial clock).begun = (Machine.initial clock).relined (lineAt a) "" :=
    (relined_initial _ clock).symm
  rw [run_accepted h, code, begun]
  exact congrArg shownBy ((Run.Relined.all (lineAt a) "" limits.fuel).executeAll limits.room
    (positionedBound a).statements (.initial clock))

/-- A failure is found at a token. -/
theorem failed_inside {limits : Limits} {source : String} {clock : Nat → Float} {fault : Fault}
    {i : Nat} {m : Machine}
    (failed : positionedRun limits source clock = .error (.failed ⟨fault, i⟩) m) :
    i < (scan source).tokens.length := by
  have again := (Run.Relined.all (pushed (positioned source).length) "" limits.fuel).executeAll
    limits.room (positionedBound source).statements (.initial clock)
  rw [code_pushed, relined_initial] at again
  have same : positionedRun limits source clock = Run.onLines _ _ _ _ := again
  rw [positionedRun] at failed
  rw [positionedRun, failed, Run.onLines, Exit.onLine] at same
  have kept : i = pushed (positioned source).length i := by
    injection same with exits
    injection exits with failures
    injection failures
  rw [pushed] at kept
  split at kept
  · rename_i inside
    rwa [positioned, List.length_mapIdx] at inside
  · omega

/-- The outcomes are the same, and a failure is at the same token, each on its own line. -/
inductive SameOutcome (a b : String) : Outcome → Outcome → Prop
  | finished : SameOutcome a b .finished .finished
  | failed (fault : Fault) (i : Nat) (inside : i < (scan a).tokens.length) :
    SameOutcome a b (.failed ⟨fault, lineAt a i⟩) (.failed ⟨fault, lineAt b i⟩)
  | escaped (exit : Exit) : SameOutcome a b (.escaped exit) (.escaped exit)

theorem SameOutcome.exitCode {o o' : Outcome} (h : SameOutcome a b o o') :
    o.exitCode = o'.exitCode := by
  cases h <;> rfl

theorem run_sameTokens (same : SameTokens a b) (h : Program.Accepted a) (h' : Program.Accepted b)
    (limits : Limits) (clock : Nat → Float) :
    (run limits a (.initial clock)).1.output = (run limits b (.initial clock)).1.output ∧
      SameOutcome a b (run limits a (.initial clock)).1.outcome
        (run limits b (.initial clock)).1.outcome := by
  have runs : positionedRun limits b clock = positionedRun limits a clock := by
    rw [positionedRun, positionedRun, same.bound]
  rw [run_eq h, run_eq h', runs]
  cases ended : positionedRun limits a clock with
  | ok u m => exact ⟨rfl, .finished⟩
  | error exit m =>
    refine ⟨rfl, ?_⟩
    cases exit with
    | failed failure => exact .failed failure.fault failure.line (failed_inside ended)
    | jumped jump => exact .escaped _
    | returned v => exact .escaped _
    | absent absence => exact .escaped _
    | exhausted => exact .escaped _

end Dialogue

/-- Sources that differ in their layout only. What is read and what is bound of them is the same
with the line of a token for its number, the complaints and the uses of locals in the same order;
and if they are accepted they print the same and end in the same way. -/
theorem Dialogue.layout_irrelevant (a b : String) (same : SameTokens a b)
    (clean : (scan a).reports = []) (clean' : (scan b).reports = []) :
    (∃ read : Grammar.Result,
      readProgram (scan a).tokens (scan a).endLine = read.relined (lineAt a) ∧
      readProgram (scan b).tokens (scan b).endLine = read.relined (lineAt b)) ∧
    (∃ bound : Bound,
      bindProgram (Program.ofSource a).statements = bound.relined (lineAt a) ∧
      bindProgram (Program.ofSource b).statements = bound.relined (lineAt b)) ∧
    (Program.check a = [] ↔ Program.check b = []) ∧
    (Program.check a = [] → ∀ limits clock,
      (run limits a (.initial clock)).1.output = (run limits b (.initial clock)).1.output ∧
      (run limits a (.initial clock)).1.outcome.exitCode =
        (run limits b (.initial clock)).1.outcome.exitCode ∧
      SameOutcome a b (run limits a (.initial clock)).1.outcome
        (run limits b (.initial clock)).1.outcome) := by
  have accepted : Program.check a = [] ↔ Program.check b = [] := by
    rw [Program.accepted_iff, Program.accepted_iff]
    exact ⟨same.accepted clean', same.symm.accepted clean⟩
  refine ⟨⟨positionedResult a, readProgram_eq a, ?_⟩, ⟨positionedBound a, bound_eq a, ?_⟩,
    accepted, fun right limits clock => ?_⟩
  · rw [same.read]
    exact readProgram_eq b
  · rw [same.bound]
    exact bound_eq b
  · obtain ⟨output, outcome⟩ := run_sameTokens same ((Program.accepted_iff a).mp right)
      ((Program.accepted_iff b).mp (accepted.mp right)) limits clock
    exact ⟨output, outcome.exitCode, outcome⟩

/-- A failure on one line and the same one on the line of the same token. -/
theorem Dialogue.layout_irrelevant_failure :
    SameTokens "print -nil;" "print // a sign\n- nil\n;" ∧
      (run ⟨10, 20⟩ "print -nil;" (.initial fun _ => 0)).1.outcome =
        .failed ⟨.operandNotNumber "-", 1⟩ ∧
      (run ⟨10, 20⟩ "print // a sign\n- nil\n;" (.initial fun _ => 0)).1.outcome =
        .failed ⟨.operandNotNumber "-", 2⟩ ∧
      (run ⟨10, 20⟩ "print -nil;" (.initial fun _ => 0)).1.outcome.exitCode =
        (run ⟨10, 20⟩ "print // a sign\n- nil\n;" (.initial fun _ => 0)).1.outcome.exitCode := by
  have same : SameTokens "print -nil;" "print // a sign\n- nil\n;" := by decide +kernel
  have behave := layout_irrelevant "print -nil;" "print // a sign\n- nil\n;" same
    (by decide +kernel) (by decide +kernel)
  have runs := behave.2.2.2 (by decide +kernel) ⟨10, 20⟩ (fun _ => 0)
  exact ⟨same, by decide +kernel, by decide +kernel, runs.2.1⟩

end Script
