import Script.Dialogue
import Script.Source.Scan
import Script.Proofs.Lexical.Spelling
import Script.Proofs.Tracking.Simulation

/-! Running a program in which a local has another name.
The program and the renamed one both follow the tracked run of the numbered program, so they show
the same. -/
namespace Script

open Lexical Grammar Binding

def TrackedRun.endOf : EStateM.Result Exit Tracked Unit → Option Exit × String
  | .ok () t => (none, t.machine.output)
  | .error e t => (some e, t.machine.output)

structure Dialogue.EndsAs (ρ : Renaming) (ended : Option Exit × String)
    (ran : Outcome × Machine) : Prop where
  output : ran.2.output = ended.2
  outcome : ended.1 = none ∧ ran.1 = Outcome.finished ∨
    ∃ e e' : Exit, ended.1 = some e ∧ e.Renamed ρ e' ∧ ran.1 = Outcome.ofExit e'

variable {ρ : Renaming}

/-- A renamed program ends as the tracked run of the program it is a renaming of. -/
theorem Dialogue.runBound_endsAs {program : List BoundStmt}
    (known : ∀ x ∈ programNodes 0 program, Known ρ x) (limits : Limits) (clock : Nat → Float) :
    EndsAs ρ
      (TrackedRun.endOf (tracking.executeAll limits.fuel limits.room (.top 0) program
        (.initial clock)))
      (runBound limits (translateStmts ρ (fun site => site) program) (.initial clock)) := by
  have simulated := Simulated.all known limits.fuel
  have ends := simulated.executeAll limits.room (.top 0) program (fun _ hx => hx) _ _
    (Tracked.initial_sound ρ _ clock) (Moment.Renamed.initial clock) rfl
  have begun : { Machine.initial clock with output := "" } = Machine.initial clock := rfl
  simp only [runBound, begun]
  generalize tracking.executeAll _ _ _ _ _ = r at ends ⊢
  generalize Run.executeAll _ _ _ _ = r' at ends ⊢
  cases ends with
  | ok kept post => exact ⟨kept.renamed.output, .inl ⟨rfl, rfl⟩⟩
  | error kept allowed renamed =>
    exact ⟨kept.renamed.output, .inr ⟨_, _, rfl, renamed, rfl⟩⟩

theorem Dialogue.EndsAs.alike {line : Nat → Nat} {ended : Option Exit × String}
    {ran ran' : Outcome × Machine} (h : EndsAs (.relined line) ended ran)
    (h' : EndsAs ρ ended ran') (lines : ρ.line = line) :
    ran'.2.output = ran.2.output ∧ (ran'.1 = ran.1 ∨
      ∃ n : Name, ran.1 = .escaped (.absent (.name n.text)) ∧
        ran'.1 = .escaped (.absent (.name (ρ.text n)))) := by
  refine ⟨h'.output.trans h.output.symm, ?_⟩
  have plain : ∀ e e' : Exit, e.Renamed (.relined line) e' → e' = e.onLine line := by
    intro e e' he
    cases he <;> rfl
  rcases h.outcome with ⟨he, hf⟩ | ⟨e, e₁, he, renamed, hf⟩ <;>
    rcases h'.outcome with ⟨he', hf'⟩ | ⟨e', e₂, he', renamed', hf'⟩
  · exact .inl (hf'.trans hf.symm)
  · cases he.symm.trans he'
  · cases he.symm.trans he'
  · cases he.symm.trans he'
    rw [hf, hf', plain _ _ renamed]
    cases renamed' with
    | same => exact .inl (by rw [lines])
    | absent n => exact .inr ⟨n, rfl, rfl⟩

namespace Lexical

variable {tokens : List Token}

structure Follower (ρ : Renaming) (tokens : List Token) (program : Grammar.Result) : Prop where
  read : program.reports = [] ↔ (readProgram (numbered tokens) 0).reports = []
  bound : (bindProgram program.statements).reports = [] ↔
    (bindProgram (readProgram (numbered tokens) 0).statements).reports = []
  occurrences : (bindProgram program.statements).occurrences.map (fun o => (o.use, o.distance)) =
    (bindProgram (readProgram (numbered tokens) 0).statements).occurrences.map
      fun o => (o.use, o.distance)
  statements : (bindProgram program.statements).reports = [] →
    (bindProgram program.statements).statements = translateStmts ρ (fun site => site)
        (bindProgram (readProgram (numbered tokens) 0).statements).statements ∧
      ∀ x ∈ programNodes 0 (bindProgram (readProgram (numbered tokens) 0).statements).statements,
        Known ρ x

theorem follower (tokens : List Token) (h : ∀ x ∈ numberedNodes tokens, Respected ρ x) (endLine : Nat) :
    Follower ρ tokens (readProgram ((numbered tokens).map ρ.token) endLine) := by
  obtain ⟨statements, reports⟩ := readProgram_renamed (ρ := ρ) (numbered tokens) 0 endLine
  have plain := (readProgram_held (numbered tokens) 0 ⟨"", 0⟩).plain (.top 0)
  obtain ⟨accepted, occurrences, known⟩ := bindProgram_binds (ρ := ρ) 0
    (readProgram (numbered tokens) 0).statements fun x hx => ⟨plain x hx, h x hx⟩
  rw [← statements] at accepted occurrences known
  refine ⟨?_, accepted, occurrences, fun hr => known (accepted.mp hr)⟩
  rw [← List.length_eq_zero_iff, ← List.length_eq_zero_iff, reports]

/-- A local of an accepted program may be given any name that is not used in it, where it is
declared and wherever it is referred to; no identifier is spelled as the keyword that stands for an
instance. The program is accepted again, is the same but for names at every node, and shows the
same; if a name is not found, it is not found as it is spelled now. -/
theorem renameLocal_same (tokens : List Token) (endLine : Nat) (d : Declaration) (fresh : String)
    (isRead : (readProgram tokens endLine).reports = [])
    (isBound : (bindProgram (readProgram tokens endLine).statements).reports = [])
    (isLocal : d ∈ localsOf tokens) (isName : d.name.text ≠ Keyword.this_.spelling)
    (freshName : fresh ≠ Keyword.this_.spelling)
    (unused : ∀ t ∈ tokens, t.kind = .name → t.lexeme ≠ fresh) :
    let original := readProgram tokens endLine
    let renamed := readProgram (renameLocal tokens d fresh) endLine
    renamed.reports = [] ∧ (bindProgram renamed.statements).reports = [] ∧
      translateStmts .nameless (fun site => site) (bindProgram renamed.statements).statements =
        translateStmts .nameless (fun site => site) (bindProgram original.statements).statements ∧
      (bindProgram renamed.statements).occurrences.map (fun o => (o.use, o.distance)) =
        (bindProgram original.statements).occurrences.map (fun o => (o.use, o.distance)) ∧
      ∀ (limits : Limits) (clock : Nat → Float),
        let ran := Dialogue.runBound limits (bindProgram original.statements).statements
          (.initial clock)
        let ran' := Dialogue.runBound limits (bindProgram renamed.statements).statements
          (.initial clock)
        ran'.2.output = ran.2.output ∧ (ran'.1 = ran.1 ∨
          ran.1 = .escaped (.absent (.name d.name.text)) ∧
            ran'.1 = .escaped (.absent (.name fresh))) := by
  have plain := follower tokens
    (fun x _ => respected_relined (lineOf tokens) x) endLine
  rw [numbered_relined] at plain
  have h := renamable (plain.bound.mp isBound) isLocal isName freshName unused
  have other := follower tokens (h.respected (lineOf tokens)) endLine
  rw [renameLocal_eq h] at other
  have isBound' := other.bound.mpr (plain.bound.mp isBound)
  obtain ⟨statements, known⟩ := plain.statements isBound
  obtain ⟨statements', known'⟩ := other.statements isBound'
  refine ⟨other.read.mpr (plain.read.mp isRead), isBound', ?_, ?_, fun limits clock => ?_⟩
  · rw [statements, statements', translateStmts_translate, translateStmts_translate]
    rfl
  · rw [other.occurrences, plain.occurrences]
  · have ends := Dialogue.runBound_endsAs known limits clock
    have ends' := Dialogue.runBound_endsAs known' limits clock
    rw [← statements] at ends
    rw [← statements'] at ends'
    obtain ⟨output, outcome | ⟨n, absent, absent'⟩⟩ := ends.alike ends' rfl
    · exact ⟨output, .inl outcome⟩
    · refine ⟨output, ?_⟩
      by_cases hn : n.line ∈ d.lines (numberedNodes tokens) ∧ n.text = d.name.text
      · exact .inr ⟨hn.2 ▸ absent, by rw [absent', Renamable.text_of_selected hn]⟩
      · exact .inl (by rw [absent', absent, Renamable.text_of_kept hn])

/-- A variable that a function keeps and a variable of the same name in an inner block. The property
and the inner variable keep their spelling. -/
theorem renameLocal_same_captured :
    let tokens := (Source.scan
      "\x7b var a = nil; fun f(b) \x7b a = b.a; \x7d \x7b var a = f; print a; \x7d print a; \x7d").tokens
    let renamed := (Source.scan
      "\x7b var z = nil; fun f(b) \x7b z = b.a; \x7d \x7b var a = f; print a; \x7d print z; \x7d").tokens
    let d : Declaration := ⟨⟨[0, 0], [], [⟨"a", 2⟩, ⟨"f", 7⟩]⟩, ⟨"a", 2⟩⟩
    renameLocal tokens d "z" = renamed ∧ (readProgram (renameLocal tokens d "z") 1).reports = [] :=
  ⟨by decide +kernel, (renameLocal_same _ 1 _ "z" (by decide +kernel) (by decide +kernel)
    (by decide +kernel) (by decide +kernel) (by decide +kernel) (by decide +kernel)).1⟩

end Lexical

end Script
