import Script.Proofs.Dialogue.Joining
import Script.Proofs.Dialogue.Layout
import Script.Proofs.Dialogue.Room

/-! The prompt as a session that is fed line by line.
The input is cut behind its newlines, and each line is a step of one session, whatever the lines
before it complained or failed of. -/
namespace Script

open Lexical Grammar Binding Source

/-- A newline at the end of an accepted source is of no account. -/
theorem Program.accepted_newline {source : String} (h : Accepted (source ++ "\n")) :
    Accepted source ∧ code source = code (source ++ "\n") ∧
      (ofSource source).bound.occurrences = (ofSource (source ++ "\n")).bound.occurrences := by
  have clean : (scan source).reports = [] := by
    refine clean_of_newline 1 source.toList ?_
    exact (congrArg (found Piece.report? 1) (String.toList_append ..)).symm.trans h.scanned
  have tokens := (scan_joined source "" clean).1
  have nothing : (scan "").tokens = [] := found_nil 1
  rw [show joined source "" = source ++ "\n" from String.append_empty, nothing, List.map_nil,
    List.append_nil] at tokens
  have statements := (readProgram_renamed (ρ := .identity) (scan source).tokens
    (scan source).endLine (scan (source ++ "\n")).endLine).1
  have kept : (scan source).tokens.map Renaming.identity.token = (scan source).tokens :=
    (List.map_congr_left fun t _ => relined_token _ t).trans (List.map_id _)
  rw [kept, translateStmts_identity] at statements
  have same : (ofSource source).bound = (ofSource (source ++ "\n")).bound := by
    show bindProgram (readProgram _ _).statements = bindProgram (readProgram _ _).statements
    rw [tokens, statements]
  have sameTokens : SameTokens (source ++ "\n") source := by rw [SameTokens, tokens]
  exact ⟨sameTokens.accepted clean h, congrArg Bound.statements same,
    congrArg Bound.occurrences same⟩

/-- The step ends with what is no failure of the language. -/
def Step.Escapes (s : Step) : Prop := ∃ e, s.outcome = .escaped e

namespace CommandLine

/-- The lines of a text. Each ends with its newline, only the last one may end without. -/
inductive Cut : List String → Prop
  | none : Cut []
  | last (body : String) : body ≠ "" → '\n' ∉ body.toList → Cut [body]
  | line (body : String) {rest : List String} : '\n' ∉ body.toList → Cut rest →
      Cut ((body ++ "\n") :: rest)

/-- The text of an input, every way to end a line read as a newline. -/
def unified (input : String) : String := String.ofList (unifyNewlines input.toList)

theorem Cut.cons {c : Char} (other : c ≠ '\n') {line : List Char} {rest : List (List Char)}
    (h : Cut ((line :: rest).map String.ofList)) :
    Cut (((c :: line) :: rest).map String.ofList) := by
  have longer (body : String) : '\n' ∉ body.toList →
      '\n' ∉ (String.ofList [c] ++ body).toList := by
    simp [Ne.symm other]
  rw [List.map_cons] at h ⊢
  have front : String.ofList ([c] ++ line) = String.ofList [c] ++ String.ofList line :=
    String.ofList_append
  rw [show c :: line = [c] ++ line from rfl, front]
  generalize String.ofList line = first, rest.map String.ofList = others at h ⊢
  cases h with
  | last _ filled plain =>
    exact .last _ (by simp) (longer _ plain)
  | line body plain behind =>
    rw [← String.append_assoc]
    exact .line _ (longer _ plain) behind

theorem lines_cut (s : List Char) :
    Cut ((lines s).map String.ofList) ∧ (lines s).flatten = s := by
  fun_induction lines s with
  | case1 => exact ⟨.none, rfl⟩
  | case2 s ih => exact ⟨.line "" (by decide) ih.1, congrArg ('\n' :: ·) ih.2⟩
  | case3 c s other none ih =>
    rw [none] at ih
    refine ⟨.last _ (by simp) ?_, congrArg (c :: ·) ih.2⟩
    simpa using fun h : '\n' = c => other h.symm
  | case4 c s other line rest some ih =>
    rw [some] at ih
    exact ⟨ih.1.cons other, congrArg (c :: ·) ih.2⟩

theorem join_ofList (ls : List (List Char)) :
    String.join (ls.map String.ofList) = String.ofList ls.flatten := by
  induction ls with
  | nil => rfl
  | cons line rest ih =>
    rw [List.map_cons, String.join_cons, ih, List.flatten_cons, String.ofList_append]

theorem inputLines_cut (input : String) :
    Cut (inputLines input) ∧ String.join (inputLines input) = unified input := by
  obtain ⟨cut, whole⟩ := lines_cut (unifyNewlines input.toList)
  exact ⟨cut, by rw [inputLines, join_ofList, whole, unified]⟩

/-- Lines as steps of a session. -/
def fed (mode : Mode) (ls : List String) : List (Mode × String) := ls.map fun line => (mode, line)

theorem converse_fed (limits : Limits) (mode : Mode) (line : String) (rest : List String)
    (d : Dialogue) : Dialogue.converse limits (fed mode (line :: rest)) d =
      ((step limits mode line d).1 ::
          (Dialogue.converse limits (fed mode rest) (step limits mode line d).2).1,
        (Dialogue.converse limits (fed mode rest) (step limits mode line d).2).2) := rfl

/-- What the prompt shows of steps, and behind it how it goes on. -/
def Ending.behind (shown : List Step) (ending : Ending) : Ending :=
  { ending with
    output := String.join (shown.map fun s => promptText ++ s.output) ++ ending.output
    complaints := String.join (shown.map fun s => s.outcome.complaints) ++ ending.complaints }

section Answer

variable (limits : Limits) (mode : Mode)

theorem answer_cons {d : Dialogue} {line : String} (rest : List String)
    (calm : ¬ (step limits mode line d).1.Escapes) :
    answer limits mode d (line :: rest) =
      (answer limits mode (step limits mode line d).2 rest).behind
        [(step limits mode line d).1] := by
  simp only [answer]
  split
  · rename_i e escaped
    exact absurd ⟨e, escaped⟩ calm
  · simp [Ending.behind]

theorem answer_append (read rest : List String) (d : Dialogue)
    (calm : ∀ s ∈ (Dialogue.converse limits (fed mode read) d).1, ¬ s.Escapes) :
    answer limits mode d (read ++ rest) =
      (answer limits mode (Dialogue.converse limits (fed mode read) d).2 rest).behind
        (Dialogue.converse limits (fed mode read) d).1 := by
  induction read generalizing d with
  | nil => simp [fed, Dialogue.converse, Ending.behind]
  | cons line read ih =>
    rw [converse_fed] at calm ⊢
    obtain ⟨first, calm⟩ := List.forall_mem_cons.mp calm
    rw [List.cons_append, answer_cons limits mode _ first, ih _ calm]
    simp [Ending.behind, String.append_assoc]

end Answer

section Whole

variable (room fuel : Nat)

/-- A line that is accepted and finishes does so without its newline. -/
theorem ends_without_newline {body : String} (h : Program.Accepted (body ++ "\n")) {d d' : Dialogue}
    {shown : Step} (ran : Dialogue.run ⟨room, fuel⟩ (body ++ "\n") d = (shown, d'))
    (finished : shown.outcome = .finished) : Dialogue.Ends room body d shown d' := by
  obtain ⟨accepted, code, occurrences⟩ := Program.accepted_newline h
  refine ⟨by rw [finished]; exact nofun, fuel, ?_⟩
  rw [Dialogue.run_accepted accepted, code, occurrences, ← Dialogue.run_accepted h]
  exact ran

/-- The text whose lines are accepted and finish is accepted and finishes, and it prints what they
print. -/
theorem ends_whole {ls : List String} (cut : Cut ls)
    (accepted : ∀ line ∈ ls, Program.Accepted line) (d : Dialogue)
    (finished : ∀ s ∈ (Dialogue.converse ⟨room, fuel⟩ (fed .run ls) d).1, s.outcome = .finished) :
    Program.Accepted (String.join ls) ∧ ∃ e, Dialogue.Ends room (String.join ls) d
      ⟨.finished, String.join ((Dialogue.converse ⟨room, fuel⟩ (fed .run ls) d).1.map Step.output)⟩
      e := by
  induction cut generalizing d with
  | none =>
    have empty : Program.Accepted "" := (Program.accepted_iff "").mp (by decide +kernel)
    have code : Program.code "" = [] := List.isEmpty_iff.mp (by decide +kernel)
    have ran := Dialogue.run_accepted empty ⟨room, 1⟩ d
    rw [code] at ran
    exact ⟨empty, _, nofun, 1, ran⟩
  | last body =>
    have single (s : String) : String.join [s] = s := by simp
    rw [converse_fed] at finished ⊢
    obtain ⟨first, -⟩ := List.forall_mem_cons.mp finished
    have shown : (step ⟨room, fuel⟩ .run body d).1 =
        ⟨.finished, (step ⟨room, fuel⟩ .run body d).1.output⟩ := by rw [← first]
    rw [single]
    refine ⟨accepted body (List.mem_cons_self ..), _, nofun, fuel, Prod.ext (shown.trans ?_) rfl⟩
    exact congrArg (Step.mk .finished) (single _).symm
  | @line body rest plain _ ih =>
    rw [converse_fed] at finished ⊢
    obtain ⟨first, finished⟩ := List.forall_mem_cons.mp finished
    obtain ⟨here, accepted⟩ := List.forall_mem_cons.mp accepted
    obtain ⟨behind, e, ends⟩ := ih accepted _ finished
    have alone := ends_without_newline room fuel here rfl first
    have before := (Program.accepted_newline here).1
    obtain ⟨outcome, e, both, moved, -⟩ :=
      Dialogue.ends_joined_finished before behind alone first ends
    cases moved
    rw [String.join_cons, List.map_cons, String.join_cons]
    exact ⟨(Program.accepted_joined before behind).1, e, both⟩

end Whole

/-- Accepted lines finish if none fails and none escapes. -/
theorem finished_of_accepted (limits : Limits) {ls : List String}
    (accepted : ∀ line ∈ ls, Program.Accepted line) (d : Dialogue) :
    ∀ s ∈ (Dialogue.converse limits (fed .run ls) d).1, ¬ s.Escapes →
      (∀ failure, s.outcome ≠ .failed failure) → s.outcome = .finished := by
  induction ls generalizing d with
  | nil => exact List.forall_mem_nil _
  | cons line rest ih =>
    obtain ⟨here, accepted⟩ := List.forall_mem_cons.mp accepted
    rw [converse_fed]
    refine List.forall_mem_cons.mpr ⟨?_, ih accepted _⟩
    rw [step, Dialogue.run_accepted here]
    generalize Run.executeAll limits.fuel limits.room (Program.code line) d.begun = ended
    intro calm unfailed
    cases ended with
    | ok _ m => rfl
    | error e m =>
      cases e with
      | failed failure => exact absurd rfl (unfailed failure)
      | _ => exact absurd ⟨_, rfl⟩ calm

theorem runScript_text (limits : Limits) (clock : Nat → Float) (path : String) (mode : Mode)
    (text : String) : runScript limits clock path mode (.ok text.toUTF8) =
      .ofStep (step limits mode text (.initial clock)).1 := by
  have read : String.fromUTF8? text.toUTF8 = some text := dif_pos text.isValidUTF8
  simp only [runScript, read]

theorem unified_of_plain {input : String} (plain : '\r' ∉ input.toList) :
    unified input = input := by
  have kept (s : List Char) (plain : '\r' ∉ s) : unifyNewlines s = s := by
    fun_induction unifyNewlines s with
    | case1 => rfl
    | case2 => simp at plain
    | case3 => simp at plain
    | case4 c s _ _ ih => rw [ih (List.not_mem_of_not_mem_cons plain)]
  rw [unified, kept _ plain, String.ofList_toList]

/-- The input is read as lines that make it up, and each is a step of one session. Whatever lines
were read, if none escaped, a prompt and what the line printed has been shown for each and what it
complained of, and the rest is answered from where the session then is; so a line that is rejected
or fails does not end it. If none escapes at all, a last prompt follows and the exit code is 0; and
if the lines are accepted and do not fail, the text prints as a script what they print. -/
theorem prompt_fed (limits : Limits) (clock : Nat → Float)
    (file : String → Except Refusal ByteArray) (input : String) (mode : Mode) :
    (Cut (inputLines input) ∧ String.join (inputLines input) = unified input ∧
      ('\r' ∉ input.toList → unified input = input)) ∧
    (∀ read rest, inputLines input = read ++ rest → ∀ shown d,
      Dialogue.converse limits (fed mode read) (.initial clock) = (shown, d) →
      (∀ s ∈ shown, ¬ s.Escapes) →
      perform limits clock file input (.prompt mode) =
        (answer limits mode d rest).behind shown) ∧
    (∀ shown d,
      Dialogue.converse limits (fed mode (inputLines input)) (.initial clock) = (shown, d) →
      (∀ s ∈ shown, ¬ s.Escapes) →
      perform limits clock file input (.prompt mode) =
        ⟨.finished, 0, String.join (shown.map fun s => promptText ++ s.output) ++ promptText,
          String.join (shown.map fun s => s.outcome.complaints)⟩ ∧
      (mode = .run → (∀ line ∈ inputLines input, Program.check line = []) →
        (∀ s ∈ shown, ∀ failure, s.outcome ≠ .failed failure) →
        ∃ fuel, ∀ more, fuel ≤ more → ∀ path,
          perform ⟨limits.room, more⟩ clock (fun _ => .ok (unified input).toUTF8) ""
              (.script path .run) =
            ⟨.finished, 0, String.join (shown.map fun s => s.output), ""⟩)) := by
  obtain ⟨cut, whole⟩ := inputLines_cut input
  have answered (read rest : List String) (split : inputLines input = read ++ rest)
      (shown : List Step) (d : Dialogue)
      (ran : Dialogue.converse limits (fed mode read) (.initial clock) = (shown, d))
      (calm : ∀ s ∈ shown, ¬ s.Escapes) :
      perform limits clock file input (.prompt mode) =
        (answer limits mode d rest).behind shown := by
    have answers := answer_append limits mode read rest (.initial clock)
    rw [ran] at answers
    rw [perform, split, answers calm]
  refine ⟨⟨cut, whole, unified_of_plain⟩, answered, fun shown d ran calm => ⟨?_, ?_⟩⟩
  · rw [answered _ [] (List.append_nil _).symm shown d ran calm]
    simp [answer, Ending.behind]
  · rintro rfl accepted unfailed
    have accepted : ∀ line ∈ inputLines input, Program.Accepted line :=
      fun line h => (Program.accepted_iff line).mp (accepted line h)
    have finished := finished_of_accepted limits accepted (.initial clock)
    have wholly := ends_whole limits.room limits.fuel cut accepted (.initial clock)
    rw [ran] at finished wholly
    obtain ⟨-, e, ended, fuel, ends⟩ := wholly fun s h => finished s h (calm s h) (unfailed s h)
    rw [whole] at ends
    refine ⟨fuel, fun more enough path => ?_⟩
    have step_ended : (step ⟨limits.room, fuel⟩ .run (unified input) (.initial clock)).1.Ended := by
      rw [step, ends]
      exact ended
    rw [perform, runScript_text, Dialogue.step_lasts step_ended enough, step, ends]
    rfl

def counting : String := "var a = 1;\r\nprint a;\n\nprint a + 1;"

/-- Four lines at the prompt, one of them empty, and the same text as a script. -/
theorem prompt_fed_counting :
    perform ⟨10, 20⟩ (fun _ => 0) (fun _ => .error .absent) counting (.prompt .run) =
        ⟨.finished, 0, "> > 1\n> > 2\n> ", ""⟩ ∧
      ∃ fuel, ∀ path, perform ⟨10, fuel⟩ (fun _ => 0) (fun _ => .ok (unified counting).toUTF8) ""
        (.script path .run) = ⟨.finished, 0, "1\n2\n", ""⟩ := by
  obtain ⟨-, -, all⟩ :=
    prompt_fed ⟨10, 20⟩ (fun _ => 0) (fun _ => .error .absent) counting .run
  have ran : (Dialogue.converse ⟨10, 20⟩ (fed .run (inputLines counting))
      (.initial fun _ => 0)).1 =
        [⟨.finished, ""⟩, ⟨.finished, "1\n"⟩, ⟨.finished, ""⟩, ⟨.finished, "2\n"⟩] := by
    decide +kernel
  obtain ⟨answered, script⟩ := all _ _ (Prod.ext ran rfl) (by simp [Step.Escapes])
  obtain ⟨fuel, runs⟩ := script rfl (by decide +kernel) (by simp)
  exact ⟨answered, fuel, runs fuel (Nat.le_refl _)⟩

end CommandLine

end Script
