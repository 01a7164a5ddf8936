import Script.Proofs.Dialogue.Accepted
import Script.Proofs.Grammar.Joining
import Script.Proofs.Lexical.Joining
import Script.Proofs.Running.Fuel
import Script.Proofs.Running.Lines
import Script.Proofs.Source.Joining

/-! Sources given one after the other, or joined into one.
The program of two accepted sources that are joined is the program of the first and behind it that
of the second, further down. -/
namespace Script

open Lexical Grammar Binding Source

namespace Program

/-- The code of a source keeps its lines if the tokens do. -/
theorem code_relined {source : String} (h : Accepted source) {line : Nat → Nat}
    (same : ∀ t ∈ (scan source).tokens, line t.line = t.line) :
    translateStmts (.relined line) (fun site => site) (code source) = code source := by
  have tokens : (scan source).tokens.map (Renaming.relined line).token = (scan source).tokens := by
    refine (List.map_congr_left fun t ht => ?_).trans (List.map_id _)
    rw [relined_token, same t ht]
    rfl
  have read := (readProgram_renamed (ρ := .relined line) (scan source).tokens
    (scan source).endLine (scan source).endLine).1
  rw [tokens] at read
  have bound := bindProgram_binds (ρ := .relined line) 0 (ofSource source).statements
    fun x hx => ⟨plain source 0 x hx, respected_relined _ x⟩
  exact (bound.2.2 h.bound).1.symm.trans
    (congrArg (fun ss => (bindProgram ss).statements) read.symm)

/-- Two accepted sources that are joined are accepted, and are one program behind the other. -/
theorem accepted_joined {first second : String} (h : Accepted first) (h' : Accepted second) :
    Accepted (joined first second) ∧
      code (joined first second) = code first ++
        translateStmts (.relined (· + height first)) (fun site => site) (code second) ∧
      (ofSource (joined first second)).bound.occurrences.length =
        (ofSource first).bound.occurrences.length +
          (ofSource second).bound.occurrences.length := by
  obtain ⟨tokens, scanned⟩ := scan_joined first second h.scanned
  obtain ⟨moved, count⟩ := readProgram_renamed (ρ := .relined (· + height first))
    (scan second).tokens (scan second).endLine (scan second).endLine
  rw [h'.read, List.length_nil, List.length_eq_zero_iff] at count
  obtain ⟨read, statements⟩ := readProgram_append (scan (joined first second)).endLine h.read count
  rw [← tokens] at read statements
  have bound := bindProgram_append (plain first 0) h.bound
    (readProgram ((scan second).tokens.map (Renaming.relined (· + height first)).token)
      (scan second).endLine).statements
  obtain ⟨accepted, occurrences, code⟩ := bindProgram_binds (ρ := .relined (· + height first)) 0
    (ofSource second).statements fun x hx => ⟨plain second 0 x hx, respected_relined _ x⟩
  have whole : (ofSource (joined first second)).bound = _ :=
    (congrArg bindProgram statements).trans bound
  rw [moved] at whole
  refine ⟨⟨scanned h'.scanned, read, ?_⟩, ?_, ?_⟩
  · rw [whole]
    exact accepted.mpr h'.bound
  · rw [Program.code, whole]
    exact congrArg _ (code h'.bound).1
  · have length := congrArg List.length occurrences
    rw [List.length_map, List.length_map] at length
    rw [whole, List.length_append]
    exact congrArg _ length

end Program

namespace Dialogue

/-- A step ends: so it does with some fuel, and it is not the fuel that ends it. -/
def Ends (room : Nat) (source : String) (d : Dialogue) (shown : Step) (d' : Dialogue) : Prop :=
  shown.outcome ≠ .escaped .exhausted ∧ ∃ fuel, run ⟨room, fuel⟩ source d = (shown, d')

theorem outcomeOf_exhausted {r : EStateM.Result Exit Machine Unit} :
    outcomeOf r ≠ .escaped .exhausted ↔ ∀ m, r ≠ .error .exhausted m := by
  cases r with
  | ok a m => exact ⟨fun _ _ => nofun, fun _ => nofun⟩
  | error e m =>
    constructor
    · rintro h m' he
      cases he
      exact h rfl
    · intro h he
      cases e with
      | exhausted => exact h m rfl
      | _ => cases he

theorem ends_iff {room : Nat} {source : String} (h : Program.Accepted source) {d d' : Dialogue}
    {shown : Step} : Ends room source d shown d' ↔
      ∃ fuel r, Run.executeAll fuel room (Program.code source) d.begun = r ∧
        (∀ m, r ≠ .error .exhausted m) ∧ shown = shownBy r ∧
        d' = ⟨machineOf r, d.occurrences + (Program.ofSource source).bound.occurrences.length⟩ := by
  constructor
  · rintro ⟨ends, fuel, hrun⟩
    rw [run_accepted h] at hrun
    cases hrun
    exact ⟨fuel, _, rfl, outcomeOf_exhausted.mp ends, rfl, rfl⟩
  · rintro ⟨fuel, r, rfl, ends, rfl, rfl⟩
    exact ⟨outcomeOf_exhausted.mpr ends, fuel, run_accepted h _ d⟩

/-- A step ends in one way only. -/
theorem Ends.unique {room : Nat} {source : String} (h : Program.Accepted source)
    {d e e' : Dialogue} {shown shown' : Step} (ends : Ends room source d shown e)
    (ends' : Ends room source d shown' e') : shown' = shown ∧ e' = e := by
  obtain ⟨fuel, r, rfl, nonempty, rfl, rfl⟩ := (ends_iff h).mp ends
  obtain ⟨fuel', r', rfl, nonempty', rfl, rfl⟩ := (ends_iff h).mp ends'
  rw [Run.executeAll_unique nonempty' nonempty]
  exact ⟨rfl, rfl⟩

/-- A failure of a step is found in its own source: whatever the lines of the source are, it is
found on the line that stands for its own. -/
def FoundIn (room : Nat) (source : String) (d : Dialogue) (failure : Failure) : Prop :=
  ∃ fuel, ∀ line, (runBound ⟨room, fuel⟩
    (translateStmts (.relined line) (fun site => site) (Program.code source)) d.machine).1 =
      .failed ⟨failure.fault, line failure.line⟩

/-- Such a failure is on the line of a token of the source. -/
theorem FoundIn.exists_token {room : Nat} {source : String} (h : Program.Accepted source)
    {d : Dialogue} {failure : Failure} (found : FoundIn room source d failure) :
    ∃ t ∈ (scan source).tokens, t.line = failure.line := by
  obtain ⟨fuel, moves⟩ := found
  by_contra none
  -- with other lines where no token is, the program is the same
  have other := moves fun l => if ∃ t ∈ (scan source).tokens, t.line = l then l else l + 1
  have plain := moves fun l => l
  rw [Program.code_relined h fun _ _ => rfl] at plain
  rw [Program.code_relined h fun t ht => if_pos ⟨t, ht, rfl⟩, plain, if_neg none] at other
  simp at other

/-- One outcome is another one, so many lines further down where that is a failure found in its own
source. -/
inductive Moved (lines : Nat) (Own : Failure → Prop) : Outcome → Outcome → Prop
  | own (failure : Failure) (h : Own failure) :
    Moved lines Own (.failed failure) (.failed ⟨failure.fault, failure.line + lines⟩)
  | same (outcome : Outcome) (h : ∀ failure, outcome = .failed failure → ¬ Own failure) :
    Moved lines Own outcome outcome

section Moved

variable {room fuel : Nat} {source : String} {d : Dialogue}
  {ended : EStateM.Result Exit Machine Unit}

def Marked (room fuel : Nat) (source : String) (d : Dialogue)
    (ended : EStateM.Result Exit Machine Unit) : Prop :=
  ∀ line before, Run.executeAll fuel room
      (translateStmts (.relined line) (fun site => site) (Program.code source))
      { d.machine with output := before } =
    Run.onLines (Run.unmarked line) before (fun a => a) ended

theorem exists_marked (room fuel : Nat) (source : String) (d : Dialogue) :
    ∃ ended, Marked room fuel source d ended := by
  obtain ⟨ended, h⟩ := Run.executeAll_marked fuel room (Program.code source) d.begun
  refine ⟨ended, fun line before => ?_⟩
  have ran := h line before
  simp only [begun, String.append_empty] at ran
  exact ran

theorem Marked.plain (h : Marked room fuel source d ended) :
    Run.executeAll fuel room (Program.code source) d.begun =
      Run.onLines (Run.unmarked fun l => l) "" (fun a => a) ended := by
  have ran := h (fun l => l) ""
  rwa [show Renaming.relined (fun l => l) = .identity from rfl, translateStmts_identity] at ran

/-- What a run with other lines in its program fails of. -/
theorem Marked.runBound (h : Marked room fuel source d ended) (line : Nat → Nat) :
    (Dialogue.runBound ⟨room, fuel⟩
      (translateStmts (.relined line) (fun site => site) (Program.code source)) d.machine).1 =
      outcomeOf (Run.onLines (Run.unmarked line) "" (fun a => a) ended) := by
  rw [runBound_eq]
  exact congrArg outcomeOf (h line "")

/-- A failure found at a line that is none of the program's is not found in it. -/
theorem Marked.not_foundIn {m : Machine} {fault : Fault} {n : Nat}
    (h : Marked room fuel source d (.error (.failed ⟨fault, 2 * n⟩) m)) :
    ¬ FoundIn room source d ⟨fault, n⟩ := by
  rintro ⟨fuel', found⟩
  have here : Run.executeAll fuel room _ d.begun = _ := h (· + 1) ""
  have other : outcomeOf (Run.executeAll fuel' room _ d.begun) = _ :=
    (congrArg Prod.fst (runBound_eq _ _ d)).symm.trans (found (· + 1))
  simp only [Run.onLines, Exit.onLine, Run.unmarked_even] at here
  have ends := outcomeOf_exhausted.mp fun ended => by
    rw [other] at ended
    cases ended
  rw [Run.executeAll_unique ends (by rw [here]; exact fun _ he => by cases he), here] at other
  simp [outcomeOf, Outcome.ofExit] at other

theorem Marked.outcome (h : Marked room fuel source d ended) (lines : Nat) (before : String) :
    Moved lines (FoundIn room source d)
      (outcomeOf (Run.onLines (Run.unmarked fun l => l) "" (fun a => a) ended))
      (outcomeOf (Run.onLines (Run.unmarked (· + lines)) before (fun a => a) ended)) := by
  cases ended with
  | ok a m => exact .same _ fun _ he => by cases he
  | error e m =>
    cases e with
    | failed failure =>
      obtain ⟨fault, marked⟩ := failure
      simp only [Run.onLines, Exit.onLine, outcomeOf, Outcome.ofExit]
      obtain ⟨n, rfl | rfl⟩ : ∃ n, marked = 2 * n ∨ marked = 2 * n + 1 := ⟨marked / 2, by omega⟩
      · simp only [Run.unmarked_even]
        refine .same _ fun failure hf => ?_
        cases hf
        exact h.not_foundIn
      · simp only [Run.unmarked_odd]
        refine .own ⟨fault, n⟩ ⟨fuel, fun line => (h.runBound line).trans ?_⟩
        simp only [Run.onLines, Exit.onLine, outcomeOf, Outcome.ofExit, Run.unmarked_odd]
    | _ => exact .same _ fun _ he => by cases he

end Moved

theorem globals_of_machine {d d' : Dialogue} (h : d.machine = d'.machine) :
    d.globals = d'.globals := by
  simp only [globals, h]

theorem globals_relined {line : Nat → Nat} {before : String} {d d' : Dialogue} {m : Machine}
    (h : d.machine = m.relined line before) (h' : d'.machine = m.relined line' before') :
    d.globals = d'.globals := by
  simp only [globals, h, h', Run.Moves.text]
  rfl

theorem machineOf_onLines (line : Nat → Nat) (before : String)
    (r : EStateM.Result Exit Machine Unit) :
    machineOf (Run.onLines line before (fun a => a) r) = (machineOf r).relined line before := by
  cases r <;> rfl

section Joined

variable {room : Nat} {first second : String} {d : Dialogue}

theorem onLines_exhausted {line : Nat → Nat} {before : String}
    {r : EStateM.Result Exit Machine Unit} :
    (∀ m, Run.onLines line before (fun a => a) r ≠ .error .exhausted m) ↔
      ∀ m, r ≠ .error .exhausted m := by
  cases r with
  | ok a m => exact ⟨fun _ _ => nofun, fun _ _ => nofun⟩
  | error e m =>
    constructor
    · rintro h m' he
      cases he
      exact h _ rfl
    · rintro h m' he
      cases e <;> cases he
      exact h _ rfl

/-- A first source that does not finish ends the joined one. -/
theorem ends_joined_unfinished (h : Program.Accepted first) (h' : Program.Accepted second)
    {shown : Step} {d' : Dialogue} (ends : Ends room first d shown d')
    (unfinished : shown.outcome ≠ .finished) :
    ∃ d'', Ends room (joined first second) d shown d'' ∧ d''.globals = d'.globals := by
  obtain ⟨accepted, code, -⟩ := Program.accepted_joined h h'
  obtain ⟨fuel, r, hr, nonempty, rfl, rfl⟩ := (ends_iff h).mp ends
  cases r with
  | ok a m => exact absurd rfl unfinished
  | error e m =>
    refine ⟨_, (ends_iff accepted).mpr ⟨fuel, .error e m, ?_, nonempty, rfl, rfl⟩,
      globals_of_machine rfl⟩
    rw [code, Run.executeAll_append]
    simp only [Bind.bind, EStateM.bind, hr]

/-- Behind a first source that finishes the second one runs in the joined one as on its own. -/
theorem ends_joined_finished (h : Program.Accepted first) (h' : Program.Accepted second)
    {shown shown' : Step} {d' d'' : Dialogue} (ends : Ends room first d shown d')
    (finished : shown.outcome = .finished) (ends' : Ends room second d' shown' d'') :
    ∃ outcome e, Ends room (joined first second) d ⟨outcome, shown.output ++ shown'.output⟩ e ∧
      Moved (height first) (FoundIn room second d') shown'.outcome outcome ∧
      e.globals = d''.globals ∧ e.occurrences = d''.occurrences := by
  obtain ⟨accepted, code, count⟩ := Program.accepted_joined h h'
  obtain ⟨fuel, r, hr, nonempty, rfl, rfl⟩ := (ends_iff h).mp ends
  obtain ⟨fuel', r', hr', nonempty', rfl, rfl⟩ := (ends_iff h').mp ends'
  cases r with
  | error e m => cases e <;> cases finished
  | ok a m =>
    -- one marked run stands for the second source on its own lines and for it further down
    obtain ⟨ended, marked⟩ := exists_marked room fuel' second
      ⟨m, d.occurrences + (Program.ofSource first).bound.occurrences.length⟩
    have alone : r' = _ := hr'.symm.trans marked.plain
    subst alone
    rw [onLines_exhausted] at nonempty'
    have behind := marked (· + height first) m.output
    have ran : Run.executeAll (fuel + (Program.code first).length + fuel') room
        (Program.code (joined first second)) d.begun =
          Run.onLines (Run.unmarked (· + height first)) m.output (fun a => a) ended := by
      rw [code, Run.executeAll_append]
      have longer : fuel ≤ fuel + (Program.code first).length + fuel' := by omega
      simp only [Bind.bind, EStateM.bind, Run.executeAll_lasts hr nonempty longer]
      exact Run.executeAll_lasts behind (onLines_exhausted.mpr nonempty') (by omega)
    refine ⟨_, _, (ends_iff accepted).mpr ⟨_, _, ran, onLines_exhausted.mpr nonempty', ?_, rfl⟩,
      marked.outcome (height first) m.output, ?_, ?_⟩
    · simp only [shownBy, machineOf_onLines]
      simp only [machineOf, Machine.relined, String.empty_append]
    · exact globals_relined (machineOf_onLines _ _ _) (machineOf_onLines _ _ _)
    · show d.occurrences + _ = d.occurrences + _ + _
      rw [count, Nat.add_assoc]

/-- Where the joined source ends, so does the first one, and so does the second behind it. -/
theorem ends_of_joined (h : Program.Accepted first) (h' : Program.Accepted second)
    {shown : Step} {e : Dialogue} (ends : Ends room (joined first second) d shown e) :
    ∃ shown' d', Ends room first d shown' d' ∧
      (shown'.outcome = .finished → ∃ shown'' d'', Ends room second d' shown'' d'') := by
  obtain ⟨accepted, code, -⟩ := Program.accepted_joined h h'
  obtain ⟨fuel, r, hr, nonempty, -, -⟩ := (ends_iff accepted).mp ends
  rw [code, Run.executeAll_append] at hr
  simp only [Bind.bind, EStateM.bind] at hr
  cases hfirst : Run.executeAll fuel room (Program.code first) d.begun with
  | error e m =>
    rw [hfirst] at hr
    subst hr
    refine ⟨_, _, (ends_iff h).mpr ⟨fuel, _, hfirst, nonempty, rfl, rfl⟩, fun finished => ?_⟩
    cases e <;> cases finished
  | ok a m =>
    rw [hfirst] at hr
    refine ⟨_, _, (ends_iff h).mpr ⟨fuel, _, hfirst, fun _ => nofun, rfl, rfl⟩, fun _ => ?_⟩
    obtain ⟨ended, marked⟩ := exists_marked room (fuel - (Program.code first).length) second
      ⟨m, d.occurrences + (Program.ofSource first).bound.occurrences.length⟩
    have behind : r = _ := hr.symm.trans (marked (· + height first) m.output)
    rw [behind, onLines_exhausted] at nonempty
    exact ⟨_, _, (ends_iff h').mpr ⟨_, _, marked.plain, onLines_exhausted.mpr nonempty, rfl, rfl⟩⟩

end Joined

/-- Two accepted sources that are joined are accepted. From any state, the joined source does what
the second does behind the first: it prints what both print, binds as many uses, leaves the same
globals and ends as the second does, a failure being further down by the height of the first source
exactly where it is found in the second, which is on the line of one of its tokens. Where the first
does not finish, the joined source ends as that one does. It ends if they do, and only then. None of
them ends in two ways. -/
theorem run_joined (room : Nat) (first second : String) (d : Dialogue)
    (accepted : Program.check first = []) (accepted' : Program.check second = []) :
    Program.check (joined first second) = [] ∧
      (∀ shown d' shown' d'', Ends room first d shown d' → shown.outcome = .finished →
        Ends room second d' shown' d'' →
        ∃ outcome e, Ends room (joined first second) d ⟨outcome, shown.output ++ shown'.output⟩ e ∧
          Moved (height first) (FoundIn room second d') shown'.outcome outcome ∧
          e.globals = d''.globals ∧ e.occurrences = d''.occurrences) ∧
      (∀ shown d', Ends room first d shown d' → shown.outcome ≠ .finished →
        ∃ e, Ends room (joined first second) d shown e ∧ e.globals = d'.globals) ∧
      (∀ shown e, Ends room (joined first second) d shown e →
        ∃ shown' d', Ends room first d shown' d' ∧
          (shown'.outcome = .finished → ∃ shown'' d'', Ends room second d' shown'' d'')) ∧
      (∀ d' failure, FoundIn room second d' failure →
        ∃ t ∈ (scan second).tokens, t.line = failure.line) ∧
      ∀ source ∈ [first, second, joined first second], ∀ d shown e shown' e',
        Ends room source d shown e → Ends room source d shown' e' → shown' = shown ∧ e' = e := by
  have h := (Program.accepted_iff first).mp accepted
  have h' := (Program.accepted_iff second).mp accepted'
  have both := (Program.accepted_joined h h').1
  refine ⟨(Program.accepted_iff _).mpr both, ?finished, ?unfinished, ?ends, ?found, ?unique⟩
  case finished =>
    intro shown d' shown' d'' ends finished ends'
    exact ends_joined_finished h h' ends finished ends'
  case unfinished =>
    intro shown d' ends unfinished
    exact ends_joined_unfinished h h' ends unfinished
  case ends =>
    intro shown e ends
    exact ends_of_joined h h' ends
  case found =>
    intro d' failure found
    exact found.exists_token h'
  case unique =>
    intro source mem d shown e shown' e' ends ends'
    have accepted : Program.Accepted source := by
      simp only [List.mem_cons, List.not_mem_nil, or_false] at mem
      rcases mem with rfl | rfl | rfl
      · exact h
      · exact h'
      · exact both
    exact ends.unique accepted ends'

/-- A source that ends with a comment and one that uses what it declares. -/
def declaring : String := "fun f(a) \x7b return a; \x7d\nprint f; // here"
def calling : String := "if (f(true)) print f(nil);"

theorem run_joined_declaring :
    Program.check declaring = [] ∧ Program.check calling = [] ∧
      Program.check (joined declaring calling) = [] ∧
      ∃ e, Ends 10 (joined declaring calling) (.initial fun _ => 0)
        ⟨.finished, "<fn f>\nnone\n"⟩ e := by
  have accepted : Program.check declaring = [] := by decide +kernel
  have accepted' : Program.check calling = [] := by decide +kernel
  obtain ⟨both, behind, -⟩ := run_joined 10 declaring calling (.initial fun _ => 0) accepted accepted'
  have ends : Ends 10 declaring (.initial fun _ => 0) ⟨.finished, "<fn f>\n"⟩
      (run ⟨10, 20⟩ declaring (.initial fun _ => 0)).2 :=
    ⟨nofun, 20, Prod.ext (by decide +kernel) rfl⟩
  have ends' : Ends 10 calling (run ⟨10, 20⟩ declaring (.initial fun _ => 0)).2
      ⟨.finished, "none\n"⟩
      (run ⟨10, 20⟩ calling (run ⟨10, 20⟩ declaring (.initial fun _ => 0)).2).2 :=
    ⟨nofun, 20, Prod.ext (by decide +kernel) rfl⟩
  obtain ⟨outcome, e, ran, moved, -⟩ := behind _ _ _ _ ends rfl ends'
  cases moved
  exact ⟨accepted, accepted', both, e, ran⟩

end Dialogue

end Script
