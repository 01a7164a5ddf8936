import Script.Proofs.Tracking.Session

/-! What a run finds wherever it uses a local.
The frames around it are those of the regions around its place, one for each, and the site leads to
the one that was opened for the region in which the name stands. -/
namespace Script

open Lexical

/-- An aligned frame has a chain of as many frames as there are layers, and the globals. -/
theorem Moment.Aligned.chain {t : Moment} {layers : List Layer} {frame : Nat}
    (h : t.Aligned layers frame)
    (rootless : t.machine.frames.parent? Machine.globals = none) :
    ∃ frames, t.machine.frames.chain frame = frames ++ [Machine.globals] ∧
      frames.map t.origin = layers.map fun l => some l.region := by
  induction layers generalizing frame with
  | nil =>
    cases h
    exact ⟨[], Frames.chain_of_none rootless, rfl⟩
  | cons l outer ih =>
    obtain ⟨horigin, _, parent, hparent, houter⟩ := h
    obtain ⟨frames, hchain, horigins⟩ := ih houter
    refine ⟨frame :: frames, ?_, ?_⟩
    · rw [Frames.chain_of_some hparent, hchain]
      rfl
    · rw [List.map_cons, List.map_cons, horigin, horigins]

theorem Lexical.Scoped.distance? {p : Position} {node : Node Site} {use : Use} {name : Name}
    {distance : Nat} (h : Scoped (p, node))
    (hu : node.use? = some (use, name, .local_ distance)) :
    p.distance? name.text = some distance := by
  have site : ∀ {key : String}, Site.local_ distance = p.site key →
      p.distance? key = some distance := by
    intro key hs
    unfold Position.site at hs
    split at hs
    · rename_i found
      cases hs
      exact found
    · cases hs
  cases node with
  | stmt s => cases hu
  | code params body => cases hu
  | expr e =>
    cases e with
    | «variable» n s => cases hu; exact site h
    | assign n s value => cases hu; exact site h
    | this line s => cases hu; exact site h.2
    | _ => cases hu

theorem Lexical.Position.layer_of_distance? {p : Position} {key : String} {distance : Nat}
    (h : p.distance? key = some distance) :
    ∃ l, p.layers[distance]? = some l ∧ l.holds key = true ∧
      ∀ i l', i < distance → p.layers[i]? = some l' → l'.holds key = false := by
  obtain ⟨hlt, hholds, hinner⟩ := List.findIdx?_eq_some_iff_getElem.mp h
  refine ⟨p.layers[distance], List.getElem?_eq_getElem hlt, hholds, fun i l' hi hl => ?_⟩
  obtain ⟨_, rfl⟩ := List.getElem?_eq_some_iff.mp hl
  simpa using hinner i hi

namespace Visit

def frame? (v : Visit) : Option Nat :=
  v.moment.machine.frames.ancestor? v.moment.machine.current v.distance

/-- The place lies in the initializer of the variable itself. -/
def Pending (v : Visit) : Prop :=
  ∃ l, v.position.layers[v.distance]? = some l ∧ (∃ n ∈ l.pending, n.text = v.name.text) ∧
    ∀ n ∈ l.visible, n.text ≠ v.name.text

/-- The use stands at a node of one of the programs and was given this site there. -/
def StandsIn (v : Visit) (programs : List (List BoundStmt)) : Prop :=
  ∃ number program node, programs[number]? = some program ∧
    (v.position, node) ∈ programNodes number program ∧
    node.use? = some (v.use, v.name, .local_ v.distance)

/-- The frames around a use are those of the regions around its place, and its site leads to the
frame of the region in which the name stands. -/
structure InPlace (v : Visit) : Prop where
  chain : ∃ frames,
    v.moment.machine.frames.chain v.moment.machine.current = frames ++ [Machine.globals] ∧
      frames.map v.moment.origin = v.position.layers.map fun l => some l.region
  found : ∃ l frame, v.position.distance? v.name.text = some v.distance ∧
    v.position.layers[v.distance]? = some l ∧ v.frame? = some frame ∧
      v.moment.origin frame = some l.region
  held : ∀ frame, v.frame? = some frame → v.moment.Holds frame v.name.text ∨
    v.Pending ∧ (frame, v.name.text) ∉ v.moment.settled

/-- The declaration has not been completed in the frame, and nothing was assigned there. -/
def Unsettled (v : Visit) : Prop :=
  v.Pending ∧ ∀ frame, v.frame? = some frame →
    (frame, v.name.text) ∉ v.moment.settled ∧ (frame, v.name.text) ∉ v.moment.assigned

section Recorded

variable {v : Visit} {G : Position × Node Site → Prop}

theorem Recorded.inPlace (h : v.Recorded G) (known : ∀ x, G x → Scoped x) : v.InPlace := by
  obtain ⟨node, hnode, huse⟩ := h.node
  have distance := (known _ hnode).distance? huse
  obtain ⟨l, hl, hholds, _⟩ := Position.layer_of_distance? distance
  obtain ⟨frame, hframe, _, horigin, hvisible⟩ := h.aligned.ancestor hl
  refine ⟨h.aligned.chain h.accounted.rootless, ⟨l, frame, distance, hl, hframe, horigin⟩, ?_⟩
  intro g hg
  cases hframe.symm.trans hg
  by_cases hv : ∃ n ∈ l.visible, n.text = v.name.text
  · obtain ⟨n, hn, htext⟩ := hv
    exact .inl (htext ▸ hvisible n hn)
  · by_cases hs : (frame, v.name.text) ∈ v.moment.settled
    · exact .inl (h.accounted.bound _ _ (.inl hs))
    · refine .inr ⟨⟨l, hl, ?_, fun n hn htext => hv ⟨n, hn, htext⟩⟩, hs⟩
      obtain ⟨n, hn, htext⟩ := List.any_eq_true.mp hholds
      have htext : n.text = v.name.text := by simpa using htext
      rcases List.mem_append.mp hn with hn | hn
      · exact ⟨n, hn, htext⟩
      · exact absurd ⟨n, hn, htext⟩ hv

/-- A name is missing just where its declaration is yet to be completed in the frame. -/
theorem Recorded.holds_iff (h : v.Recorded G) (known : ∀ x, G x → Scoped x) {frame : Nat}
    (hframe : v.frame? = some frame) :
    ¬ v.moment.Holds frame v.name.text ↔ v.Unsettled := by
  have inPlace := h.inPlace known
  constructor
  · intro hh
    rcases inPlace.held frame hframe with held | ⟨pending, _⟩
    · exact absurd held hh
    · refine ⟨pending, fun g hg => ?_⟩
      cases hframe.symm.trans hg
      exact ⟨fun hs => hh (h.accounted.bound _ _ (.inl hs)),
        fun ha => hh (h.accounted.bound _ _ (.inr ha))⟩
  · rintro ⟨⟨l, hl, _, hvisible⟩, hunset⟩ held
    obtain ⟨l', g, _, hl', hg, horigin⟩ := inPlace.found
    cases hl.symm.trans hl'
    cases hframe.symm.trans hg
    rcases h.accounted.keys _ _ _ horigin held with hparam | hs | ha
    · obtain ⟨n, hn, htext⟩ := List.mem_map.mp hparam
      exact hvisible n (l.params_visible n hn) htext
    · exact (hunset frame hframe).1 hs
    · exact (hunset frame hframe).2 ha

/-- A use fails for want of its name if it reads, and then only. -/
theorem absence?_eq_some {frame : Nat} (hframe : v.frame? = some frame) (absence : Absence) :
    v.absence? = some absence ↔ v.use ≠ .assign ∧ absence = .name v.name.text ∧
      ¬ v.moment.Holds frame v.name.text := by
  have value := Frames.valueAt_of_ancestor? hframe v.name.text
  unfold absence?
  split
  · rename_i hu
    exact ⟨fun h => absurd h (Option.some_ne_none _).symm, fun h => absurd hu h.1⟩
  · rename_i use hu
    have reads : v.use ≠ .assign := hu
    simp only [value]
    unfold Moment.Holds
    cases (v.moment.machine.frames.bindings frame).find? v.name.text with
    | none =>
      simp only [Option.some.injEq, ne_eq, not_true_eq_false, not_false_eq_true, and_true, reads,
        true_and]
      exact eq_comm
    | some value => simp

end Recorded

end Visit

namespace TrackedDialogue

theorem Sound.standsIn {d : TrackedDialogue} (h : d.Sound) {v : Visit} (hv : v ∈ d.visits) :
    v.StandsIn d.programs := by
  obtain ⟨node, ⟨number, program, hprogram, hnode⟩, huse⟩ := (h.state.visits v hv).node
  exact ⟨number, program, node, hprogram, hnode, huse⟩

/-- After any steps the account has changed nothing, and every use of a local that the latest of
them came to, in a program of that step or of an earlier one, is in place. -/
theorem uses_inPlace (limits : Limits) (clock : Nat → Float)
    (steps : List (CommandLine.Mode × String)) :
    let ended := (initial clock).converse limits steps
    Dialogue.converse limits steps (.initial clock) = (ended.1, ended.2.erase) ∧
      ∀ v ∈ ended.2.visits, v.StandsIn ended.2.programs ∧ v.InPlace := by
  obtain ⟨erased, sound⟩ := converse_answered limits steps (initial_sound clock)
  exact ⟨erased, fun v hv => ⟨sound.standsIn hv, (sound.state.visits v hv).inPlace sound.known⟩⟩

/-- A step that was not rejected finishes, fails, uses up its fuel or escapes for want of a name.
It escapes just where it comes to a reading use whose declaration is yet to be completed. -/
theorem escapes_iff_unsettled (limits : Limits) (clock : Nat → Float)
    (steps : List (CommandLine.Mode × String)) (mode : CommandLine.Mode) (source : String) :
    let d := ((initial clock).converse limits steps).2
    let ended := d.step limits mode source
    CommandLine.step limits mode source (Dialogue.converse limits steps (.initial clock)).2 =
        (ended.1, ended.2.erase) ∧
      (ended.1.outcome = .finished ∨ (∃ reports, ended.1.outcome = .rejected reports) ∨
        (∃ failure, ended.1.outcome = .failed failure) ∨ ended.1.outcome = .escaped .exhausted ∨
          ∃ key, ended.1.outcome = .escaped (.absent (.name key))) ∧
      ∀ key, ended.1.outcome = .escaped (.absent (.name key)) ↔
        ∃ v ∈ ended.2.visits, v.use ≠ .assign ∧ v.name.text = key ∧ v.Unsettled := by
  obtain ⟨before, sound⟩ := converse_answered limits steps (initial_sound clock)
  obtain ⟨erased, answered⟩ := step_answered limits mode source sound
  rw [show (Dialogue.converse limits steps (.initial clock)).2 =
    ((initial clock).converse limits steps).2.erase from congrArg Prod.snd before]
  refine ⟨erased, answered.outcome, fun key => ?_⟩
  have absent : ∀ v ∈ (step limits mode source ((initial clock).converse limits steps).2).2.visits,
      v.absence? = some (.name key) ↔
        v.use ≠ .assign ∧ v.name.text = key ∧ v.Unsettled := by
    intro v hv
    have recorded := answered.sound.state.visits v hv
    obtain ⟨_, frame, _, _, hframe, _⟩ := (recorded.inPlace answered.sound.known).found
    rw [Visit.absence?_eq_some hframe, recorded.holds_iff answered.sound.known hframe,
      Absence.name.injEq, eq_comm (a := key)]
  have escaped : ∀ ended : Outcome, ended = .escaped (.absent (.name key)) ↔
      Absence.name key ∈ ended.absence?.toList := by
    intro ended
    cases ended with
    | escaped e => cases e <;> simp [Outcome.absence?, Exit.absence?, eq_comm]
    | _ => simp [Outcome.absence?]
  rw [escaped, ← answered.absences, List.mem_filterMap]
  exact exists_congr fun v => and_congr_right fun hv => absent v hv

/-- The use of `a` stands in the initializer of `a`, with the region of the function between. -/
theorem call_in_own_initializer_escapes :
    (Dialogue.run .standard "\x7b var a = fun () \x7b return a; \x7d(); print a; \x7d"
      (.initial fun _ => 0)).1.outcome = .escaped (.absent (.name "a")) := by
  decide +kernel

end TrackedDialogue

end Script
