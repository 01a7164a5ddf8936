import Script.Proofs.Running.Related
import Script.Proofs.Tracking.Invariant

/-! How a run of the renamed program follows a tracked run.
The two end in the same way, with the same value or with exits that differ in lines and names only,
and the invariant holds at the end of both however they end. -/
namespace Script

open Lexical Moment

namespace Exit

def absence? : Exit → Option Absence
  | absent absence => some absence
  | _ => none

/-- What can leave a place: a jump only within a loop, a returned value only within a function, and
a frame is never absent. -/
def Allowed (inLoop inFunction : Bool) : Exit → Prop
  | jumped _ => inLoop = true
  | returned _ => inFunction = true
  | absent absence => ∃ key, absence = .name key
  | _ => True

def onLine (line : Nat → Nat) : Exit → Exit
  | failed failure => failed ⟨failure.fault, line failure.line⟩
  | e => e

inductive Renamed (ρ : Renaming) : Exit → Exit → Prop
  | same (e : Exit) : Renamed ρ e (e.onLine ρ.line)
  | absent (n : Name) : Renamed ρ (.absent (.name n.text)) (.absent (.name (ρ.text n)))

theorem Allowed.weaken {inLoop inFunction : Bool} {e : Exit} (h : e.Allowed false false) :
    e.Allowed inLoop inFunction := by
  cases e with
  | jumped j => cases h
  | returned v => cases h
  | _ => exact h

theorem Renamed.eq_of_identity {e e' : Exit} (h : e.Renamed .identity e') : e' = e := by
  cases h with
  | same => cases e <;> rfl
  | absent n => rfl

end Exit

variable (ρ : Renaming) (G : Position × Node Site → Prop)

/-- What a part leaves behind, whether it ends with a value or, if so without a local, an exit. -/
structure Kept (t t' : Tracked) (m' : Machine) (absence? : Option Absence) : Prop where
  sound : t'.Sound ρ G
  renamed : t'.Renamed ρ m'
  extends_ : t.Extends t'.toMoment
  current : t'.machine.current = t.machine.current
  visits : ∃ more, t'.visits = more ++ t.visits ∧
    more.filterMap Visit.absence? = absence?.toList

variable {α β γ δ : Type}

inductive Ends (inLoop inFunction : Bool) (Q : α → β → Moment → Prop) (t : Tracked) :
    EStateM.Result Exit Tracked α → EStateM.Result Exit Machine β → Prop
  | ok {a b t' m'} (kept : Kept ρ G t t' m' none) (post : Q a b t'.toMoment) :
    Ends inLoop inFunction Q t (.ok a t') (.ok b m')
  | error {e e' t' m'} (kept : Kept ρ G t t' m' e.absence?) (allowed : e.Allowed inLoop inFunction)
    (renamed : e.Renamed ρ e') : Ends inLoop inFunction Q t (.error e t') (.error e' m')

/-- The second run follows the first wherever the precondition holds. -/
def Follows (inLoop inFunction : Bool) (P : Moment → Prop) (x : TrackedRun α) (y : Run β)
    (Q : α → β → Moment → Prop) : Prop :=
  ∀ (t : Tracked) (m : Machine), t.Sound ρ G → t.Renamed ρ m → P t.toMoment →
    Ends ρ G inLoop inFunction Q t (x t) (y m)

/-- A condition that nothing undoes as long as the current frame is the same. -/
def Stable (P : Moment → Prop) : Prop :=
  ∀ t t' : Moment, t.Extends t' → t'.machine.current = t.machine.current → P t → P t'

def Same (a b : α) (_ : Moment) : Prop := a = b

def Moment.At (layers : List Layer) (t : Moment) : Prop := t.Aligned layers t.machine.current

theorem stable_at (layers : List Layer) : Stable (Moment.At layers) := by
  intro t t' he hc h
  unfold Moment.At
  rw [hc]
  exact Aligned.extend h he

theorem stable_aligned (layers : List Layer) (frame : Nat) :
    Stable (fun t => t.Aligned layers frame) :=
  fun _ _ he _ h => h.extend he

theorem Stable.and {P Q : Moment → Prop} (hp : Stable P) (hq : Stable Q) :
    Stable (fun t => P t ∧ Q t) :=
  fun t t' he hc h => ⟨hp t t' he hc h.1, hq t t' he hc h.2⟩

namespace Tracked

/-- The invariant goes on where what is new is sound. -/
theorem Sound.step {ρ : Renaming} {G : Position × Node Site → Prop} {t t' : Tracked}
    (h : t.Sound ρ G) (he : t.Extends t'.toMoment) (accounted : t'.Accounted)
    (functions : ∀ (r : Nat) (c : Closure), t'.machine.closures[r]? = some c →
      t.machine.closures[r]? = some c ∧ t'.functionAt r = t.functionAt r ∨
        c.Sound ρ G t'.toMoment (t'.functionAt r))
    (classes : ∀ (r : Nat) (c : Class), t'.machine.classes[r]? = some c →
      t.machine.classes[r]? = some c ∧ t'.classAt r = t.classAt r ∨
        c.Sound ρ G t'.toMoment (t'.classAt r))
    (visits : ∀ v ∈ t'.visits, v ∈ t.visits ∨ v.Recorded G) : t'.Sound ρ G where
  accounted := accounted
  functions r c hc := by
    rcases functions r c hc with ⟨hold, hat⟩ | hnew
    · exact hat ▸ (h.functions r c hold).extend he
    · exact hnew
  classes r c hc := by
    rcases classes r c hc with ⟨hold, hat⟩ | hnew
    · exact hat ▸ (h.classes r c hold).extend he
    · exact hnew
  visits v hv := (visits v hv).elim (h.visits v) fun hnew => hnew

theorem Sound.reframe {ρ : Renaming} {G : Position × Node Site → Prop} {t : Tracked}
    (h : t.Sound ρ G) (frame : Nat) :
    Sound ρ G { t with machine := { t.machine with current := frame } } :=
  h.step (.of_same rfl rfl) (h.accounted.of_same rfl rfl rfl rfl) (fun _ _ hc => .inl ⟨hc, rfl⟩)
    (fun _ _ hc => .inl ⟨hc, rfl⟩) fun _ hv => .inl hv

end Tracked

theorem Moment.Renamed.reframe {ρ : Renaming} {t : Moment} {m : Machine} (h : t.Renamed ρ m)
    (frame : Nat) :
    Moment.Renamed ρ { t with machine := { t.machine with current := frame } }
      { m with current := frame } :=
  { h with current := rfl }

namespace Kept

variable {ρ G} {t t' t'' : Tracked} {m' m'' : Machine} {absence? : Option Absence}

theorem trans (h : Kept ρ G t t' m' none) (h' : Kept ρ G t' t'' m'' absence?) :
    Kept ρ G t t'' m'' absence? where
  sound := h'.sound
  renamed := h'.renamed
  extends_ := h.extends_.trans h'.extends_
  current := h'.current.trans h.current
  visits := by
    obtain ⟨more, hmore, hnone⟩ := h.visits
    obtain ⟨more', hmore', habsence⟩ := h'.visits
    refine ⟨more' ++ more, by rw [hmore', hmore, List.append_assoc], ?_⟩
    rw [List.filterMap_append, hnone, habsence]
    exact List.append_nil _

/-- A state in which only what the account does not look at has changed. -/
theorem of_same {m' : Machine} (h : t.Sound ρ G) (renamed : t'.Renamed ρ m')
    (frames : t'.machine.frames = t.machine.frames)
    (current : t'.machine.current = t.machine.current)
    (closures : t'.machine.closures = t.machine.closures)
    (classes : t'.machine.classes = t.machine.classes) (origin : t'.origin = t.origin)
    (functionAt : t'.functionAt = t.functionAt) (classAt : t'.classAt = t.classAt)
    (settled : t'.settled = t.settled) (assigned : t'.assigned = t.assigned)
    (visits : t'.visits = t.visits) : Kept ρ G t t' m' none where
  sound := by
    refine h.step (.of_same frames origin) (h.accounted.of_same frames origin settled assigned)
      (fun r c hc => .inl ?_) (fun r c hc => .inl ?_) (fun v hv => .inl ?_)
    · rw [closures] at hc
      exact ⟨hc, by rw [functionAt]⟩
    · rw [classes] at hc
      exact ⟨hc, by rw [classAt]⟩
    · rwa [visits] at hv
  renamed := renamed
  extends_ := .of_same frames origin
  current := current
  visits := ⟨[], visits, rfl⟩

theorem reframe {frame : Nat}
    (h : Kept ρ G { t with machine := { t.machine with current := frame } } t' m' absence?) :
    Kept ρ G t { t' with machine := { t'.machine with current := t.machine.current } }
      { m' with current := t.machine.current } absence? where
  sound := h.sound.reframe _
  renamed := h.renamed.reframe _
  extends_ := ⟨h.extends_.next, h.extends_.parent, h.extends_.holds, h.extends_.origin⟩
  current := rfl
  visits := h.visits

theorem refl {m : Machine} (h : t.Sound ρ G) (renamed : t.Renamed ρ m) : Kept ρ G t t m none :=
  of_same h renamed rfl rfl rfl rfl rfl rfl rfl rfl rfl rfl

end Kept

theorem Ends.behind {ρ : Renaming} {G : Position × Node Site → Prop} {inLoop inFunction : Bool}
    {Q : α → β → Moment → Prop} {t t' : Tracked} {m' : Machine}
    {r : EStateM.Result Exit Tracked α} {r' : EStateM.Result Exit Machine β}
    (h : Ends ρ G inLoop inFunction Q t' r r') (kept : Kept ρ G t t' m' none) :
    Ends ρ G inLoop inFunction Q t r r' := by
  cases h with
  | ok kept' post => exact .ok (kept.trans kept') post
  | error kept' allowed renamed => exact .error (kept.trans kept') allowed renamed

namespace Follows

variable {ρ G} {inLoop inFunction : Bool} {P P' : Moment → Prop} {x : TrackedRun α} {y : Run β}
  {Q Q' : α → β → Moment → Prop}

theorem weaken (h : Follows ρ G inLoop inFunction P x y Q) (pre : ∀ t, P' t → P t)
    (post : ∀ a b t, Q a b t → Q' a b t) : Follows ρ G inLoop inFunction P' x y Q' := by
  intro t m hs hr hp
  have he := h t m hs hr (pre _ hp)
  generalize x t = rx at he ⊢
  generalize y m = ry at he ⊢
  cases he with
  | ok kept hq => exact .ok kept (post _ _ _ hq)
  | error kept allowed renamed => exact .error kept allowed renamed

theorem pre (h : Follows ρ G inLoop inFunction P x y Q) (pre : ∀ t, P' t → P t) :
    Follows ρ G inLoop inFunction P' x y Q :=
  h.weaken pre fun _ _ _ hq => hq

theorem anywhere (h : Follows ρ G false false P x y Q) : Follows ρ G inLoop inFunction P x y Q := by
  intro t m hs hr hp
  have he := h t m hs hr hp
  generalize x t = rx at he ⊢
  generalize y m = ry at he ⊢
  cases he with
  | ok kept hq => exact .ok kept hq
  | error kept allowed renamed => exact .error kept allowed.weaken renamed

theorem pure {a : α} {b : β} (h : ∀ t, P t → Q a b t) :
    Follows ρ G inLoop inFunction P (Pure.pure a) (Pure.pure b) Q :=
  fun _ _ hs hr hp => .ok (.refl hs hr) (h _ hp)

theorem exit {e : Exit} (allowed : e.Allowed inLoop inFunction) (h : e.absence? = none) :
    Follows ρ G inLoop inFunction P (TrackedRun.lift (Run.exit e)) (Run.exit (e.onLine ρ.line)) Q :=
  fun _ _ hs hr _ => .error (h ▸ .refl hs hr) allowed (.same e)

theorem fail {line : Nat} {fault : Fault} :
    Follows ρ G inLoop inFunction P (TrackedRun.lift (Run.fail line fault))
      (Run.fail (ρ.line line) fault) Q :=
  exit (e := .failed ⟨fault, line⟩) trivial rfl

theorem ofExcept {line : Nat} (r : Except Fault α) :
    Follows ρ G inLoop inFunction P (TrackedRun.lift (Run.ofExcept line r))
      (Run.ofExcept (ρ.line line) r) Same := by
  cases r with
  | ok a => exact pure fun _ _ => rfl
  | error fault => exact fail

theorem bind {f : α → TrackedRun γ} {g : β → Run δ} {R : γ → δ → Moment → Prop}
    (h : Follows ρ G inLoop inFunction P x y Q) (stable : Stable P)
    (hf : ∀ a b, Follows ρ G inLoop inFunction (fun t => P t ∧ Q a b t) (f a) (g b) R) :
    Follows ρ G inLoop inFunction P (x >>= f) (y >>= g) R := by
  intro t m hs hr hp
  have he := h t m hs hr hp
  simp only [Bind.bind, EStateM.bind]
  generalize x t = rx at he ⊢
  generalize y m = ry at he ⊢
  cases he with
  | error kept allowed renamed => exact .error kept allowed renamed
  | @ok a b t' m' kept hq =>
    have hp' := stable _ _ kept.extends_ kept.current hp
    exact (hf a b t' m' kept.sound kept.renamed ⟨hp', hq⟩).behind kept

theorem bind_same {y : Run α} {f : α → TrackedRun γ} {g : α → Run δ} {R : γ → δ → Moment → Prop}
    (h : Follows ρ G inLoop inFunction P x y Same) (stable : Stable P)
    (hf : ∀ a, Follows ρ G inLoop inFunction P (f a) (g a) R) :
    Follows ρ G inLoop inFunction P (x >>= f) (y >>= g) R :=
  h.bind stable fun a b t m hs hr hp => by
    obtain ⟨hp, rfl⟩ := hp
    exact hf a t m hs hr hp

theorem within (frame : Nat) {y : Run α} (h : Follows ρ G inLoop inFunction P x y Same)
    (pre : ∀ t : Moment, P' t → P { t with machine := { t.machine with current := frame } }) :
    Follows ρ G inLoop inFunction P' (tracking.within frame x) (Run.within frame y) Same := by
  intro t m hs hr hp
  have he := h _ _ (hs.reframe frame) (hr.reframe frame) (pre _ hp)
  simp only [Instrument.within, tracking, Run.within]
  rw [hr.current]
  generalize x _ = rx at he ⊢
  generalize y _ = ry at he ⊢
  cases he with
  | ok kept hq => exact .ok kept.reframe hq
  | error kept allowed renamed => exact .error kept.reframe allowed renamed

/-- What is so behind a part may be forgotten. -/
theorem ignoring {x : TrackedRun Unit} {y : Run Unit} {Q : Unit → Unit → Moment → Prop}
    (h : Follows ρ G inLoop inFunction P x y Q) : Follows ρ G inLoop inFunction P x y Same :=
  h.weaken (fun _ ht => ht) fun _ _ _ _ => rfl

/-- What a body returns does not leave the function. -/
theorem returning {q : Position} {x : TrackedRun Unit} {y : Run Unit}
    (h : Follows ρ G false true P x y Same) :
    Follows ρ G false false P (tracking.returning q x) (Run.returning y) Same := by
  intro t m hs hr hp
  have he := h t m hs hr hp
  simp only [Instrument.returning, Run.returning]
  generalize x t = rx at he ⊢
  generalize y m = ry at he ⊢
  cases he with
  | ok kept _ => exact .ok kept rfl
  | @error e e' t' m' kept allowed renamed =>
    cases renamed with
    | absent n => exact .error kept allowed (.absent n)
    | same =>
      cases e with
      | jumped jump => cases allowed
      | returned v => exact .ok kept rfl
      | failed failure => exact .error kept trivial (.same (.failed failure))
      | absent absence => exact .error kept allowed (.same (.absent absence))
      | exhausted => exact .error kept trivial (.same .exhausted)

theorem goesOn {q : Position} {x : TrackedRun Unit} {y : Run Unit}
    (h : Follows ρ G true inFunction P x y Same) :
    Follows ρ G inLoop inFunction P (tracking.goesOn q x) (Run.goesOn y) Same := by
  intro t m hs hr hp
  have he := h t m hs hr hp
  simp only [Instrument.goesOn, Run.goesOn]
  generalize x t = rx at he ⊢
  generalize y m = ry at he ⊢
  cases he with
  | ok kept _ => exact .ok kept rfl
  | @error e e' t' m' kept allowed renamed =>
    cases renamed with
    | absent n => exact .error kept allowed (.absent n)
    | same =>
      cases e with
      | jumped jump => cases jump <;> exact .ok kept rfl
      | returned v => exact .error kept allowed (.same (.returned v))
      | failed failure => exact .error kept trivial (.same (.failed failure))
      | absent absence => exact .error kept allowed (.same (.absent absence))
      | exhausted => exact .error kept trivial (.same .exhausted)

theorem continuing {q : Position} {x : TrackedRun Unit} {y : Run Unit}
    (h : Follows ρ G inLoop inFunction P x y Same) :
    Follows ρ G inLoop inFunction P (tracking.continuing q x) (Run.continuing y) Same := by
  intro t m hs hr hp
  have he := h t m hs hr hp
  simp only [Instrument.continuing, Run.continuing]
  generalize x t = rx at he ⊢
  generalize y m = ry at he ⊢
  cases he with
  | ok kept _ => exact .ok kept rfl
  | @error e e' t' m' kept allowed renamed =>
    cases renamed with
    | absent n => exact .error kept allowed (.absent n)
    | same =>
      cases e with
      | jumped jump =>
        cases jump with
        | continue_ => exact .ok kept rfl
        | break_ => exact .error kept allowed (.same (.jumped .break_))
      | returned v => exact .error kept allowed (.same (.returned v))
      | failed failure => exact .error kept trivial (.same (.failed failure))
      | absent absence => exact .error kept allowed (.same (.absent absence))
      | exhausted => exact .error kept trivial (.same .exhausted)

end Follows

end Script
