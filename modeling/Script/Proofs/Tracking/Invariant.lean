import Script.Proofs.Store
import Script.Proofs.Lexical.Renaming
import Script.Proofs.Tracking.Run

/-! What holds of a tracked state at every moment.
A frame is aligned with a list of layers when its chain of links has one frame for each of them,
opened for the region of the layer and holding the names that are visible, and ends at the globals.
-/
namespace Script

open Lexical

namespace Moment

def Holds (t : Moment) (frame : Nat) (key : String) : Prop :=
  (t.machine.frames.bindings frame).find? key ≠ none

/-- The chain of a frame is aligned with layers, innermost first. -/
def Aligned (t : Moment) : List Layer → Nat → Prop
  | [], frame => frame = Machine.globals
  | l :: outer, frame =>
    t.origin frame = some l.region ∧ (∀ n ∈ l.visible, t.Holds frame n.text) ∧
      ∃ parent, t.machine.frames.parent? frame = some parent ∧ t.Aligned outer parent

structure Extends (t t' : Moment) : Prop where
  next : t.machine.frames.next ≤ t'.machine.frames.next
  parent : ∀ f g, t.machine.frames.parent? f = some g → t'.machine.frames.parent? f = some g
  holds : ∀ f key, t.Holds f key → t'.Holds f key
  origin : ∀ f, f < t.machine.frames.next → t'.origin f = t.origin f

/-- The account of the frames is complete: a frame that was opened for a region holds the names it
started with, those declared and those assigned, and no other. -/
structure Accounted (t : Moment) : Prop where
  nonempty : Machine.globals < t.machine.frames.next
  rootless : t.machine.frames.parent? Machine.globals = none
  regionless : t.origin Machine.globals = none
  keys : ∀ f r key, t.origin f = some r → t.Holds f key →
    key ∈ r.params.map Name.text ∨ (f, key) ∈ t.settled ∨ (f, key) ∈ t.assigned
  bound : ∀ f key, (f, key) ∈ t.settled ∨ (f, key) ∈ t.assigned → t.Holds f key

variable {t t' t'' : Moment}

theorem Holds.lt {frame : Nat} {key : String} (h : t.Holds frame key) :
    frame < t.machine.frames.next := by
  unfold Holds Frames.bindings at h
  cases hf : t.machine.frames.frame? frame with
  | none => simp only [hf, Option.map_none, Option.getD_none, Bindings.find?, ne_eq,
      not_true_eq_false] at h
  | some f => exact Frames.frame?_lt hf

theorem Extends.refl (t : Moment) : t.Extends t :=
  ⟨Nat.le_refl _, fun _ _ h => h, fun _ _ h => h, fun _ _ => rfl⟩

theorem Extends.trans (h : t.Extends t') (h' : t'.Extends t'') : t.Extends t'' where
  next := Nat.le_trans h.next h'.next
  parent f g hp := h'.parent f g (h.parent f g hp)
  holds f key hk := h'.holds f key (h.holds f key hk)
  origin f hf := (h'.origin f (Nat.lt_of_lt_of_le hf h.next)).trans (h.origin f hf)

theorem Extends.of_same (hf : t'.machine.frames = t.machine.frames) (ho : t'.origin = t.origin) :
    t.Extends t' where
  next := Nat.le_of_eq (by rw [hf])
  parent f g h := by rw [hf]; exact h
  holds f key h := by unfold Holds; rw [hf]; exact h
  origin f _ := by rw [ho]

theorem Aligned.extend {layers : List Layer} {frame : Nat} (h : t.Aligned layers frame)
    (he : t.Extends t') : t'.Aligned layers frame := by
  induction layers generalizing frame with
  | nil => exact h
  | cons l outer ih =>
    obtain ⟨horigin, hvisible, parent, hparent, houter⟩ := h
    exact ⟨(he.origin _ (Frames.lt_of_parent? hparent)).trans horigin,
      fun n hn => he.holds _ _ (hvisible n hn), parent, he.parent _ _ hparent, ih houter⟩

theorem Aligned.lt {layers : List Layer} {frame : Nat} (h : t.Aligned layers frame)
    (hn : Machine.globals < t.machine.frames.next) : frame < t.machine.frames.next := by
  cases layers with
  | nil => exact h.symm ▸ hn
  | cons l outer =>
    obtain ⟨_, _, parent, hparent, _⟩ := h
    exact Frames.lt_of_parent? hparent

/-- The frame of a layer is as many links away as the layer is far out. -/
theorem Aligned.ancestor {layers : List Layer} {frame : Nat} (h : t.Aligned layers frame)
    {distance : Nat} {l : Layer} (hl : layers[distance]? = some l) :
    ∃ g, t.machine.frames.ancestor? frame distance = some g ∧ g < t.machine.frames.next ∧
      t.origin g = some l.region ∧ ∀ n ∈ l.visible, t.Holds g n.text := by
  induction layers generalizing frame distance with
  | nil => simp at hl
  | cons k outer ih =>
    obtain ⟨horigin, hvisible, parent, hparent, houter⟩ := h
    cases distance with
    | zero =>
      simp only [List.getElem?_cons_zero, Option.some.injEq] at hl
      subst hl
      exact ⟨frame, rfl, Frames.lt_of_parent? hparent, horigin, hvisible⟩
    | succ distance =>
      simp only [List.getElem?_cons_succ] at hl
      obtain ⟨g, hg, hrest⟩ := ih houter hl
      exact ⟨g, by simp only [Frames.ancestor?, hparent, Option.bind_some, hg], hrest⟩

theorem Accounted.of_same (h : t.Accounted) (hf : t'.machine.frames = t.machine.frames)
    (ho : t'.origin = t.origin) (hs : t'.settled = t.settled) (ha : t'.assigned = t.assigned) :
    t'.Accounted where
  nonempty := by rw [hf]; exact h.nonempty
  rootless := by rw [hf]; exact h.rootless
  regionless := by rw [ho]; exact h.regionless
  keys f r key := by unfold Holds; rw [hf, ho, hs, ha]; exact h.keys f r key
  bound f key := by unfold Holds; rw [hf, hs, ha]; exact h.bound f key

section Define

variable {frame : Nat} {key : String} {value : Value}

theorem Extends.define (hf : t'.machine.frames = t.machine.frames.define frame key value)
    (ho : t'.origin = t.origin) : t.Extends t' where
  next := by simp only [hf, Frames.next_define, Nat.le_refl]
  parent f g h := by rw [hf, Frames.parent?_define]; exact h
  holds f k h := by
    unfold Holds
    rw [hf, Frames.find?_define]
    split
    · exact Option.some_ne_none value
    · exact h
  origin f _ := by rw [ho]

theorem holds_define (hf : t'.machine.frames = t.machine.frames.define frame key value)
    (f : Nat) (k : String) :
    t'.Holds f k ↔ t.Holds f k ∨ frame = f ∧ f < t.machine.frames.next ∧ k = key := by
  unfold Holds
  rw [hf, Frames.find?_define]
  split
  · rename_i h
    exact ⟨fun _ => .inr h, fun _ => Option.some_ne_none value⟩
  · rename_i h
    exact ⟨.inl, fun h' => h'.resolve_right h⟩

/-- A binding is accounted for by a declaration that has completed or by an assignment. -/
theorem Accounted.define (h : t.Accounted) (hlt : frame < t.machine.frames.next)
    (hf : t'.machine.frames = t.machine.frames.define frame key value) (ho : t'.origin = t.origin)
    (account : ∀ x, x ∈ t'.settled ∨ x ∈ t'.assigned ↔
      x = (frame, key) ∨ x ∈ t.settled ∨ x ∈ t.assigned) : t'.Accounted where
  nonempty := by rw [hf, Frames.next_define]; exact h.nonempty
  rootless := by rw [hf, Frames.parent?_define]; exact h.rootless
  regionless := by rw [ho]; exact h.regionless
  keys f r k horigin hk := by
    rw [account]
    rw [ho] at horigin
    rcases (holds_define hf f k).mp hk with hk | ⟨rfl, _, rfl⟩
    · rcases h.keys f r k horigin hk with hparam | hrest
      · exact .inl hparam
      · exact .inr (.inr hrest)
    · exact .inr (.inl rfl)
  bound f k hk := by
    rw [account] at hk
    rw [holds_define hf]
    rcases hk with hk | hk
    · cases hk
      exact .inr ⟨rfl, hlt, rfl⟩
    · exact .inl (h.bound f k hk)

theorem Accounted.define_global (h : t.Accounted)
    (hf : t'.machine.frames = t.machine.frames.define Machine.globals key value)
    (ho : t'.origin = t.origin) (hs : t'.settled = t.settled) (ha : t'.assigned = t.assigned) :
    t'.Accounted where
  nonempty := by rw [hf, Frames.next_define]; exact h.nonempty
  rootless := by rw [hf, Frames.parent?_define]; exact h.rootless
  regionless := by rw [ho]; exact h.regionless
  keys f r k horigin hk := by
    rw [hs, ha]
    rw [ho] at horigin
    rcases (holds_define hf f k).mp hk with hk | ⟨rfl, _⟩
    · exact h.keys f r k horigin hk
    · rw [h.regionless] at horigin
      cases horigin
  bound f k hk := by
    rw [hs, ha] at hk
    exact (holds_define hf f k).mpr (.inl (h.bound f k hk))

end Define

section Open

variable {region : Region} {parent : Nat} {bindings : Bindings Value}

theorem holds_extend (hf : t'.machine.frames = t.machine.frames.extend parent bindings) (f : Nat)
    (k : String) :
    t'.Holds f k ↔
      if f = t.machine.frames.next then bindings.find? k ≠ none else t.Holds f k := by
  unfold Holds
  rw [hf, Frames.bindings_extend]
  split <;> rfl

theorem Extends.extend (hf : t'.machine.frames = t.machine.frames.extend parent bindings)
    (ho : ∀ f, f < t.machine.frames.next → t'.origin f = t.origin f) : t.Extends t' where
  next := by rw [hf, Frames.next_extend]; exact Nat.le_succ _
  parent f g h := by rw [hf, Frames.parent?_extend_of_lt _ _ _ (Frames.lt_of_parent? h)]; exact h
  holds f k h := by rw [holds_extend hf, if_neg (Nat.ne_of_lt h.lt)]; exact h
  origin := ho

theorem Accounted.extend (h : t.Accounted)
    (hf : t'.machine.frames = t.machine.frames.extend parent bindings)
    (ho : ∀ f, t'.origin f = if f = t.machine.frames.next then some region else t.origin f)
    (hs : t'.settled = t.settled) (ha : t'.assigned = t.assigned)
    (hb : ∀ k, bindings.find? k ≠ none → k ∈ region.params.map Name.text) : t'.Accounted where
  nonempty := by rw [hf, Frames.next_extend]; exact Nat.lt_succ_of_lt h.nonempty
  rootless := by rw [hf, Frames.parent?_extend_of_lt _ _ _ h.nonempty]; exact h.rootless
  regionless := by rw [ho, if_neg (Nat.ne_of_lt h.nonempty)]; exact h.regionless
  keys f r k horigin hk := by
    rw [hs, ha]
    rw [ho] at horigin
    rw [holds_extend hf] at hk
    split at hk
    · rename_i hnext
      rw [if_pos hnext] at horigin
      cases horigin
      exact .inl (hb k hk)
    · rename_i hnext
      rw [if_neg hnext] at horigin
      exact h.keys f r k horigin hk
  bound f k hk := by
    rw [hs, ha] at hk
    have held := h.bound f k hk
    rw [holds_extend hf, if_neg (Nat.ne_of_lt held.lt)]
    exact held

theorem Aligned.opened {layers : List Layer} (h : t.Aligned layers parent)
    (hlt : parent < t.machine.frames.next) (he : t.Extends t')
    (hf : t'.machine.frames = t.machine.frames.extend parent bindings)
    (ho : t'.origin t.machine.frames.next = some region)
    (hb : ∀ n ∈ region.params, bindings.find? n.text ≠ none) :
    t'.Aligned (.opened region :: layers) t.machine.frames.next := by
  refine ⟨ho, fun n hn => ?_, parent, ?_, h.extend he⟩
  · rw [holds_extend hf, if_pos rfl]
    exact hb n hn
  · rw [hf]
    exact Frames.parent?_extend_next _ _ hlt

end Open

end Moment

open Moment

structure Visit.Recorded (G : Position × Node Site → Prop) (v : Visit) : Prop where
  accounted : v.moment.Accounted
  aligned : v.moment.Aligned v.position.layers v.moment.machine.current
  node : ∃ node, G (v.position, node) ∧ node.use? = some (v.use, v.name, .local_ v.distance)

def Visit.absence? (v : Visit) : Option Absence :=
  match v.use with
  | .assign => none
  | _ =>
    let frames := v.moment.machine.frames
    match frames.valueAt v.moment.machine.current v.distance v.name.text with
    | .ok _ => none
    | .error absence => some absence

structure Closure.Sound (ρ : Renaming) (G : Position × Node Site → Prop) (t : Moment)
    (c : Closure) (p : Position) : Prop where
  aligned : t.Aligned p.layers c.frame
  code : ∀ x ∈ codeNodes p c.params c.body, G x
  receiver : c.isInitializer = true → t.Holds c.frame thisName.text ∧
    ∃ r, t.origin c.frame = some r ∧ ρ.key r thisName.text = thisName.text

structure Class.Sound (ρ : Renaming) (G : Position × Node Site → Prop) (t : Moment)
    (c : Class) (p : Position) : Prop where
  aligned : t.Aligned p.layers c.frame
  code : ∀ x ∈ methodsNodes (p.class_.child 0) c.methods, G x
  names : ∀ m ∈ c.methods, ρ.text m.name = m.name.text
  receiver : ρ.key ⟨p.path, [thisName], []⟩ thisName.text = thisName.text

theorem Closure.Sound.extend {ρ : Renaming} {G : Position × Node Site → Prop} {t t' : Moment}
    {c : Closure} {p : Position} (h : c.Sound ρ G t p) (he : t.Extends t') : c.Sound ρ G t' p where
  aligned := h.aligned.extend he
  code := h.code
  receiver hi := by
    obtain ⟨hholds, r, horigin, hkey⟩ := h.receiver hi
    exact ⟨he.holds _ _ hholds, r, (he.origin _ hholds.lt).trans horigin, hkey⟩

theorem Class.Sound.extend {ρ : Renaming} {G : Position × Node Site → Prop} {t t' : Moment}
    {c : Class} {p : Position} (h : c.Sound ρ G t p) (he : t.Extends t') : c.Sound ρ G t' p :=
  ⟨h.aligned.extend he, h.code, h.names, h.receiver⟩

/-- The invariant of a tracked run. `G` is what is known of every node that can still be run. -/
structure Tracked.Sound (ρ : Renaming) (G : Position × Node Site → Prop) (t : Tracked) : Prop where
  accounted : t.Accounted
  functions : ∀ (r : Nat) (c : Closure), t.machine.closures[r]? = some c →
    c.Sound ρ G t.toMoment (t.functionAt r)
  classes : ∀ (r : Nat) (c : Class), t.machine.classes[r]? = some c →
    c.Sound ρ G t.toMoment (t.classAt r)
  visits : ∀ v ∈ t.visits, v.Recorded G

theorem Tracked.Sound.mono {ρ : Renaming} {G G' : Position × Node Site → Prop} {t : Tracked}
    (h : t.Sound ρ G) (hG : ∀ x, G x → G' x) : t.Sound ρ G' where
  accounted := h.accounted
  functions r c hc :=
    { h.functions r c hc with code := fun x hx => hG x ((h.functions r c hc).code x hx) }
  classes r c hc := { h.classes r c hc with code := fun x hx => hG x ((h.classes r c hc).code x hx) }
  visits v hv := by
    obtain ⟨accounted, aligned, node, hnode, huse⟩ := h.visits v hv
    exact ⟨accounted, aligned, node, hG _ hnode, huse⟩

theorem Tracked.initial_sound (ρ : Renaming) (G : Position × Node Site → Prop)
    (clock : Nat → Float) : (Tracked.initial clock).Sound ρ G where
  accounted :=
    { nonempty := Nat.one_pos
      rootless := rfl
      regionless := rfl
      keys := fun _ _ _ h => by cases h
      bound := fun _ _ h => by rcases h with h | h <;> cases h }
  functions r c hc := by simp [Tracked.initial, Machine.initial] at hc
  classes r c hc := by simp [Tracked.initial, Machine.initial] at hc
  visits := List.forall_mem_nil _

namespace Lexical.Renaming

variable (ρ : Renaming)

def keyAt : Option Region → String → String
  | none => fun key => key
  | some r => ρ.key r

theorem keyAt_injective (r : Option Region) (a b : String) (h : ρ.keyAt r a = ρ.keyAt r b) :
    a = b := by
  cases r with
  | none => exact h
  | some r => exact ρ.key_injective r a b h

def stmts (ss : List BoundStmt) : List BoundStmt := translateStmts ρ (fun site => site) ss

def closure (c : Closure) : Closure :=
  { c with params := c.params.map ρ.name, body := ρ.stmts c.body }

def klass (c : Class) : Class :=
  { c with methods := translateMethods ρ (fun site => site) c.methods }

def frame (r : Option Region) (f : Frame) : Frame :=
  { f with bindings := f.bindings.mapKeys (ρ.keyAt r) }

theorem frame_none : ρ.frame none = fun f => f := by
  funext f
  exact congrArg (Frame.mk · f.parent) (Bindings.mapKeys_id f.bindings)

theorem frame_identity (r : Option Region) : identity.frame r = fun f => f := by
  funext f
  cases r <;> exact congrArg (Frame.mk · f.parent) (Bindings.mapKeys_id f.bindings)

theorem closure_identity : identity.closure = fun c => c := by
  funext c
  simp only [closure, stmts, translateStmts_identity, name_identity, List.map_id']

theorem klass_identity : identity.klass = fun c => c := by
  funext c
  simp only [klass, translateMethods_identity]

end Lexical.Renaming

structure Moment.Renamed (ρ : Renaming) (t : Moment) (m : Machine) : Prop where
  frames : ∀ i, m.frames.frame? i = (t.machine.frames.frame? i).map (ρ.frame (t.origin i))
  current : m.current = t.machine.current
  closures : m.closures = t.machine.closures.map ρ.closure
  classes : m.classes = t.machine.classes.map ρ.klass
  instances : m.instances = t.machine.instances
  output : m.output = t.machine.output
  clock : m.clock = t.machine.clock
  readings : m.readings = t.machine.readings

namespace Moment.Renamed

variable {ρ : Renaming} {t : Moment} {m : Machine}

theorem parent? (h : t.Renamed ρ m) (i : Nat) :
    m.frames.parent? i = t.machine.frames.parent? i := by
  simp only [Frames.parent?, h.frames]
  cases t.machine.frames.frame? i <;> rfl

theorem bindings (h : t.Renamed ρ m) (i : Nat) :
    m.frames.bindings i = (t.machine.frames.bindings i).mapKeys (ρ.keyAt (t.origin i)) := by
  simp only [Frames.bindings, h.frames]
  cases t.machine.frames.frame? i <;> rfl

theorem next (h : t.Renamed ρ m) : m.frames.next = t.machine.frames.next := by
  have size : ∀ (fs : Frames) (i : Nat), fs.frame? i = none ↔ fs.next ≤ i := fun fs i =>
    Array.getElem?_eq_none_iff
  apply Nat.le_antisymm
  · rw [← size, h.frames, (size _ _).mpr (Nat.le_refl _)]
    rfl
  · rw [← size]
    have : m.frames.frame? m.frames.next = none := (size _ _).mpr (Nat.le_refl _)
    rwa [h.frames, Option.map_eq_none_iff] at this

theorem ancestor? (h : t.Renamed ρ m) (i distance : Nat) :
    m.frames.ancestor? i distance = t.machine.frames.ancestor? i distance := by
  induction distance generalizing i with
  | zero => rfl
  | succ distance ih =>
    simp only [Frames.ancestor?, h.parent?]
    congr 1
    funext p
    exact ih p

theorem find? (h : t.Renamed ρ m) (i : Nat) (key : String) :
    (m.frames.bindings i).find? (ρ.keyAt (t.origin i) key) =
      (t.machine.frames.bindings i).find? key := by
  rw [h.bindings, Bindings.find?_mapKeys (ρ.keyAt_injective _)]

theorem define (h : t.Renamed ρ m) (frame : Nat) (key : String) (value : Value) :
    ∀ i, (m.frames.define frame (ρ.keyAt (t.origin frame) key) value).frame? i =
      ((t.machine.frames.define frame key value).frame? i).map (ρ.frame (t.origin i)) := by
  intro i
  rw [Frames.frame?_define, Frames.frame?_define, h.frames]
  split
  · rename_i hi
    subst hi
    cases t.machine.frames.frame? frame with
    | none => rfl
    | some f =>
      simp only [Option.map_some, Renaming.frame, Bindings.set_mapKeys (ρ.keyAt_injective _)]
  · rfl

theorem extend (h : t.Renamed ρ m) {origin : Nat → Option Region} {region : Region}
    (ho : ∀ f, origin f = if f = t.machine.frames.next then some region else t.origin f)
    (parent : Nat) (bindings : Bindings Value) :
    ∀ i, (m.frames.extend parent (bindings.mapKeys (ρ.key region))).frame? i =
      ((t.machine.frames.extend parent bindings).frame? i).map (ρ.frame (origin i)) := by
  intro i
  rw [Frames.frame?_extend, Frames.frame?_extend, h.next, ho]
  split
  · rfl
  · exact h.frames i

theorem text (h : t.Renamed ρ m) (v : Value) : m.text v = t.machine.text v := by
  have className : ∀ r, Machine.text.className m r = Machine.text.className t.machine r := by
    intro r
    simp only [Machine.text.className, h.classes, Array.getElem?_map]
    cases t.machine.classes[r]? <;> rfl
  cases v with
  | function r =>
    simp only [Machine.text, h.closures, Array.getElem?_map]
    cases t.machine.closures[r]? <;> rfl
  | class_ r => exact className r
  | instance_ r => simp only [Machine.text, h.instances, className]
  | _ => rfl

theorem instance? (h : t.Renamed ρ m) (v : Value) : m.instance? v = t.machine.instance? v := by
  cases v with
  | instance_ r => simp only [Machine.instance?, h.instances]
  | _ => rfl

theorem eq_of_identity (h : t.Renamed .identity m) : m = t.machine := by
  have frames : m.frames = t.machine.frames := by
    apply Frames.ext_frame?
    intro i
    rw [h.frames, Renaming.frame_identity, Option.map_id_fun', id]
  have closures := h.closures
  have classes := h.classes
  rw [Renaming.closure_identity, Array.map_id_fun', id] at closures
  rw [Renaming.klass_identity, Array.map_id_fun', id] at classes
  obtain ⟨_, current, _, _, instances, output, clock, readings⟩ := h
  cases m
  simp only at frames closures classes current instances output clock readings
  subst frames closures classes current instances output clock readings
  rfl

theorem identity (t : Moment) : t.Renamed .identity t.machine where
  frames i := by rw [Renaming.frame_identity, Option.map_id_fun', id]
  current := rfl
  closures := by rw [Renaming.closure_identity, Array.map_id_fun', id]
  classes := by rw [Renaming.klass_identity, Array.map_id_fun', id]
  instances := rfl
  output := rfl
  clock := rfl
  readings := rfl

/-- Before anything has run there is nothing to rename. -/
theorem initial (clock : Nat → Float) :
    (Tracked.initial clock).toMoment.Renamed ρ (.initial clock) where
  frames i := by
    show _ = Option.map (ρ.frame none) _
    rw [Renaming.frame_none, Option.map_id_fun', id]
    rfl
  current := rfl
  closures := by simp [Tracked.initial, Machine.initial]
  classes := by simp [Tracked.initial, Machine.initial]
  instances := rfl
  output := rfl
  clock := rfl
  readings := rfl

end Moment.Renamed

end Script
