import Script.Proofs.Observed.Programs
import Script.Proofs.Running.Current
import Script.Proofs.Store

/-! Receivers.
At every moment of a run it is known to which instance the innermost method around the place was
bound: by the property that it was reached as, or by the call of its class. -/
namespace Script

open Lexical

structure Receptions where
  /-- The receiver at an evaluation of the instance, and the value there. -/
  loads : List (Option Value × Option Value)
  /-- The receiver of an initializer that was called to its end, and the value of the call. -/
  initialized : List (Option Value × Value)
  received : List (Nat × Value)
  bound : List String

/-- The frame binds the instance to the value. -/
def Frames.Receives (fs : Frames) (frame : Nat) (v : Value) : Prop :=
  fs.valueAt frame 0 thisName.text = .ok v

namespace Receptions

def none : Receptions := ⟨[], [], [], []⟩

def observer : Observer (Option Value) Receptions where
  nowhere := Option.none
  child _ receiver := receiver
  receiving v _ := some v
  site _ site := site
  consulted _ k := k
  loaded receiver use v k := if use = .this then { k with loads := (receiver, v) :: k.loads } else k
  bound name k := { k with bound := name :: k.bound }
  received frame v k := { k with received := (frame, v) :: k.received }
  initialized receiver v k := { k with initialized := (receiver, v) :: k.initialized }

/-- What the account says is right, and holds still. -/
structure Kept (fs : Frames) (k : Receptions) : Prop where
  loads : ∀ e ∈ k.loads, ∃ ref, e.1 = some (.instance_ ref) ∧ e.2 = e.1
  initialized : ∀ e ∈ k.initialized, e.1 = some e.2
  received : ∀ e ∈ k.received, fs.Receives e.1 e.2
  bound : ∀ name ∈ k.bound, name ≠ thisName.text

end Receptions

/-- Frames that came from others link as those did, and have the same instances. -/
structure Frames.Came (fs gs : Frames) : Prop where
  next : fs.next ≤ gs.next
  parent : ∀ frame < fs.next, gs.parent? frame = fs.parent? frame
  receiver : ∀ frame < fs.next,
    (gs.bindings frame).find? thisName.text = (fs.bindings frame).find? thisName.text

/-- From a frame, the frames lie as the regions around a place do, and that of the innermost class
binds the receiver. -/
inductive Frames.Aligned (fs : Frames) : Option Value → List Region → Nat → Prop
  | outermost {frame} (here : frame < fs.next) : Aligned fs none [] frame
  | opened {receiver regions frame outer} {r : Region}
    (named : ∀ n ∈ r.params, n.text ≠ thisName.text) (link : fs.parent? frame = some outer)
    (around : Aligned fs receiver regions outer) : Aligned fs receiver (r :: regions) frame
  | receiving {receiver ref regions frame outer} {r : Region}
    (class_ : r.params = [thisName] ∧ r.locals = []) (link : fs.parent? frame = some outer)
    (binds : (fs.bindings frame).find? thisName.text = some (.instance_ ref))
    (around : Aligned fs receiver regions outer) :
    Aligned fs (some (.instance_ ref)) (r :: regions) frame

namespace Frames

variable {fs gs hs : Frames} {receiver : Option Value} {regions : List Region} {frame : Nat}
  {v : Value}

theorem receives_iff : fs.Receives frame v ↔ (fs.bindings frame).find? thisName.text = some v := by
  rw [Receives, valueAt_self]
  cases (fs.bindings frame).find? thisName.text <;> simp

namespace Came

theorem refl (fs : Frames) : fs.Came fs := ⟨Nat.le_refl _, fun _ _ => rfl, fun _ _ => rfl⟩

theorem trans (h : fs.Came gs) (h' : gs.Came hs) : fs.Came hs where
  next := Nat.le_trans h.next h'.next
  parent frame here :=
    (h'.parent frame (Nat.lt_of_lt_of_le here h.next)).trans (h.parent frame here)
  receiver frame here :=
    (h'.receiver frame (Nat.lt_of_lt_of_le here h.next)).trans (h.receiver frame here)

theorem extend (fs : Frames) (parent : Nat) (bindings : Bindings Value) :
    fs.Came (fs.extend parent bindings) where
  next := by
    rw [next_extend]
    exact Nat.le_succ _
  parent frame here := parent?_extend_of_lt fs parent bindings here
  receiver frame here := by rw [bindings_extend, if_neg (Nat.ne_of_lt here)]

theorem define (fs : Frames) (frame : Nat) {name : String} (v : Value)
    (named : name ≠ thisName.text) : fs.Came (fs.define frame name v) where
  next := Nat.le_of_eq (next_define fs frame name v).symm
  parent other _ := parent?_define fs frame name v other
  receiver other _ := by rw [find?_define, if_neg fun h => named h.2.2.symm]

theorem receives (h : fs.Came gs) (receives : fs.Receives frame v) : gs.Receives frame v := by
  rw [receives_iff] at receives ⊢
  have here : frame < fs.next := by
    by_contra absent
    have gone : fs.frame? frame = none := Array.getElem?_eq_none (Nat.le_of_not_lt absent)
    rw [bindings, gone] at receives
    cases receives
  rw [h.receiver frame here, receives]

end Came

namespace Aligned

theorem lt (h : fs.Aligned receiver regions frame) : frame < fs.next := by
  cases h with
  | outermost here => exact here
  | opened named link around => exact lt_of_parent? link
  | receiving class_ link binds around => exact lt_of_parent? link

theorem later (h : fs.Aligned receiver regions frame) (came : fs.Came gs) :
    gs.Aligned receiver regions frame := by
  induction h with
  | outermost here => exact .outermost (Nat.lt_of_lt_of_le here came.next)
  | opened named link around ih =>
    exact .opened named ((came.parent _ (lt_of_parent? link)).trans link) ih
  | receiving class_ link binds around ih =>
    exact .receiving class_ ((came.parent _ (lt_of_parent? link)).trans link)
      ((came.receiver _ (lt_of_parent? link)).trans binds) ih

theorem extend (h : fs.Aligned receiver regions frame) (bindings : Bindings Value) :
    (fs.extend frame bindings).parent? fs.next = some frame ∧
      (fs.extend frame bindings).Aligned receiver regions frame :=
  ⟨parent?_extend_next fs bindings h.lt, h.later (.extend fs frame bindings)⟩

/-- In a class there is a receiver, and the innermost scope of a class leads to it. -/
theorem receiver_of_class {p : Position}
    (h : fs.Aligned receiver (p.layers.map Layer.region) frame)
    (inClass : ∃ l ∈ p.layers, l.IsClass) :
    ∃ distance ref a, p.Innermost Layer.IsClass distance ∧ receiver = some (.instance_ ref) ∧
      fs.ancestor? frame distance = some a ∧
      (fs.bindings a).find? thisName.text = some (.instance_ ref) := by
  unfold Position.Innermost
  generalize p.layers = layers at h inClass ⊢
  induction layers generalizing frame with
  | nil =>
    obtain ⟨l, hl, -⟩ := inClass
    cases hl
  | cons l outer ih =>
    cases h with
    | receiving class_ link binds around =>
      exact ⟨0, _, frame, ⟨l, rfl, class_, fun i hi => absurd hi (Nat.not_lt_zero i)⟩, rfl, rfl,
        binds⟩
    | opened named link around =>
      have apart : ¬ l.IsClass := fun hc =>
        named thisName (by rw [hc.1]; exact List.mem_singleton_self _) rfl
      obtain ⟨distance, ref, a, ⟨k, hk, hc, before⟩, known, leads, binds⟩ :=
        ih around ((Position.isClass_cons apart).mp inClass)
      refine ⟨distance + 1, ref, a, ⟨k, hk, hc, fun i hi j hj => ?_⟩, known, ?_, binds⟩
      · cases i with
        | zero =>
          cases hj
          exact apart
        | succ i => exact before i (Nat.lt_of_succ_lt_succ hi) j hj
      · rw [ancestor?, link]
        exact leads

end Aligned

end Frames

namespace Receptions

/-- In accepted programs the instance is evaluated in classes only. -/
theorem inClass_of_this {p : Position} {node : Node Site} {name : Name} {site : Site}
    (good : AcceptedNode (p, node)) (isUse : node.use? = some (.this, name, site)) :
    ∃ l ∈ p.layers, l.IsClass := by
  refine (good.seen (by rw [isUse]; rfl)).inClass.mpr ?_
  have isScoped := good.isScoped
  unfold Node.use? at isUse
  split at isUse <;> cases isUse
  exact isScoped.1

theorem found_this {fs : Frames} {receiver : Option Value} {p : Position} {frame : Nat}
    {node : Node Site} {name : Name} {site : Site}
    (h : fs.Aligned receiver (p.layers.map Layer.region) frame) (good : AcceptedNode (p, node))
    (isUse : node.use? = some (.this, name, site)) :
    ∃ ref, receiver = some (.instance_ ref) ∧ fs.found? frame name.text site = receiver := by
  obtain ⟨distance, ref, a, innermost, rfl, leads, binds⟩ :=
    h.receiver_of_class (inClass_of_this good isUse)
  have sited := (good.sited.instance_ name site isUse distance).mpr innermost
  rw [sited, use?_this isUse, Frames.found?, Frames.valueAt_of_ancestor? leads, binds]
  exact ⟨ref, rfl, rfl⟩

namespace Kept

variable {fs gs : Frames} {k : Receptions}

theorem later (h : Kept fs k) (came : fs.Came gs) : Kept gs k :=
  { h with received := fun e he => came.receives (h.received e he) }

end Kept

def upkeep : Upkeep observer where
  At fs receiver p frame := fs.Aligned receiver (p.layers.map Layer.region) frame
  Good := AcceptedNode
  Kept := Kept
  Later := Frames.Came
  refl := .refl
  trans := .trans
  lasting := .later
  regions _ same at_ := same ▸ at_
  child _ at_ := at_
  names good := good.usual.names
  extend := .extend
  extended parent bindings kept := kept.later (.extend _ parent bindings)
  opened bindings named at_ := .opened named (at_.extend bindings).1 (at_.extend bindings).2
  receiving ref at_ := by
    refine .receiving ⟨rfl, rfl⟩ (at_.extend _).1 ?_ (at_.extend _).2
    rw [Frames.bindings_extend, if_pos rfl]
    rfl
  received {fs k} frame ref kept := by
    have came := Frames.Came.extend fs frame [(thisName.text, .instance_ ref)]
    refine { kept.later came with received := ?_ }
    refine List.forall_mem_cons.mpr ⟨?_, (kept.later came).received⟩
    rw [Frames.receives_iff, Frames.bindings_extend, if_pos rfl]
    rfl
  define fs frame _ v named := .define fs frame v named
  bound {fs k frame name} v named kept :=
    { kept.later (.define fs frame v named) with
      bound := List.forall_mem_cons.mpr ⟨named, kept.bound⟩ }
  site _ _ _ := rfl
  consulted _ _ _ kept := kept
  loaded {fs receiver p frame node use name s k} good isUse at_ kept := by
    by_cases hu : use = .this
    · subst hu
      simp only [observer, if_true]
      exact { kept with
        loads := List.forall_mem_cons.mpr ⟨found_this at_ good isUse, kept.loads⟩ }
    · simp only [observer, if_neg hu]
      exact kept
  initialized {fs receiver p q frame v k} at_ class_ found kept := by
    refine { kept with initialized := List.forall_mem_cons.mpr ⟨?_, kept.initialized⟩ }
    rw [class_] at at_
    cases at_ with
    | opened named link around => exact absurd rfl (named thisName (List.mem_singleton_self _))
    | receiving _ link binds around =>
      rw [Frames.found?, Frames.receives_iff.mpr binds] at found
      exact found

def initial (clock : Nat → Float) : Observed (Option Value) Receptions :=
  ⟨.initial clock, fun _ => Option.none, fun _ => Option.none, none⟩

theorem initial_atTop (clock : Nat → Float) : upkeep.AtTop (initial clock) where
  sound :=
    { functions := fun ref c hc => by cases hc
      classes := fun ref c hc => by cases hc
      kept := ⟨nofun, nofun, nofun, nofun⟩ }
  here := .outermost (Nat.zero_lt_one)

end Receptions

/-- A class that is called to its end gives the instance that it made. -/
theorem Run.call_class {fuel room ref line : Nat} {c : Class} {given : List Value} {m m' : Machine}
    {v : Value} (h : Run.call fuel room (.class_ ref c) given line m = .ok v m') :
    v = .instance_ m.instances.size := by
  cases fuel with
  | zero => cases h
  | succ fuel =>
    simp only [Run.call] at h
    obtain ⟨made, begun, creation, h⟩ := bind_ok h
    cases creation
    cases hi : c.method? initializerName with
    | none =>
      rw [hi] at h
      cases h
      rfl
    | some method =>
      rw [hi] at h
      obtain ⟨closure, _, -, h⟩ := bind_ok h
      obtain ⟨_, _, -, h⟩ := bind_ok h
      cases h
      rfl

/-- In every session the instance is the receiver. Wherever it is evaluated it has a value, and that
is what the innermost method around the place was bound to. The frames of bound methods keep their
instances, as no name that is bound anywhere is that of the instance. An initializer that ends gives
its receiver, and a class that is called to its end gives the instance that it made. The session that
is observed is the session itself. -/
theorem Receptions.converse_receives (limits : Limits) (clock : Nat → Float)
    (steps : List (CommandLine.Mode × String)) :
    let session := Dialogue.converse limits steps (.initial clock)
    let ended := (initial clock).converse observer limits steps
    (session.1 = ended.1 ∧ session.2.machine = ended.2.machine) ∧
      (∀ e ∈ ended.2.account.loads, ∃ ref, e.1 = some (.instance_ ref) ∧ e.2 = e.1) ∧
      (∀ e ∈ ended.2.account.received, ended.2.machine.frames.Receives e.1 e.2) ∧
      (∀ name ∈ ended.2.account.bound, name ≠ thisName.text) ∧
      (∀ e ∈ ended.2.account.initialized, e.1 = some e.2) ∧
      (∀ c method receiver m, ∃ closure m', Run.bindMethod c method receiver m = .ok closure m' ∧
        (closure.isInitializer = true ↔ method.name.text = initializerName)) ∧
      ∀ fuel room ref c given line m v m',
        Run.call fuel room (.class_ ref c) given line m = .ok v m' →
          v = .instance_ m.instances.size := by
  intro session ended
  obtain ⟨shown, machine, atTop⟩ := Upkeep.converse_eq (K := upkeep) (fun _ h => h) limits steps
    (initial_atTop clock) (d := .initial clock) rfl
  have kept : Kept ended.2.machine.frames ended.2.account := atTop.sound.kept
  exact ⟨⟨shown, machine⟩, kept.loads, kept.received, kept.bound, kept.initialized,
    fun c method receiver m => ⟨_, _, rfl, beq_iff_eq⟩, fun _ _ _ _ _ _ _ _ _ => Run.call_class⟩

-- a method that gives a function is carried to another instance and called there
example : ((Receptions.initial fun _ => 0).converse Receptions.observer ⟨10, 40⟩
    [(.run, "class A \x7b f() \x7b return fun() \x7b return this; \x7d; \x7d \x7d" ++
      "var a = A(); var b = A(); b.f = a.f; print b.f()();")]).2.account.loads =
    [(some (.instance_ 0), some (.instance_ 0))] := by
  decide +kernel

end Script
