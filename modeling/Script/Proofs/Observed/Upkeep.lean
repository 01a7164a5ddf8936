import Script.Proofs.Observed.Run
import Script.Proofs.Running.Current
import Script.Proofs.Running.Related
import Script.Proofs.Lexical.Visible

/-! What an observed run keeps up.
An observer comes with a relation between what it knows and where the run is, which lasts while
frames are opened and names are bound, and with an account that stays true. -/
namespace Script

open Lexical

variable {χ κ α β : Type}

theorem Machine.instance_of_instance? (m : Machine) {v : Value} {found : Nat × Instance}
    (h : m.instance? v = some found) : ∃ ref, v = .instance_ ref := by
  cases v with
  | instance_ ref => exact ⟨ref, rfl⟩
  | _ => cases h

/-- The value that a use has from a frame, if it has one. -/
def Frames.found? (fs : Frames) (frame : Nat) (name : String) : Site → Option Value
  | .local_ distance => (fs.valueAt frame distance name).toOption
  | .global => fs.lookup? Machine.globals name

theorem Run.load_cases (name : Name) (site : Site) (m : Machine) :
    (∃ v, Run.load name site m = .ok v m ∧
      m.frames.found? m.current name.text site = some v) ∨
      ∃ e, Run.load name site m = .error e m ∧
        m.frames.found? m.current name.text site = none := by
  cases site with
  | local_ distance =>
    cases h : m.frames.valueAt m.current distance name.text with
    | ok v => exact .inl ⟨v, by simp only [Run.load, h], by rw [Frames.found?, h]; rfl⟩
    | error absence =>
      exact .inr ⟨.absent absence, by simp only [Run.load, h], by rw [Frames.found?, h]; rfl⟩
  | global =>
    cases h : m.frames.lookup? Machine.globals name.text with
    | some v => exact .inl ⟨v, by simp only [Run.load, h], h⟩
    | none =>
      refine .inr ⟨.failed ⟨.undefinedVariable name.text, name.line⟩, ?_, h⟩
      simp only [Run.load, h]
      rfl

theorem Run.store_cases (name : Name) (v : Value) (site : Site) (m : Machine) :
    (∃ frame, Run.store name v site m =
        .ok () { m with frames := m.frames.define frame name.text v }) ∨
      ∃ e, Run.store name v site m = .error e m := by
  cases site with
  | local_ distance =>
    cases h : m.frames.frameAt m.current distance with
    | ok frame =>
      refine .inl ⟨frame, ?_⟩
      simp only [Run.store, h]
      rfl
    | error absence => exact .inr ⟨.absent absence, by simp only [Run.store, h]⟩
  | global => exact .inl ⟨Machine.globals, rfl⟩

/-- What is relied on of an observer. `At fs x p frame` is that at the place `p`, in the frame, `x` is
known; `Good` is what is so of the nodes that are run, `Kept` of the account, and `Later` of frames
that came from others. -/
structure Upkeep (o : Observer χ κ) where
  At : Frames → χ → Position → Nat → Prop
  Good : Position × Node Site → Prop
  Kept : Frames → κ → Prop
  Later : Frames → Frames → Prop
  refl : ∀ fs, Later fs fs
  trans : ∀ {fs gs hs}, Later fs gs → Later gs hs → Later fs hs
  lasting : ∀ {fs gs x p frame}, At fs x p frame → Later fs gs → At gs x p frame
  /-- Only the path and the regions of a place matter. -/
  regions : ∀ {fs x p q frame}, p.path = q.path →
    p.layers.map Layer.region = q.layers.map Layer.region → At fs x p frame → At fs x q frame
  child : ∀ {fs x p frame} i, At fs x p frame → At fs (o.child i x) (p.child i) frame
  names : ∀ {p node}, Good (p, node) → ∀ m ∈ node.names, m.text ≠ thisName.text
  extend : ∀ fs parent bindings, Later fs (fs.extend parent bindings)
  extended : ∀ {fs k} parent bindings, Kept fs k → Kept (fs.extend parent bindings) k
  opened : ∀ {fs x p frame params locals} bindings, (∀ m ∈ params, m.text ≠ thisName.text) →
    At fs x p frame → At (fs.extend frame bindings) x (p.opened params locals) fs.next
  receiving : ∀ {fs x p frame} ref, At fs x p frame →
    At (fs.extend frame [(thisName.text, .instance_ ref)]) (o.receiving (.instance_ ref) x) p.class_
      fs.next
  received : ∀ {fs k} frame ref, Kept fs k →
    Kept (fs.extend frame [(thisName.text, .instance_ ref)]) (o.received fs.next (.instance_ ref) k)
  define : ∀ fs frame {name} v, name ≠ thisName.text → Later fs (fs.define frame name v)
  bound : ∀ {fs k frame name} v, name ≠ thisName.text → Kept fs k →
    Kept (fs.define frame name v) (o.bound name k)
  site : ∀ {fs x p frame node use name s}, Good (p, node) → node.use? = some (use, name, s) →
    At fs x p frame → o.site x s = s
  consulted : ∀ {fs x p frame node use name s k}, Good (p, node) →
    node.use? = some (use, name, s) → At fs x p frame → Kept fs k → Kept fs (o.consulted x k)
  loaded : ∀ {fs x p frame node use name s k}, Good (p, node) → node.use? = some (use, name, s) →
    At fs x p frame → Kept fs k → Kept fs (o.loaded x use (fs.found? frame name.text s) k)
  initialized : ∀ {fs x p q frame v k}, At fs x q frame → q.layers = (Position.class_ p).layers →
    fs.found? frame thisName.text (.local_ 0) = some v → Kept fs k →
    Kept fs (o.initialized x v k)

namespace Upkeep

variable {o : Observer χ κ} (K : Upkeep o)

/-- A function is in the frame of its place, and its code is known. An initializer stands directly in
a class. -/
structure Code (fs : Frames) (x : χ) (p : Position) (c : Closure) : Prop where
  place : K.At fs x p c.frame
  nodes : ∀ n ∈ codeNodes p c.params c.body, K.Good n
  initializer : c.isInitializer = true → ∃ q, p.layers = (Position.class_ q).layers

structure Methods (fs : Frames) (x : χ) (p : Position) (c : Class) : Prop where
  place : K.At fs x p c.frame
  nodes : ∀ n ∈ methodsNodes (p.class_.child 0) c.methods, K.Good n

def Function (fs : Frames) (x : χ) (c : Closure) : Prop := ∃ p, K.Code fs x p c

def KnownClass (fs : Frames) (x : χ) (c : Class) : Prop := ∃ p, K.Methods fs x p c

def Callee (fs : Frames) (x : χ) : Machine.Callee → Prop
  | .native _ => True
  | .function c => K.Function fs x c
  | .class_ _ c => K.KnownClass fs x c

structure Sound (t : Observed χ κ) : Prop where
  functions : ∀ (ref : Nat) (c : Closure), t.machine.closures[ref]? = some c →
    K.Function t.machine.frames (t.functionAt ref) c
  classes : ∀ (ref : Nat) (c : Class), t.machine.classes[ref]? = some c →
    K.KnownClass t.machine.frames (t.classAt ref) c
  kept : K.Kept t.machine.frames t.account

def Here (x : χ) (p : Position) (t : Observed χ κ) : Prop :=
  K.At t.machine.frames x p t.machine.current

def There (x : χ) (p : Position) (frame : Nat) (t : Observed χ κ) : Prop :=
  K.At t.machine.frames x p frame

/-- How an observed run ends beside the run. -/
inductive Ended (t : Observed χ κ) (Q : α → Observed χ κ → Prop) :
    EStateM.Result Exit (Observed χ κ) α → EStateM.Result Exit Machine α → Prop
  | ok {a t'} (sound : K.Sound t') (later : K.Later t.machine.frames t'.machine.frames)
    (back : t'.machine.current = t.machine.current) (post : Q a t') :
    Ended t Q (.ok a t') (.ok a t'.machine)
  | error {e t'} (sound : K.Sound t') (later : K.Later t.machine.frames t'.machine.frames)
    (back : t'.machine.current = t.machine.current) : Ended t Q (.error e t') (.error e t'.machine)

/-- From a sound state of which `P` holds, an observed run ends as the run does, with what `Q` says,
and the state stays sound. -/
def Keeps (P : Observed χ κ → Prop) (x : ObservedRun χ κ α) (y : Run α)
    (Q : α → Observed χ κ → Prop) : Prop :=
  ∀ t, K.Sound t → P t → K.Ended t Q (x t) (y t.machine)

def Lasts (P : Observed χ κ → Prop) : Prop :=
  ∀ t t' : Observed χ κ, K.Later t.machine.frames t'.machine.frames →
    t'.machine.current = t.machine.current → P t → P t'

def Anyhow (_ : α) (_ : Observed χ κ) : Prop := True

variable {K}

theorem Code.later {fs gs : Frames} {x : χ} {p : Position} {c : Closure} (h : K.Code fs x p c)
    (later : K.Later fs gs) : K.Code gs x p c := { h with place := K.lasting h.place later }

theorem Function.later {fs gs : Frames} {x : χ} {c : Closure} (h : K.Function fs x c)
    (later : K.Later fs gs) : K.Function gs x c :=
  let ⟨p, code⟩ := h
  ⟨p, code.later later⟩

theorem KnownClass.later {fs gs : Frames} {x : χ} {c : Class} (h : K.KnownClass fs x c)
    (later : K.Later fs gs) : K.KnownClass gs x c :=
  let ⟨p, methods⟩ := h
  ⟨p, { methods with place := K.lasting methods.place later }⟩

theorem Callee.later {fs gs : Frames} {x : χ} {c : Machine.Callee} (h : K.Callee fs x c)
    (later : K.Later fs gs) : K.Callee gs x c := by
  cases c with
  | native n => trivial
  | function c => exact Function.later h later
  | class_ ref c => exact KnownClass.later h later

theorem lasts_here (x : χ) (p : Position) : K.Lasts (K.Here x p) := by
  intro t t' later back here
  rw [Here, back]
  exact K.lasting here later

theorem lasts_there (x : χ) (p : Position) (frame : Nat) : K.Lasts (K.There x p frame) :=
  fun _ _ later _ there => K.lasting there later

theorem lasts_callee (x : χ) (c : Machine.Callee) :
    K.Lasts fun t => K.Callee t.machine.frames x c :=
  fun _ _ later _ h => h.later later

/-- A sound state whose frames go on to later ones, with nothing made and the account kept. -/
theorem Sound.later {t t' : Observed χ κ} (h : K.Sound t)
    (later : K.Later t.machine.frames t'.machine.frames)
    (closures : t'.machine.closures = t.machine.closures)
    (classes : t'.machine.classes = t.machine.classes) (functionAt : t'.functionAt = t.functionAt)
    (classAt : t'.classAt = t.classAt) (kept : K.Kept t'.machine.frames t'.account) :
    K.Sound t' where
  functions ref c hc := by
    rw [closures] at hc
    rw [functionAt]
    exact (h.functions ref c hc).later later
  classes ref c hc := by
    rw [classes] at hc
    rw [classAt]
    exact (h.classes ref c hc).later later
  kept := kept

theorem method?_find? (x : χ) (name : String) (ms : List BoundMethod) :
    (o.method? x name ms).map Prod.snd = ms.reverse.find? fun m => m.name.text == name := by
  induction ms generalizing x with
  | nil => rfl
  | cons m ms ih =>
    rw [List.reverse_cons, List.find?_append, ← ih (o.child 1 x)]
    simp only [Observer.method?]
    cases o.method? (o.child 1 x) name ms with
    | some found => rfl
    | none =>
      simp only [Option.map_none, Option.none_or, List.find?_singleton]
      split <;> rfl

/-- What is known of the code of a method is known at its place. -/
theorem method?_place {fs : Frames} {x y : χ} {p : Position} {frame : Nat} {name : String}
    {ms : List BoundMethod} {m : BoundMethod} (h : K.At fs x p frame)
    (found : o.method? x name ms = some (y, m)) :
    ∃ q, K.At fs y q frame ∧ methodPosition p name ms = some (q, m) := by
  induction ms generalizing x p with
  | nil => cases found
  | cons k ms ih =>
    have last := method?_find? (o := o) (o.child 1 x) name ms
    rw [← methodPosition_find? (p.child 1)] at last
    simp only [Observer.method?] at found
    cases further : o.method? (o.child 1 x) name ms with
    | some pair =>
      rw [further] at found
      cases found
      obtain ⟨q, place, position⟩ := ih (K.child 1 h) further
      exact ⟨q, place, by simp only [methodPosition, position]⟩
    | none =>
      rw [further] at found last
      have none : methodPosition (p.child 1) name ms = none := Option.map_eq_none_iff.mp last.symm
      simp only at found
      by_cases named : (k.name.text == name) = true
      · rw [if_pos named] at found
        cases found
        exact ⟨p.child 0, K.child 0 h, by simp only [methodPosition, none, if_pos named]⟩
      · rw [if_neg named] at found
        cases found

/-- Frames, functions and classes are as they were. -/
def Idle (y : Run α) : Prop :=
  ∀ m, (endState (y m)).frames = m.frames ∧ (endState (y m)).current = m.current ∧
    (endState (y m)).closures = m.closures ∧ (endState (y m)).classes = m.classes

namespace Keeps

variable {P : Observed χ κ → Prop} {x : ObservedRun χ κ α} {y : Run α}
  {Q : α → Observed χ κ → Prop} {R : β → Observed χ κ → Prop}

theorem weaken {P' : Observed χ κ → Prop} (h : K.Keeps P' x y Q) (hp : ∀ t, P t → P' t) :
    K.Keeps P x y Q := fun t sound pre => h t sound (hp t pre)

theorem pure {a : α} (h : ∀ t, P t → Q a t) : K.Keeps P (Pure.pure a) (Pure.pure a) Q :=
  fun t sound pre => .ok sound (K.refl _) rfl (h t pre)

theorem ended {t : Observed χ κ} {r : EStateM.Result Exit (Observed χ κ) α}
    {r' : EStateM.Result Exit Machine α} (h : K.Ended t Q r r') {s : Observed χ κ}
    (later : K.Later s.machine.frames t.machine.frames)
    (back : t.machine.current = s.machine.current) : K.Ended s Q r r' := by
  cases h with
  | ok sound later' back' post => exact .ok sound (K.trans later later') (back'.trans back) post
  | error sound later' back' => exact .error sound (K.trans later later') (back'.trans back)

/-- What is known before lasts through the first part. -/
theorem bind {f : α → ObservedRun χ κ β} {g : α → Run β} (h : K.Keeps P x y Q) (lasts : K.Lasts P)
    (hf : ∀ a, K.Keeps (fun t => P t ∧ Q a t) (f a) (g a) R) :
    K.Keeps P (x >>= f) (y >>= g) R := by
  intro t sound pre
  have first := h t sound pre
  simp only [Bind.bind, EStateM.bind]
  generalize x t = r at first ⊢
  generalize y t.machine = r' at first ⊢
  cases first with
  | ok sound later back post => exact ended (hf _ _ sound ⟨lasts _ _ later back pre, post⟩) later back
  | error sound later back => exact .error sound later back

theorem behind {f : α → ObservedRun χ κ β} {g : α → Run β} (h : K.Keeps P x y Q)
    (lasts : K.Lasts P) (hf : ∀ a, K.Keeps P (f a) (g a) R) : K.Keeps P (x >>= f) (y >>= g) R :=
  h.bind lasts fun a => (hf a).weaken fun _ pre => pre.1

theorem idle (h : Idle y) : K.Keeps P (ObservedRun.lift y) y Anyhow := by
  intro t sound pre
  obtain ⟨frames, current, closures, classes⟩ := h t.machine
  simp only [ObservedRun.lift]
  generalize y t.machine = r at frames current closures classes ⊢
  cases r with
  | ok a m =>
    exact .ok (sound.later (frames ▸ K.refl _) closures classes rfl rfl (frames ▸ sound.kept))
      (frames ▸ K.refl _) current trivial
  | error e m =>
    exact .error (sound.later (frames ▸ K.refl _) closures classes rfl rfl (frames ▸ sound.kept))
      (frames ▸ K.refl _) current

theorem exit {e : Exit} : K.Keeps P (ObservedRun.lift (Run.exit e : Run α)) (Run.exit e) Q :=
  fun _ sound _ => .error sound (K.refl _) rfl

theorem fail {line : Nat} {fault : Fault} :
    K.Keeps P (ObservedRun.lift (Run.fail line fault : Run α)) (Run.fail line fault) Q := exit

theorem ofExcept (line : Nat) (r : Except Fault α) :
    K.Keeps P (ObservedRun.lift (Run.ofExcept line r)) (Run.ofExcept line r) Anyhow := by
  cases r with
  | ok a => exact pure fun _ _ => trivial
  | error fault => exact fail

theorem print (v : Value) : K.Keeps P (ObservedRun.lift (Run.print v)) (Run.print v) Anyhow :=
  idle fun _ => ⟨rfl, rfl, rfl, rfl⟩

theorem readClock : K.Keeps P (ObservedRun.lift Run.readClock) Run.readClock Anyhow :=
  idle fun _ => ⟨rfl, rfl, rfl, rfl⟩

theorem makeInstance (ref : Nat) :
    K.Keeps P (ObservedRun.lift (Run.makeInstance ref)) (Run.makeInstance ref)
      fun made _ => ∃ ref, made = .instance_ ref :=
  fun _ sound _ => .ok (sound.later (K.refl _) rfl rfl rfl rfl sound.kept) (K.refl _) rfl ⟨_, rfl⟩

theorem setField (ref : Nat) (name : String) (v : Value) :
    K.Keeps P (ObservedRun.lift (Run.setField ref name v)) (Run.setField ref name v) Anyhow :=
  idle fun _ => ⟨rfl, rfl, rfl, rfl⟩

theorem fieldOwner (object : Value) (name : Name) :
    K.Keeps P (ObservedRun.lift (Run.fieldOwner object name)) (Run.fieldOwner object name)
      Anyhow := by
  refine idle fun m => ?_
  simp only [Run.fieldOwner]
  cases m.instance? object <;> exact ⟨rfl, rfl, rfl, rfl⟩

theorem currentFrame_bind {f : Nat → ObservedRun χ κ β} {g : Nat → Run β}
    (h : ∀ frame, K.Keeps (fun t => P t ∧ t.machine.current = frame) (f frame) (g frame) R) :
    K.Keeps P (ObservedRun.lift Run.currentFrame >>= f) (Run.currentFrame >>= g) R :=
  fun t sound pre => h t.machine.current t sound ⟨pre, rfl⟩

section

variable {x : χ} {p : Position} {z : ObservedRun χ κ α} {w : Run α}

theorem within (frame : Nat) (h : K.Keeps (K.Here x p) z w Q) :
    K.Keeps (K.There x p frame) (o.instrument.within frame z) (Run.within frame w) Anyhow := by
  intro t sound there
  have begun : K.Sound { t with machine := { t.machine with current := frame } } :=
    sound.later (K.refl _) rfl rfl rfl rfl sound.kept
  have inside := h _ begun there
  simp only [Instrument.within, Observer.instrument, Run.within]
  generalize z _ = r at inside ⊢
  generalize w _ = r' at inside ⊢
  cases inside with
  | ok sound later _ _ =>
    exact .ok (sound.later (K.refl _) rfl rfl rfl rfl sound.kept) later rfl trivial
  | error sound later _ =>
    exact .error (sound.later (K.refl _) rfl rfl rfl rfl sound.kept) later rfl

theorem returning {y : χ} {z : ObservedRun χ κ Unit} {w : Run Unit} (h : K.Keeps P z w Anyhow) :
    K.Keeps P (o.instrument.returning y z) (Run.returning w) Anyhow := by
  intro t sound pre
  have body := h t sound pre
  simp only [Instrument.returning, Run.returning]
  generalize z t = r at body ⊢
  generalize w t.machine = r' at body ⊢
  cases body with
  | ok sound later back _ => exact .ok sound later back trivial
  | @error e t' sound later back =>
    cases e with
    | returned v => exact .ok sound later back trivial
    | _ => exact .error sound later back

theorem goesOn {y : χ} {z : ObservedRun χ κ Unit} {w : Run Unit} (h : K.Keeps P z w Anyhow) :
    K.Keeps P (o.instrument.goesOn y z) (Run.goesOn w) Anyhow := by
  intro t sound pre
  have body := h t sound pre
  simp only [Instrument.goesOn, Run.goesOn]
  generalize z t = r at body ⊢
  generalize w t.machine = r' at body ⊢
  cases body with
  | ok sound later back _ => exact .ok sound later back trivial
  | @error e t' sound later back =>
    cases e with
    | jumped jump => cases jump <;> exact .ok sound later back trivial
    | _ => exact .error sound later back

theorem continuing {y : χ} {z : ObservedRun χ κ Unit} {w : Run Unit} (h : K.Keeps P z w Anyhow) :
    K.Keeps P (o.instrument.continuing y z) (Run.continuing w) Anyhow := by
  intro t sound pre
  have body := h t sound pre
  simp only [Instrument.continuing, Run.continuing]
  generalize z t = r at body ⊢
  generalize w t.machine = r' at body ⊢
  cases body with
  | ok sound later back _ => exact .ok sound later back trivial
  | @error e t' sound later back =>
    cases e with
    | jumped jump =>
      cases jump with
      | break_ => exact .error sound later back
      | continue_ => exact .ok sound later back trivial
    | _ => exact .error sound later back

/-- A frame for a region in which nothing is called as the instance is. -/
theorem openFrame {params : List Name} (locals : List Name) (parent : Nat)
    (bindings : Bindings Value) (named : ∀ m ∈ params, m.text ≠ thisName.text) :
    K.Keeps (K.There x p parent) (ObservedRun.lift (Run.openFrame parent bindings))
      (Run.openFrame parent bindings) (K.There x (p.opened params locals)) := by
  intro t sound there
  have later := K.extend t.machine.frames parent bindings
  exact .ok (sound.later later rfl rfl rfl rfl (K.extended parent bindings sound.kept)) later rfl
    (K.opened bindings named there)

theorem load {node : Node Site} {use : Use} {name : Name} {site : Site} (good : K.Good (p, node))
    (isUse : node.use? = some (use, name, site)) :
    K.Keeps (K.Here x p) (ObservedRun.load o x use name site) (Run.load name site) Anyhow := by
  intro t sound here
  have consulted := K.consulted good isUse here sound.kept
  have known := K.loaded good isUse here consulted
  simp only [ObservedRun.load, K.site good isUse here]
  rcases Run.load_cases name site t.machine with ⟨v, loaded, found⟩ | ⟨e, failed, found⟩
  · rw [found] at known
    rw [loaded]
    exact .ok (sound.later (K.refl _) rfl rfl rfl rfl known) (K.refl _) rfl trivial
  · rw [found] at known
    rw [failed]
    exact .error (sound.later (K.refl _) rfl rfl rfl rfl known) (K.refl _) rfl

theorem store {node : Node Site} {use : Use} {name : Name} {site : Site} (good : K.Good (p, node))
    (isUse : node.use? = some (use, name, site)) (named : name.text ≠ thisName.text) (v : Value) :
    K.Keeps (K.Here x p) (ObservedRun.store o x name v site) (Run.store name v site) Anyhow := by
  intro t sound here
  have consulted := K.consulted good isUse here sound.kept
  simp only [ObservedRun.store, Bind.bind, EStateM.bind, ObservedRun.note, ObservedRun.lift,
    K.site good isUse here]
  rcases Run.store_cases name v site t.machine with ⟨frame, stored⟩ | ⟨e, failed⟩
  · rw [stored]
    have later := K.define t.machine.frames frame v named
    exact .ok (sound.later later rfl rfl rfl rfl (K.bound v named consulted)) later rfl trivial
  · rw [failed]
    exact .error (sound.later (K.refl _) rfl rfl rfl rfl consulted) (K.refl _) rfl

theorem define {name : Name} (named : name.text ≠ thisName.text) (v : Value) :
    K.Keeps P (ObservedRun.define o name v) (Run.define name.text v) Anyhow := by
  intro t sound _
  have later := K.define t.machine.frames t.machine.current v named
  exact .ok (sound.later later rfl rfl rfl rfl (K.bound v named sound.kept)) later rfl trivial

theorem makeFunction (c : Closure) :
    K.Keeps (fun t => K.Function t.machine.frames x c) (ObservedRun.makeFunction x c)
      (Run.makeFunction c) Anyhow := by
  intro t sound known
  refine .ok ⟨fun ref c' found => ?_, sound.classes, sound.kept⟩ (K.refl _) rfl trivial
  have pushed : (t.machine.closures.push c)[ref]? = some c' := found
  rw [Array.getElem?_push] at pushed
  by_cases new : ref = t.machine.closures.size
  · rw [if_pos new] at pushed
    cases pushed
    simp only [if_pos new]
    exact known
  · rw [if_neg new] at pushed
    simp only [if_neg new]
    exact sound.functions ref c' pushed

theorem makeClass (c : Class) :
    K.Keeps (fun t => K.KnownClass t.machine.frames x c) (ObservedRun.makeClass x c)
      (Run.makeClass c) Anyhow := by
  intro t sound known
  refine .ok ⟨sound.functions, fun ref c' found => ?_, sound.kept⟩ (K.refl _) rfl trivial
  have pushed : (t.machine.classes.push c)[ref]? = some c' := found
  rw [Array.getElem?_push] at pushed
  by_cases new : ref = t.machine.classes.size
  · rw [if_pos new] at pushed
    cases pushed
    simp only [if_pos new]
    exact known
  · rw [if_neg new] at pushed
    simp only [if_neg new]
    exact sound.classes ref c' pushed

/-- A method is bound in a frame for the instance, and its code is known there. -/
theorem bindMethod {c : Class} {name : String} {y : χ} {method : BoundMethod} {receiver : Value}
    (isInstance : ∃ ref, receiver = .instance_ ref)
    (nodes : ∀ n ∈ methodsNodes (p.class_.child 0) c.methods, K.Good n)
    (found : o.method? (o.child 0 (o.receiving receiver x)) name c.methods = some (y, method)) :
    K.Keeps (K.There x p c.frame) (ObservedRun.bindMethod o c method receiver)
      (Run.bindMethod c method receiver) fun closure t => K.Function t.machine.frames y closure := by
  intro t sound there
  obtain ⟨ref, rfl⟩ := isInstance
  have later := K.extend t.machine.frames c.frame [(thisName.text, .instance_ ref)]
  have class_ := K.child 0 (K.receiving ref there)
  obtain ⟨q, place, position⟩ := method?_place class_ found
  have layers : q.layers = (p.class_.child 0).layers := methodPosition_layers position
  exact .ok (sound.later later rfl rfl rfl rfl (K.received c.frame ref sound.kept)) later rfl
    ⟨q, place, fun n hn => nodes n ((methodPosition_nodes position).2 n hn), fun _ => ⟨p, layers⟩⟩

theorem property (object : Value) (name : Name) :
    K.Keeps P (o.instrument.property x object name) (Run.property object name) Anyhow := by
  intro t sound pre
  simp only [Instrument.property, Run.property, read_bind, Observer.instrument]
  cases isInstance : t.machine.instance? object with
  | none => exact fail t sound pre
  | some found =>
    obtain ⟨ref, i⟩ := found
    simp only
    cases i.fields.find? name.text with
    | some v => exact pure (fun _ _ => trivial) t sound pre
    | none =>
      cases hc : t.machine.classes[i.class_]? with
      | none => exact fail t sound pre
      | some c =>
        have same : c.method? name.text =
            (o.method? (o.child 0 (o.receiving object (t.classAt i.class_))) name.text
              c.methods).map Prod.snd := (method?_find? _ _ _).symm
        simp only [Bind.bind, EStateM.bind, ObservedRun.madeAt, Option.bind_some, same]
        cases found : o.method? (o.child 0 (o.receiving object (t.classAt i.class_))) name.text
            c.methods with
        | none => exact fail t sound pre
        | some pair =>
          obtain ⟨y, method⟩ := pair
          obtain ⟨p, methods⟩ := sound.classes i.class_ c hc
          have bound := bindMethod (t.machine.instance_of_instance? isInstance) methods.nodes found
          exact bound.bind (lasts_there _ _ _)
            (fun closure => (makeFunction closure).weaken fun _ pre => pre.2) t sound methods.place

theorem callee_bind {f : Machine.Callee → χ → ObservedRun χ κ β} {g : Machine.Callee → Run β}
    (value : Value) (given line : Nat)
    (h : ∀ c y, K.Keeps (fun t => K.Callee t.machine.frames y c) (f c y) (g c) R) :
    K.Keeps P
      (ObservedRun.lift (Run.callee value given line) >>= fun c =>
        o.instrument.madeAt x value >>= fun y => f c y)
      (Run.callee value given line >>= g) R := by
  intro t sound _
  have known : ∀ c, t.machine.callee? value = some c →
      K.Callee t.machine.frames (ObservedRun.madeAt o t value) c := by
    intro c hc
    cases value with
    | function ref =>
      obtain ⟨closure, hr, rfl⟩ := Option.map_eq_some_iff.mp hc
      exact sound.functions ref closure hr
    | class_ ref =>
      obtain ⟨k, hr, rfl⟩ := Option.map_eq_some_iff.mp hc
      exact sound.classes ref k hr
    | native n => cases hc; trivial
    | _ => cases hc
  simp only [ObservedRun.lift, Run.callee, Bind.bind, EStateM.bind]
  cases hc : t.machine.callee? value with
  | none => exact .error sound (K.refl _) rfl
  | some c =>
    simp only
    by_cases arity : given = c.arity
    · simp only [if_pos arity]
      exact h c _ t sound (known c hc)
    · simp only [if_neg arity]
      exact .error sound (K.refl _) rfl

theorem initialized {q : Position} (frame : Nat) (class_ : p.layers = q.class_.layers) :
    K.Keeps (K.There x p frame) (o.instrument.receiver x frame)
      (Run.within frame (Run.load ⟨Keyword.this_.spelling, 0⟩ (.local_ 0))) Anyhow := by
  intro t sound there
  simp only [Instrument.receiver, Instrument.within, Observer.instrument, Bind.bind, EStateM.bind,
    ObservedRun.lift, Run.within, ObservedRun.note]
  rcases Run.load_cases thisName (.local_ 0) { t.machine with current := frame } with
    ⟨v, loaded, found⟩ | ⟨e, failed, -⟩
  · have loaded : Run.load ⟨Keyword.this_.spelling, 0⟩ (.local_ 0)
        { t.machine with current := frame } = .ok v _ := loaded
    rw [loaded]
    exact .ok (sound.later (K.refl _) rfl rfl rfl rfl (K.initialized there class_ found sound.kept))
      (K.refl _) rfl trivial
  · have failed : Run.load ⟨Keyword.this_.spelling, 0⟩ (.local_ 0)
        { t.machine with current := frame } = .error e _ := failed
    rw [failed]
    exact .error (sound.later (K.refl _) rfl rfl rfl rfl sound.kept) (K.refl _) rfl

end

end Keeps

end Upkeep

end Script
