import Mathlib.Data.Nat.Find
import Script.Proofs.Store

/-! Chains of frames after any history.
Frames come of a single one by opening, binding and assigning. -/
namespace Script.Frames

/-- What is done with frames as a program runs. -/
inductive Operation where
  | extend (parent : Nat)
  | define (ref : Nat) (name : String) (value : Value)
  | assignAt (ref distance : Nat) (name : String) (value : Value)
  | get (ref : Nat) (name : Name)
  | getAt (ref distance : Nat) (name : String)
deriving Repr, DecidableEq

def Operation.ref : Operation → Nat
  | extend parent => parent
  | define ref _ _ => ref
  | assignAt ref _ _ _ => ref
  | get ref _ => ref
  | getAt ref _ _ => ref

inductive Answer where
  | opened (ref : Nat)
  | done
  | value (value : Value)
  | failed (failure : Failure)
  | absent (absence : Absence)
deriving Repr, DecidableEq

def Answer.isFailure : Answer → Bool
  | failed _ => true
  | absent _ => true
  | _ => false

def perform (fs : Frames) : Operation → Answer × Frames
  | .extend parent => (.opened fs.next, fs.extend parent [])
  | .define ref name value => (.done, fs.define ref name value)
  | .assignAt ref distance name value =>
    match fs.assignAt ref distance name value with
    | .ok gs => (.done, gs)
    | .error absence => (.absent absence, fs)
  | .get ref name =>
    match fs.lookup? ref name.text with
    | some v => (.value v, fs)
    | none => (.failed ⟨.undefinedVariable name.text, name.line⟩, fs)
  | .getAt ref distance name =>
    match fs.valueAt ref distance name with
    | .ok v => (.value v, fs)
    | .error absence => (.absent absence, fs)

/-- Frames that come of a single empty one by operations on frames that are there. -/
inductive Reached : Frames → Prop
  | root : Reached (single [])
  | step {fs : Frames} (before : Reached fs) (op : Operation) (known : op.ref < fs.next) :
    Reached (fs.perform op).2

def links (fs : Frames) (ref : Nat) : Nat := (fs.chain ref).length - 1

def Binds (fs : Frames) (ref distance : Nat) (name : String) : Prop :=
  ∃ v, fs.valueAt ref distance name = .ok v

/-- Of the frames of a chain, the one so many links away is the first to bind the name. -/
def Nearest (fs : Frames) (ref distance : Nat) (name : String) : Prop :=
  fs.Binds ref distance name ∧ ∀ k < distance, ¬ fs.Binds ref k name

variable {fs gs : Frames} {ref target distance : Nat} {name key : String} {value : Value}

theorem ancestor?_eq_chain (fs : Frames) (ref distance : Nat) :
    fs.ancestor? ref distance = (fs.chain ref)[distance]? := by
  induction distance generalizing ref with
  | zero =>
    cases h : fs.parent? ref with
    | none => rw [chain_of_none h]; rfl
    | some p => rw [chain_of_some h]; rfl
  | succ distance ih =>
    rw [ancestor?]
    cases h : fs.parent? ref with
    | none => rw [chain_of_none h]; rfl
    | some p => rw [chain_of_some h, List.getElem?_cons_succ, ← ih]; rfl

theorem chain_ne_nil (fs : Frames) (ref : Nat) : fs.chain ref ≠ [] := by
  cases h : fs.parent? ref with
  | none => rw [chain_of_none h]; exact List.cons_ne_nil _ _
  | some p => rw [chain_of_some h]; exact List.cons_ne_nil _ _

theorem ancestor?_eq_none_iff : fs.ancestor? ref distance = none ↔ fs.links ref < distance := by
  have some := List.length_pos_iff.mpr (fs.chain_ne_nil ref)
  rw [ancestor?_eq_chain, List.getElem?_eq_none_iff, links]
  omega

theorem ancestor?_add (fs : Frames) (ref a b : Nat) :
    fs.ancestor? ref (a + b) = (fs.ancestor? ref a).bind fun m => fs.ancestor? m b := by
  induction a generalizing ref with
  | zero => rw [Nat.zero_add]; rfl
  | succ a ih =>
    rw [Nat.succ_add, ancestor?, ancestor?]
    cases fs.parent? ref with
    | none => rfl
    | some p => exact ih p

theorem ancestor?_le {a : Nat} (h : fs.ancestor? ref distance = some a) : a ≤ ref := by
  induction distance generalizing ref with
  | zero => exact Nat.le_of_eq (Option.some.inj h).symm
  | succ distance ih =>
    obtain ⟨p, hp, ha⟩ := Option.bind_eq_some_iff.mp h
    exact Nat.le_trans (ih ha) (Nat.le_of_lt (fs.parent?_lt hp))

theorem frameAt_eq_error_iff :
    fs.frameAt ref distance = .error (.frame distance) ↔ fs.links ref < distance := by
  rw [← ancestor?_eq_none_iff, frameAt]
  cases fs.ancestor? ref distance with
  | none => exact ⟨fun _ => rfl, fun _ => rfl⟩
  | some a =>
    constructor
    · intro h
      cases h
    · intro h
      cases h

theorem valueAt_of_far (h : fs.ancestor? ref distance = none) (name : String) :
    fs.valueAt ref distance name = .error (.frame distance) := by
  simp only [valueAt, frameAt, h]
  rfl

theorem binds_iff : fs.Binds ref distance name ↔
    ∃ a v, fs.ancestor? ref distance = some a ∧ (fs.bindings a).find? name = some v := by
  unfold Binds
  cases ha : fs.ancestor? ref distance with
  | none =>
    rw [valueAt_of_far ha]
    exact ⟨nofun, nofun⟩
  | some a =>
    rw [valueAt_of_ancestor? ha]
    cases hf : (fs.bindings a).find? name with
    | none => exact ⟨nofun, fun ⟨_, _, same, found⟩ => by cases same; cases hf.symm.trans found⟩
    | some v => exact ⟨fun _ => ⟨a, v, rfl, hf⟩, fun _ => ⟨v, rfl⟩⟩

theorem binds_zero_iff : fs.Binds ref 0 name ↔ ∃ v, (fs.bindings ref).find? name = some v := by
  rw [binds_iff]
  exact ⟨fun ⟨_, v, same, found⟩ => by cases same; exact ⟨v, found⟩,
    fun ⟨v, found⟩ => ⟨ref, v, rfl, found⟩⟩

theorem binds_succ_iff {p : Nat} (hp : fs.parent? ref = some p) :
    fs.Binds ref (distance + 1) name ↔ fs.Binds p distance name := by
  rw [binds_iff, binds_iff, ancestor?, hp]
  rfl

theorem not_binds_of_root (hp : fs.parent? ref = none) : ¬ fs.Binds ref (distance + 1) name := by
  rw [binds_iff, ancestor?, hp]
  rintro ⟨_, _, none, _⟩
  cases none

theorem lookup?_here (h : (fs.bindings ref).find? name = some value) :
    fs.lookup? ref name = some value := by
  rw [lookup?, h]

theorem lookup?_outer {p : Nat} (h : (fs.bindings ref).find? name = none)
    (hp : fs.parent? ref = some p) : fs.lookup? ref name = fs.lookup? p name := by
  rw [lookup?, h]
  split
  · rename_i v hv
    cases hv
  · split
    · rename_i q hq
      rw [hp] at hq
      cases hq
      rfl
    · rename_i hq
      rw [hp] at hq
      cases hq

/-- A name is looked up at the distance of the nearest frame that binds it. -/
theorem lookup?_of_nearest (h : fs.Nearest ref distance name) :
    ∃ v, fs.valueAt ref distance name = .ok v ∧ fs.lookup? ref name = some v := by
  induction distance generalizing ref with
  | zero =>
    obtain ⟨v, hv⟩ := binds_zero_iff.mp h.1
    refine ⟨v, ?_, lookup?_here hv⟩
    rw [valueAt_self, hv]
  | succ distance ih =>
    obtain ⟨bound, nearer⟩ := h
    cases hp : fs.parent? ref with
    | none => exact absurd bound (not_binds_of_root hp)
    | some p =>
      have outer : fs.Nearest p distance name := ⟨(binds_succ_iff hp).mp bound, fun k hk inner =>
        nearer (k + 1) (Nat.succ_lt_succ hk) ((binds_succ_iff hp).mpr inner)⟩
      have here : (fs.bindings ref).find? name = none := by
        have unbound := nearer 0 (Nat.succ_pos distance)
        rw [binds_zero_iff] at unbound
        exact Option.eq_none_iff_forall_ne_some.mpr fun v hv => unbound ⟨v, hv⟩
      obtain ⟨v, hv, found⟩ := ih outer
      refine ⟨v, ?_, (lookup?_outer here hp).trans found⟩
      rw [← hv]
      have away : fs.ancestor? ref (distance + 1) = fs.ancestor? p distance := by
        rw [ancestor?, hp]
        rfl
      cases ha : fs.ancestor? p distance with
      | none =>
        rw [valueAt_of_far ha] at hv
        cases hv
      | some a => rw [valueAt_of_ancestor? ha, valueAt_of_ancestor? (away.trans ha)]

theorem exists_nearest (h : fs.lookup? ref name = some value) : ∃ d, fs.Nearest ref d name := by
  induction ref using Nat.strongRecOn with
  | ind ref ih =>
    cases hf : (fs.bindings ref).find? name with
    | some v => exact ⟨0, binds_zero_iff.mpr ⟨v, hf⟩, nofun⟩
    | none =>
      cases hp : fs.parent? ref with
      | none =>
        rw [lookup?_root _ _ _ hp, hf] at h
        cases h
      | some p =>
        rw [lookup?_outer hf hp] at h
        obtain ⟨d, bound, nearer⟩ := ih p (fs.parent?_lt hp) h
        refine ⟨d + 1, (binds_succ_iff hp).mpr bound, fun k hk inner => ?_⟩
        cases k with
        | zero =>
          obtain ⟨v, hv⟩ := binds_zero_iff.mp inner
          cases hf.symm.trans hv
        | succ k => exact nearer k (Nat.lt_of_succ_lt_succ hk) ((binds_succ_iff hp).mp inner)

theorem lookup?_eq_none_iff : fs.lookup? ref name = none ↔ ∀ d, ¬ fs.Binds ref d name := by
  constructor
  · intro none d bound
    -- the least distance that binds is the nearest
    classical
    have some : ∃ d, fs.Binds ref d name := ⟨d, bound⟩
    have least : fs.Nearest ref (Nat.find some) name :=
      ⟨Nat.find_spec some, fun _ hk => Nat.find_min some hk⟩
    obtain ⟨v, -, found⟩ := lookup?_of_nearest least
    cases none.symm.trans found
  · intro unbound
    refine Option.eq_none_iff_forall_ne_some.mpr fun v found => ?_
    obtain ⟨d, bound, -⟩ := exists_nearest found
    exact unbound d bound

def written? (fs : Frames) : Operation → Option (Nat × String × Value)
  | .define ref name value => some (ref, name, value)
  | .assignAt ref distance name value => (fs.ancestor? ref distance).map fun a => (a, name, value)
  | _ => none

/-- One name of one frame was bound, and everything else is as it was. -/
structure Rebound (fs gs : Frames) (target : Nat) (name : String) (value : Value) : Prop where
  next : gs.next = fs.next
  chain : ∀ ref, gs.chain ref = fs.chain ref
  bindings : ∀ ref key, (gs.bindings ref).find? key =
    if ref = target ∧ key = name then some value else (fs.bindings ref).find? key
  valueAt : ∀ ref distance key, gs.valueAt ref distance key =
    if fs.ancestor? ref distance = some target ∧ key = name then .ok value
    else fs.valueAt ref distance key
  seen : ∀ ref distance, fs.ancestor? ref distance = some target →
    (∀ k < distance, ¬ fs.Binds ref k name) → gs.lookup? ref name = some value
  unseen : ∀ ref key, gs.lookup? ref key ≠ fs.lookup? ref key → key = name ∧
    ∃ distance, fs.ancestor? ref distance = some target ∧ ∀ k < distance, ¬ fs.Binds ref k name

/-- A frame was opened in another one. It binds nothing, and the older frames are as they were. -/
structure Opened (fs gs : Frames) (parent : Nat) : Prop where
  next : gs.next = fs.next + 1
  chain : gs.chain fs.next = fs.next :: fs.chain parent
  bindings : gs.bindings fs.next = []
  older : ∀ ref < fs.next, gs.chain ref = fs.chain ref ∧ ∀ key,
    (∀ distance, gs.valueAt ref distance key = fs.valueAt ref distance key) ∧
      gs.lookup? ref key = fs.lookup? ref key

theorem chain_congr (h : ∀ i, i ≤ ref → gs.parent? i = fs.parent? i) :
    gs.chain ref = fs.chain ref := by
  induction ref using Nat.strongRecOn with
  | ind ref ih =>
    have same := h ref (Nat.le_refl ref)
    cases hp : fs.parent? ref with
    | none => rw [chain_of_none hp, chain_of_none (same.trans hp)]
    | some p =>
      have lt := fs.parent?_lt hp
      rw [chain_of_some hp, chain_of_some (same.trans hp),
        ih p lt fun i hi => h i (Nat.le_trans hi (Nat.le_of_lt lt))]

theorem valueAt_congr {gs : Frames} (same : gs.chain ref = fs.chain ref)
    (bindings : ∀ i, i ≤ ref → (gs.bindings i).find? key = (fs.bindings i).find? key) :
    gs.valueAt ref distance key = fs.valueAt ref distance key := by
  have away : gs.ancestor? ref distance = fs.ancestor? ref distance := by
    rw [ancestor?_eq_chain, ancestor?_eq_chain, same]
  cases ha : fs.ancestor? ref distance with
  | none => rw [valueAt_of_far ha, valueAt_of_far (away.trans ha)]
  | some a =>
    rw [valueAt_of_ancestor? ha, valueAt_of_ancestor? (away.trans ha), bindings a (ancestor?_le ha)]

theorem lookup?_congr (parents : ∀ i, i ≤ ref → gs.parent? i = fs.parent? i)
    (bindings : ∀ i, i ≤ ref → (gs.bindings i).find? key = (fs.bindings i).find? key) :
    gs.lookup? ref key = fs.lookup? ref key := by
  induction ref using Nat.strongRecOn with
  | ind ref ih =>
    have here := bindings ref (Nat.le_refl ref)
    have same := parents ref (Nat.le_refl ref)
    cases hf : (fs.bindings ref).find? key with
    | some v => rw [lookup?_here hf, lookup?_here (here.trans hf)]
    | none =>
      cases hp : fs.parent? ref with
      | none => rw [lookup?_root _ _ _ hp, lookup?_root _ _ _ (same.trans hp), here]
      | some p =>
        have lt := fs.parent?_lt hp
        rw [lookup?_outer hf hp, lookup?_outer (here.trans hf) (same.trans hp),
          ih p lt (fun i hi => parents i (Nat.le_trans hi (Nat.le_of_lt lt)))
            fun i hi => bindings i (Nat.le_trans hi (Nat.le_of_lt lt))]

theorem find?_define_known (known : target < fs.next) (i : Nat) :
    ((fs.define target name value).bindings i).find? key =
      if i = target ∧ key = name then some value else (fs.bindings i).find? key := by
  rw [find?_define]
  by_cases hit : i = target ∧ key = name
  · rw [if_pos hit, if_pos ⟨hit.1.symm, hit.1 ▸ known, hit.2⟩]
  · rw [if_neg hit, if_neg fun h => hit ⟨h.1.symm, h.2.2⟩]

/-- If a name is found otherwise than before, the frame is the nearest that could have bound it. -/
theorem lookup?_define_ne (known : target < fs.next)
    (h : (fs.define target name value).lookup? ref key ≠ fs.lookup? ref key) :
    key = name ∧ ∃ d, fs.ancestor? ref d = some target ∧ ∀ k < d, ¬ fs.Binds ref k name := by
  induction ref using Nat.strongRecOn with
  | ind ref ih =>
    have here : ((fs.define target name value).bindings ref).find? key =
        if ref = target ∧ key = name then some value else (fs.bindings ref).find? key :=
      find?_define_known known ref
    by_cases hit : ref = target ∧ key = name
    · exact ⟨hit.2, 0, congrArg some hit.1, nofun⟩
    · rw [if_neg hit] at here
      cases hf : (fs.bindings ref).find? key with
      | some v => exact absurd ((lookup?_here (here.trans hf)).trans (lookup?_here hf).symm) h
      | none =>
        have parent := parent?_define fs target name value ref
        cases hp : fs.parent? ref with
        | none =>
          rw [lookup?_root _ _ _ hp, lookup?_root _ _ _ (parent.trans hp), here] at h
          exact absurd rfl h
        | some p =>
          rw [lookup?_outer hf hp, lookup?_outer (here.trans hf) (parent.trans hp)] at h
          obtain ⟨rfl, d, ha, nearer⟩ := ih p (fs.parent?_lt hp) h
          refine ⟨rfl, d + 1, by rw [ancestor?, hp]; exact ha, fun k hk inner => ?_⟩
          cases k with
          | zero =>
            obtain ⟨v, hv⟩ := binds_zero_iff.mp inner
            cases hf.symm.trans hv
          | succ k => exact nearer k (Nat.lt_of_succ_lt_succ hk) ((binds_succ_iff hp).mp inner)

theorem define_rebound (known : target < fs.next) (name : String) (value : Value) :
    Rebound fs (fs.define target name value) target name value := by
  have bindings (ref : Nat) (key : String) : ((fs.define target name value).bindings ref).find? key =
      if ref = target ∧ key = name then some value else (fs.bindings ref).find? key :=
    find?_define_known known ref
  have valueAt (ref distance : Nat) (key : String) :
      (fs.define target name value).valueAt ref distance key =
        if fs.ancestor? ref distance = some target ∧ key = name then .ok value
        else fs.valueAt ref distance key := by
    have away := ancestor?_define fs target name value ref distance
    cases ha : fs.ancestor? ref distance with
    | none =>
      rw [valueAt_of_far (away.trans ha), valueAt_of_far ha, if_neg fun h => nomatch h.1]
    | some a =>
      rw [valueAt_of_ancestor? (away.trans ha), valueAt_of_ancestor? ha, bindings]
      by_cases hit : a = target ∧ key = name
      · rw [if_pos hit, if_pos ⟨congrArg some hit.1, hit.2⟩]
      · rw [if_neg hit, if_neg fun h => hit ⟨Option.some.inj h.1, h.2⟩]
  refine ⟨next_define .., fun ref => chain_congr fun i _ => parent?_define .., bindings, valueAt,
    fun ref distance ha nearer => ?_, fun ref key => lookup?_define_ne known⟩
  have bound : (fs.define target name value).valueAt ref distance name = .ok value := by
    rw [valueAt, if_pos ⟨ha, rfl⟩]
  by_cases again : ∃ k, k < distance ∧ fs.ancestor? ref k = some target
  · -- a chain leads to a frame once only
    obtain ⟨k, hk, hka⟩ := again
    obtain ⟨more, rfl⟩ := Nat.exists_eq_add_of_lt hk
    rw [Nat.add_assoc, ancestor?_add, hka] at ha
    obtain ⟨p, hp, hq⟩ := Option.bind_eq_some_iff.mp (show fs.ancestor? target (more + 1) = _ from ha)
    exact absurd (Nat.lt_of_le_of_lt (ancestor?_le hq) (fs.parent?_lt hp)) (Nat.lt_irrefl _)
  · have nearest : (fs.define target name value).Nearest ref distance name := by
      refine ⟨⟨value, bound⟩, fun k hk ⟨v, hv⟩ => nearer k hk ⟨v, ?_⟩⟩
      rwa [valueAt, if_neg fun h => again ⟨k, hk, h.1⟩] at hv
    obtain ⟨v, hv, found⟩ := lookup?_of_nearest nearest
    cases bound.symm.trans hv
    exact found

theorem extend_opened {parent : Nat} (known : parent < fs.next) :
    Opened fs (fs.extend parent []) parent := by
  have older (ref : Nat) (h : ref < fs.next) (i : Nat) (hi : i ≤ ref) : i < fs.next :=
    Nat.lt_of_le_of_lt hi h
  have parents (ref : Nat) (h : ref < fs.next) (i : Nat) (hi : i ≤ ref) :=
    parent?_extend_of_lt fs parent [] (older ref h i hi)
  have bindings (ref : Nat) (h : ref < fs.next) (key : String) (i : Nat) (hi : i ≤ ref) :
      ((fs.extend parent []).bindings i).find? key = (fs.bindings i).find? key := by
    rw [bindings_extend, if_neg (Nat.ne_of_lt (older ref h i hi))]
  refine ⟨next_extend .., ?_, by rw [bindings_extend, if_pos rfl], fun ref h => ?_⟩
  · rw [chain_of_some (parent?_extend_next fs [] known), chain_congr (parents parent known)]
  · have same := chain_congr (parents ref h)
    exact ⟨same, fun key => ⟨fun distance => valueAt_congr same (bindings ref h key),
      lookup?_congr (parents ref h) (bindings ref h key)⟩⟩

theorem perform_cases (fs : Frames) (op : Operation) (known : op.ref < fs.next) :
    (∃ target name value, fs.written? op = some (target, name, value) ∧ target < fs.next ∧
      fs.perform op = (.done, fs.define target name value)) ∨
    (∃ parent, op = .extend parent ∧ parent < fs.next ∧
      fs.perform op = (.opened fs.next, fs.extend parent [])) ∨
    (fs.written? op = none ∧ (fs.perform op).2 = fs) := by
  cases op with
  | extend parent => exact .inr (.inl ⟨parent, rfl, known, rfl⟩)
  | define ref name value => exact .inl ⟨ref, name, value, rfl, known, rfl⟩
  | assignAt ref distance name value =>
    cases ha : fs.ancestor? ref distance with
    | none =>
      refine .inr (.inr ⟨by rw [written?, ha]; rfl, ?_⟩)
      simp only [perform, assignAt, frameAt, ha]
      rfl
    | some a =>
      refine .inl ⟨a, name, value, by rw [written?, ha]; rfl,
        Nat.lt_of_le_of_lt (ancestor?_le ha) known, ?_⟩
      simp only [perform, assignAt, frameAt, ha]
      rfl
  | get ref name =>
    refine .inr (.inr ⟨rfl, ?_⟩)
    simp only [perform]
    split <;> rfl
  | getAt ref distance name =>
    refine .inr (.inr ⟨rfl, ?_⟩)
    simp only [perform]
    split <;> rfl

/-- Every frame but the first one was opened in another. -/
def Linked (fs : Frames) : Prop :=
  0 < fs.next ∧ ∀ ref < fs.next, ref ≠ 0 → ∃ p, fs.parent? ref = some p

theorem Linked.perform {op : Operation} (h : fs.Linked) (known : op.ref < fs.next) :
    (fs.perform op).2.Linked := by
  rcases fs.perform_cases op known with ⟨target, name, value, -, -, he⟩ | ⟨parent, -, hp, he⟩ |
    ⟨-, same⟩
  · rw [he]
    exact ⟨by rw [next_define]; exact h.1, fun ref hr ne => by
      rw [next_define] at hr
      rw [parent?_define]
      exact h.2 ref hr ne⟩
  · rw [he]
    refine ⟨by rw [next_extend]; exact Nat.succ_pos _, fun ref hr ne => ?_⟩
    rw [next_extend] at hr
    rcases Nat.lt_succ_iff_lt_or_eq.mp hr with hr | rfl
    · rw [parent?_extend_of_lt _ _ _ hr]
      exact h.2 ref hr ne
    · exact ⟨parent, parent?_extend_next _ _ hp⟩
  · rw [same]
    exact h

theorem Reached.linked (h : Reached fs) : fs.Linked := by
  induction h with
  | root => exact ⟨Nat.one_pos, fun ref hr ne => absurd (Nat.lt_one_iff.mp hr) ne⟩
  | step before op known ih => exact ih.perform known

theorem Linked.getLast?_chain (h : fs.Linked) (known : ref < fs.next) :
    (fs.chain ref).getLast? = some 0 := by
  induction ref using Nat.strongRecOn with
  | ind ref ih =>
    by_cases zero : ref = 0
    · subst zero
      have rootless : fs.parent? 0 = none :=
        Option.eq_none_iff_forall_ne_some.mpr fun p hp => Nat.not_lt_zero p (fs.parent?_lt hp)
      rw [chain_of_none rootless]
      rfl
    · obtain ⟨p, hp⟩ := h.2 ref known zero
      have lt := fs.parent?_lt hp
      rw [chain_of_some hp, List.getLast?_cons_of_ne_nil (fs.chain_ne_nil p)]
      exact ih p lt (Nat.lt_trans lt known)

/-- What looking up, binding and opening obey. -/
structure Lawful (fs : Frames) : Prop where
  ends : ∀ ref < fs.next, (fs.chain ref).getLast? = some 0
  along : ∀ ref distance, fs.ancestor? ref distance = (fs.chain ref)[distance]?
  add : ∀ ref a b, fs.ancestor? ref (a + b) = (fs.ancestor? ref a).bind fun m => fs.ancestor? m b
  far : ∀ ref distance, fs.frameAt ref distance = .error (.frame distance) ↔ fs.links ref < distance
  nearest : ∀ ref distance (name : Name), fs.Nearest ref distance name.text →
    (fs.perform (.get ref name)).1 = (fs.perform (.getAt ref distance name.text)).1 ∧
      (fs.perform (.get ref name)).1.isFailure = false
  unbound : ∀ ref (name : Name), (fs.perform (.get ref name)).1 =
    .failed ⟨.undefinedVariable name.text, name.line⟩ ↔ ∀ distance, ¬ fs.Binds ref distance name.text
  binds : ∀ op target name value, op.ref < fs.next → fs.written? op = some (target, name, value) →
    (fs.perform op).1 = .done ∧ Rebound fs (fs.perform op).2 target name value
  opens : ∀ parent < fs.next, (fs.perform (.extend parent)).1 = .opened fs.next ∧
    Opened fs (fs.perform (.extend parent)).2 parent
  reads : ∀ op,
    (∃ ref name, op = .get ref name) ∨ (∃ ref distance name, op = .getAt ref distance name) →
    (fs.perform op).2 = fs
  fails : ∀ op, op.ref < fs.next → (fs.perform op).1.isFailure = true → (fs.perform op).2 = fs

/-- After any history the frames are lawful. -/
theorem lookups_lawful (h : Reached fs) : Lawful fs where
  ends _ known := h.linked.getLast?_chain known
  along := fs.ancestor?_eq_chain
  add := fs.ancestor?_add
  far _ _ := frameAt_eq_error_iff
  nearest ref distance name near := by
    obtain ⟨v, hv, found⟩ := lookup?_of_nearest near
    have get : (fs.perform (.get ref name)).1 = .value v := by simp only [perform, found]
    exact ⟨get.trans (by simp only [perform, hv]), by rw [get]; rfl⟩
  unbound ref name := by
    rw [← lookup?_eq_none_iff]
    cases hl : fs.lookup? ref name.text with
    | none => exact ⟨fun _ => rfl, fun _ => by simp only [perform, hl]⟩
    | some v =>
      have get : (fs.perform (.get ref name)).1 = .value v := by simp only [perform, hl]
      rw [get]
      exact ⟨nofun, nofun⟩
  binds op target name value known written := by
    rcases fs.perform_cases op known with ⟨_, _, _, same, lt, he⟩ | ⟨_, rfl, _⟩ | ⟨none, _⟩
    · rw [written] at same
      cases same
      rw [he]
      exact ⟨rfl, define_rebound lt name value⟩
    · cases written
    · cases none.symm.trans written
  opens _ known := ⟨rfl, extend_opened known⟩
  reads op reading := by
    rcases reading with ⟨ref, name, rfl⟩ | ⟨ref, distance, name, rfl⟩
    · simp only [perform]
      split <;> rfl
    · simp only [perform]
      split <;> rfl
  fails op known failing := by
    rcases fs.perform_cases op known with ⟨_, _, _, _, _, he⟩ | ⟨_, _, _, he⟩ | ⟨_, same⟩
    · rw [he] at failing
      cases failing
    · rw [he] at failing
      cases failing
    · exact same

/-- Two frames inside the first one: a name is bound in the first, then from the last one in the frame
between them. -/
def shadowing : List Operation :=
  [.extend 0, .extend 1, .define 0 "a" (.string "outer"), .assignAt 2 1 "a" (.string "inner")]

/-- The last frame sees the binding between them, the first one its own. -/
theorem lookups_lawful_shadowing :
    let fs := shadowing.foldl (fun fs op => (fs.perform op).2) (single [])
    Reached fs ∧ Lawful fs ∧ (fs.perform (.get 2 ⟨"a", 1⟩)).1 = .value (.string "inner") ∧
      (fs.perform (.get 0 ⟨"a", 1⟩)).1 = .value (.string "outer") ∧
      (fs.perform (.getAt 2 3 "a")).1 = .absent (.frame 3) := by
  intro fs
  have reached : Reached fs :=
    .step (.step (.step (.step .root _ (by decide)) _ (by decide)) _ (by decide)) _ (by decide)
  have lawful := lookups_lawful reached
  have last : fs.Nearest 2 1 "a" := by
    refine ⟨⟨.string "inner", rfl⟩, fun k hk ⟨v, hv⟩ => ?_⟩
    cases Nat.lt_one_iff.mp hk
    cases hv
  have first : fs.Nearest 0 0 "a" := ⟨⟨.string "outer", rfl⟩, nofun⟩
  exact ⟨reached, lawful, (lawful.nearest 2 1 ⟨"a", 1⟩ last).1, (lawful.nearest 0 0 ⟨"a", 1⟩ first).1,
    rfl⟩

end Script.Frames
