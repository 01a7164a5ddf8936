import Script.Proofs.Tracking.Following

/-! The single operations of a run: each keeps the invariant, and the renamed program carries it out
alike. -/
namespace Script

open Lexical Moment

namespace Lexical

/-- What is asked of a renaming where a use of a variable stands. -/
structure UseKnown (ρ : Renaming) (G : Position × Node Site → Prop) (p : Position) (use : Use)
    (name : Name) (site : Site) (renamed : String) : Prop where
  node : ∃ node, G (p, node) ∧ node.use? = some (use, name, site)
  site : site = p.site name.text
  respected : UseRespected ρ p name.text renamed

namespace UseKnown

variable {ρ : Renaming} {G : Position × Node Site → Prop} {p : Position} {use : Use} {name : Name}
  {renamed : String} {d : Nat}

theorem global (h : UseKnown ρ G p use name .global renamed) : renamed = name.text := by
  apply h.respected.global
  have hsite := h.site
  unfold Position.site at hsite
  cases hd : p.distance? name.text with
  | none => rfl
  | some d => rw [hd] at hsite; cases hsite

theorem distance (h : UseKnown ρ G p use name (.local_ d) renamed) :
    p.distance? name.text = some d := by
  have hsite := h.site
  unfold Position.site at hsite
  cases hd : p.distance? name.text with
  | none => rw [hd] at hsite; cases hsite
  | some d' => rw [hd] at hsite; cases hsite; rfl

theorem reaches (h : UseKnown ρ G p use name (.local_ d) renamed) {t : Moment}
    (hp : t.At p.layers) :
    ∃ frame, t.machine.frames.ancestor? t.machine.current d = some frame ∧
      frame < t.machine.frames.next ∧ renamed = ρ.keyAt (t.origin frame) name.text := by
  have hd := h.distance
  obtain ⟨hlt, _⟩ := List.findIdx?_eq_some_iff_getElem.mp hd
  have hl := List.getElem?_eq_getElem hlt
  obtain ⟨frame, hframe, hnext, horigin, _⟩ := Aligned.ancestor hp hl
  refine ⟨frame, hframe, hnext, ?_⟩
  rw [horigin]
  exact h.respected.local_ _ _ hd hl

end UseKnown

end Lexical

namespace Follows

variable {ρ : Renaming} {G : Position × Node Site → Prop} {inLoop inFunction : Bool}
  {P : Moment → Prop}

theorem currentFrame_bind {γ δ : Type} {f : Nat → TrackedRun γ} {g : Nat → Run δ}
    {R : γ → δ → Moment → Prop}
    (h : ∀ frame, Follows ρ G inLoop inFunction (fun t => P t ∧ t.machine.current = frame)
      (f frame) (g frame) R) :
    Follows ρ G inLoop inFunction P (TrackedRun.lift Run.currentFrame >>= f)
      (Run.currentFrame >>= g) R := by
  intro t m hs hr hp
  have he := h t.machine.current t m hs hr ⟨hp, rfl⟩
  show Ends ρ G _ _ _ t (f t.machine.current t) (g m.current m)
  rw [hr.current]
  exact he

theorem print {v : Value} :
    Follows ρ G inLoop inFunction P (TrackedRun.lift (Run.print v)) (Run.print v) Same := by
  intro t m hs hr hp
  refine .ok (.of_same hs ?_ rfl rfl rfl rfl rfl rfl rfl rfl rfl rfl) rfl
  refine { hr with output := ?_ }
  simp only [hr.text, hr.output]

theorem readClock :
    Follows ρ G inLoop inFunction P (TrackedRun.lift Run.readClock) Run.readClock Same := by
  intro t m hs hr hp
  refine .ok (.of_same hs ?_ rfl rfl rfl rfl rfl rfl rfl rfl rfl rfl) ?_
  · exact { hr with readings := congrArg (· + 1) hr.readings }
  · show Value.number _ = Value.number _
    rw [hr.clock, hr.readings]

theorem makeInstance {ref : Nat} :
    Follows ρ G inLoop inFunction P (TrackedRun.lift (Run.makeInstance ref)) (Run.makeInstance ref)
      Same := by
  intro t m hs hr hp
  refine .ok (.of_same hs ?_ rfl rfl rfl rfl rfl rfl rfl rfl rfl rfl) ?_
  · refine { hr with instances := ?_ }
    simp only [hr.instances]
  · show Value.instance_ _ = Value.instance_ _
    rw [hr.instances]

theorem setField {ref : Nat} {name : String} {v : Value} :
    Follows ρ G inLoop inFunction P (TrackedRun.lift (Run.setField ref name v))
      (Run.setField ref name v) Same := by
  intro t m hs hr hp
  refine .ok (.of_same hs ?_ rfl rfl rfl rfl rfl rfl rfl rfl rfl rfl) rfl
  refine { hr with instances := ?_ }
  simp only [hr.instances]

theorem fieldOwner {object : Value} {name : Name} :
    Follows ρ G inLoop inFunction P (TrackedRun.lift (Run.fieldOwner object name))
      (Run.fieldOwner object (ρ.name name)) Same := by
  intro t m hs hr hp
  simp only [TrackedRun.lift, Run.fieldOwner, hr.instance?]
  cases t.machine.instance? object with
  | none => exact .error (.refl hs hr) trivial (.same (.failed ⟨.fieldOfOther, name.line⟩))
  | some found => exact .ok (.refl hs hr) rfl

/-- A use that has been recorded, before anything is looked up. -/
theorem visited {t : Tracked} {p : Position} {use : Use} {name : Name} {distance : Nat}
    (hs : t.Sound ρ G) (hp : t.At p.layers)
    (node : ∃ node, G (p, node) ∧ node.use? = some (use, name, .local_ distance)) :
    Tracked.Sound ρ G { t with visits := ⟨p, use, name, distance, t.toMoment⟩ :: t.visits } := by
  refine hs.step (.refl _) hs.accounted (fun _ _ hc => .inl ⟨hc, rfl⟩) (fun _ _ hc => .inl ⟨hc, rfl⟩)
    fun v hv => ?_
  rcases List.mem_cons.mp hv with rfl | hv
  · exact .inr ⟨hs.accounted, hp, node⟩
  · exact .inl hv

theorem load {p : Position} {use : Use} {name : Name} {site : Site} {renamed : String}
    (reads : use ≠ .assign) (known : UseKnown ρ G p use name site renamed)
    (absent : Exit.Renamed ρ (.absent (.name name.text)) (.absent (.name renamed))) :
    Follows ρ G inLoop inFunction (Moment.At p.layers) (TrackedRun.load p use name site)
      (Run.load ⟨renamed, ρ.line name.line⟩ site) Same := by
  intro t m hs hr hp
  cases site with
  | global =>
    have hroot : m.frames.lookup? Machine.globals renamed =
        t.machine.frames.lookup? Machine.globals name.text := by
      rw [Frames.lookup?_root _ _ _ hs.accounted.rootless,
        Frames.lookup?_root _ _ _ ((hr.parent? _).trans hs.accounted.rootless), ← hr.find?,
        hs.accounted.regionless, known.global]
      rfl
    show Ends ρ G _ _ _ t (TrackedRun.lift (Run.load name .global) t) _
    simp only [TrackedRun.lift, Run.load, hroot]
    cases t.machine.frames.lookup? Machine.globals name.text with
    | some v => exact .ok (.refl hs hr) rfl
    | none =>
      rw [known.global]
      exact .error (.refl hs hr) trivial (.same (.failed ⟨.undefinedVariable name.text, name.line⟩))
  | local_ distance =>
    obtain ⟨frame, hframe, _, rfl⟩ := known.reaches hp
    have hs' := visited hs hp known.node
    have hvalue := Frames.valueAt_of_ancestor? hframe name.text
    have hvalue' : m.frames.valueAt m.current distance (ρ.keyAt (t.origin frame) name.text) = _ :=
      Frames.valueAt_of_ancestor? (by rw [hr.ancestor?, hr.current, hframe]) _
    rw [hr.find?] at hvalue'
    have hkept : ∀ absence?, Visit.absence? ⟨p, use, name, distance, t.toMoment⟩ = absence? →
        Kept ρ G t { t with visits := ⟨p, use, name, distance, t.toMoment⟩ :: t.visits } m
          absence? := by
      intro absence? habsence
      refine ⟨hs', hr, .refl _, rfl, [⟨p, use, name, distance, t.toMoment⟩], rfl, ?_⟩
      rw [List.filterMap_cons, habsence]
      cases absence? <;> rfl
    show Ends ρ G _ _ _ t (TrackedRun.lift (Run.load name (.local_ distance))
      { t with visits := ⟨p, use, name, distance, t.toMoment⟩ :: t.visits }) _
    simp only [TrackedRun.lift, Run.load, hvalue, hvalue']
    cases hfind : (t.machine.frames.bindings frame).find? name.text with
    | some v =>
      refine .ok (hkept none ?_) rfl
      simp only [Visit.absence?, hvalue, hfind]
    | none =>
      refine .error (hkept (some (.name name.text)) ?_) ⟨_, rfl⟩ absent
      simp only [Visit.absence?, hvalue, hfind]

theorem store {p : Position} {name : Name} {v : Value} {site : Site} {renamed : String}
    (known : UseKnown ρ G p .assign name site renamed) :
    Follows ρ G inLoop inFunction (Moment.At p.layers) (TrackedRun.store p name v site)
      (Run.store ⟨renamed, ρ.line name.line⟩ v site) Same := by
  intro t m hs hr hp
  cases site with
  | global =>
    have hrenamed := hr.define Machine.globals name.text v
    rw [hs.accounted.regionless] at hrenamed
    have accounted : Accounted
        { t with machine :=
          { t.machine with frames := t.machine.frames.define Machine.globals name.text v } } :=
      hs.accounted.define_global rfl rfl rfl rfl
    have extends_ : Extends t.toMoment
        { t with machine :=
          { t.machine with frames := t.machine.frames.define Machine.globals name.text v } } :=
      .define rfl rfl
    rw [known.global]
    exact .ok ⟨hs.step extends_ accounted (fun _ _ hc => .inl ⟨hc, rfl⟩)
      (fun _ _ hc => .inl ⟨hc, rfl⟩) fun _ hv => .inl hv, { hr with frames := hrenamed }, extends_,
      rfl, [], rfl, rfl⟩ rfl
  | local_ distance =>
    obtain ⟨frame, hframe, hlt, rfl⟩ := known.reaches hp
    have hs' := visited hs hp known.node
    have hafter : (t.machine.frames.define frame name.text v).ancestor? t.machine.current distance =
        some frame := by
      rw [Frames.ancestor?_define, hframe]
    have hframe' : m.frames.ancestor? m.current distance = some frame := by
      rw [hr.ancestor?, hr.current, hframe]
    have extends_ : Extends t.toMoment
        { t with
          machine := { t.machine with frames := t.machine.frames.define frame name.text v }
          assigned := (frame, name.text) :: t.assigned } :=
      .define rfl rfl
    have accounted : Accounted
        { t with
          machine := { t.machine with frames := t.machine.frames.define frame name.text v }
          assigned := (frame, name.text) :: t.assigned } := by
      refine hs.accounted.define hlt rfl rfl fun x => ?_
      simp only [List.mem_cons]
      exact or_left_comm
    show Ends ρ G _ _ _ t ((TrackedRun.lift (Run.store name v (.local_ distance)) >>=
      fun _ => TrackedRun.markAssigned name (.local_ distance))
        { t with visits := ⟨p, .assign, name, distance, t.toMoment⟩ :: t.visits }) _
    simp only [Bind.bind, EStateM.bind, TrackedRun.lift, Run.store, Frames.frameAt, hframe,
      Run.defineIn, TrackedRun.markAssigned, hafter, hframe']
    exact .ok ⟨hs'.step extends_ accounted (fun _ _ hc => .inl ⟨hc, rfl⟩)
      (fun _ _ hc => .inl ⟨hc, rfl⟩) fun _ hv => .inl hv,
      { hr with frames := hr.define frame name.text v }, extends_, rfl,
      [⟨p, .assign, name, distance, t.toMoment⟩], rfl, rfl⟩ rfl

theorem declared {t : Moment} (t' : Moment) {p : Position} (name : Name) (v : Value)
    (ht : t.Accounted)
    (hp : t.At p.layers) (current : t'.machine.current = t.machine.current)
    (frames : t'.machine.frames =
      t.machine.frames.define t.machine.current name.text v)
    (origin : t'.origin = t.origin) (settled : t'.settled = (t.machine.current, name.text) :: t.settled)
    (assigned : t'.assigned = t.assigned) :
    t.Extends t' ∧ t'.Accounted ∧ t'.At (p.declare name).layers := by
  have hlt := Aligned.lt hp ht.nonempty
  have extends_ : t.Extends t' := .define frames origin
  refine ⟨extends_, ht.define hlt frames origin fun x => ?_, ?_⟩
  · rw [settled, assigned, List.mem_cons, or_assoc]
  · have hp' := stable_at _ _ _ extends_ current hp
    unfold Moment.At at hp' ⊢
    simp only [Position.declare, Position.onInner]
    cases hl : p.layers with
    | nil => rw [hl] at hp'; exact hp'
    | cons l outer =>
      rw [hl] at hp'
      obtain ⟨horigin, hvisible, houter⟩ := hp'
      refine ⟨horigin, fun n hn => ?_, houter⟩
      rcases List.mem_cons.mp hn with rfl | hn
      · exact (holds_define frames _ _).mpr (.inr ⟨current.symm, current ▸ hlt, rfl⟩)
      · exact hvisible n hn

/-- A declared name is bound in the current frames of both machines alike. -/
theorem declared_renamed {t : Moment} {m : Machine} {p : Position} {name : Name}
    (ht : t.Accounted) (hr : t.Renamed ρ m) (hp : t.At p.layers)
    (known : DeclarationRespected ρ p name) (v : Value) (i : Nat) :
    (m.frames.define m.current (ρ.text name) v).frame? i =
      ((t.machine.frames.define t.machine.current name.text v).frame? i).map
        (ρ.frame (t.origin i)) := by
  have key : ρ.text name = ρ.keyAt (t.origin t.machine.current) name.text := by
    unfold Moment.At at hp
    unfold DeclarationRespected at known
    cases hl : p.layers with
    | nil =>
      rw [hl] at hp known
      rw [show t.machine.current = Machine.globals from hp, ht.regionless]
      exact known
    | cons l outer =>
      rw [hl] at hp known
      rw [hp.1]
      exact known
  rw [key, hr.current]
  exact hr.define t.machine.current name.text v i

theorem define {p : Position} {name : Name} {v : Value} (known : DeclarationRespected ρ p name) :
    Follows ρ G inLoop inFunction (Moment.At p.layers) (TrackedRun.define name v)
      (Run.define (ρ.text name) v) fun _ _ t => t.At (p.declare name).layers := by
  intro t m hs hr hp
  obtain ⟨extends_, accounted, hp'⟩ := declared
    { t with
      machine := { t.machine with
        frames := t.machine.frames.define t.machine.current name.text v }
      settled := (t.machine.current, name.text) :: t.settled }
    name v hs.accounted hp rfl rfl rfl rfl rfl
  exact .ok ⟨hs.step extends_ accounted (fun _ _ hc => .inl ⟨hc, rfl⟩)
    (fun _ _ hc => .inl ⟨hc, rfl⟩) fun _ hv => .inl hv,
    { hr with frames := declared_renamed hs.accounted hr hp known v }, extends_, rfl,
    [], rfl, rfl⟩ hp'

theorem getElem?_push {γ : Type} {xs : Array γ} {x y : γ} {r : Nat}
    (h : (xs.push x)[r]? = some y) : r ≠ xs.size ∧ xs[r]? = some y ∨ r = xs.size ∧ x = y := by
  rw [Array.getElem?_push] at h
  split at h
  · exact .inr ⟨‹_›, Option.some.inj h⟩
  · exact .inl ⟨‹_›, h⟩

theorem makeFunction {c : Closure} {q : Position} (hc : ∀ t, P t → c.Sound ρ G t q) :
    Follows ρ G inLoop inFunction P (TrackedRun.makeFunction q c)
      (Run.makeFunction (ρ.closure c)) Same := by
  intro t m hs hr hp
  refine .ok ⟨hs.step (.of_same rfl rfl) (hs.accounted.of_same rfl rfl rfl rfl) (fun r c' hc' => ?_)
    (fun _ _ hc => .inl ⟨hc, rfl⟩) (fun _ hv => .inl hv), { hr with closures := ?_ },
    .of_same rfl rfl, rfl, [], rfl, rfl⟩ ?_
  · rcases getElem?_push hc' with ⟨hne, hold⟩ | ⟨rfl, rfl⟩
    · exact .inl ⟨hold, if_neg hne⟩
    · right
      show Closure.Sound ρ G _ c (if t.machine.closures.size = t.machine.closures.size then q else _)
      rw [if_pos rfl]
      exact (hc _ hp).extend (.of_same rfl rfl)
  · simp only [hr.closures, Array.map_push]
  · show Value.function _ = Value.function _
    rw [hr.closures, Array.size_map]

theorem declareFunction {p : Position} (q : Position) {name : Name} (c : Closure)
    (known : DeclarationRespected ρ p name) (hq : q.layers = (p.declare name).layers)
    (code : ∀ x ∈ codeNodes q c.params c.body, G x) (plain : c.isInitializer = false) :
    Follows ρ G inLoop inFunction (fun t => t.At p.layers ∧ t.machine.current = c.frame)
      (TrackedRun.makeFunction q c >>= fun f => TrackedRun.define name f)
      (Run.makeFunction (ρ.closure c) >>= fun f => Run.define (ρ.text name) f)
      fun _ _ t => t.At (p.declare name).layers := by
  intro t m hs hr ⟨hp, hframe⟩
  obtain ⟨extends_, accounted, hp'⟩ := declared
    { t with
      machine := { t.machine with
        frames := t.machine.frames.define t.machine.current name.text
          (.function t.machine.closures.size)
        closures := t.machine.closures.push c }
      functionAt := fun r => if r = t.machine.closures.size then q else t.functionAt r
      settled := (t.machine.current, name.text) :: t.settled }
    name (.function t.machine.closures.size) hs.accounted hp rfl rfl rfl rfl rfl
  have size : m.closures.size = t.machine.closures.size := by rw [hr.closures, Array.size_map]
  show Ends ρ G _ _ _ t _ (.ok () { m with
    frames := m.frames.define m.current (ρ.text name) (.function m.closures.size)
    closures := m.closures.push (ρ.closure c) })
  rw [size]
  refine .ok ⟨hs.step extends_ accounted (fun r c' hc' => ?_) (fun _ _ hc => .inl ⟨hc, rfl⟩)
    (fun _ hv => .inl hv),
    { hr with frames := declared_renamed hs.accounted hr hp known _, closures := ?_ },
    extends_, rfl, [], rfl, rfl⟩ hp'
  · rcases getElem?_push hc' with ⟨hne, hold⟩ | ⟨rfl, rfl⟩
    · exact .inl ⟨hold, if_neg hne⟩
    · right
      show Closure.Sound ρ G _ c (if t.machine.closures.size = t.machine.closures.size then q else _)
      rw [if_pos rfl]
      refine ⟨?_, code, fun h => by rw [plain] at h; cases h⟩
      rw [hq, ← hframe]
      exact hp'
  · simp only [hr.closures, Array.map_push]

theorem declareClass {p : Position} {name : Name} (c : Class)
    (known : DeclarationRespected ρ p name)
    (code : ∀ x ∈ methodsNodes ((p.declare name).class_.child 0) c.methods, G x)
    (names : ∀ m ∈ c.methods, ρ.text m.name = m.name.text)
    (receiver : ρ.key ⟨p.path, [thisName], []⟩ thisName.text = thisName.text) :
    Follows ρ G inLoop inFunction (fun t => t.At p.layers ∧ t.machine.current = c.frame)
      (TrackedRun.makeClass (p.declare name) c >>= fun f => TrackedRun.define name f)
      (Run.makeClass (ρ.klass c) >>= fun f => Run.define (ρ.text name) f)
      fun _ _ t => t.At (p.declare name).layers := by
  intro t m hs hr ⟨hp, hframe⟩
  obtain ⟨extends_, accounted, hp'⟩ := declared
    { t with
      machine := { t.machine with
        frames := t.machine.frames.define t.machine.current name.text
          (.class_ t.machine.classes.size)
        classes := t.machine.classes.push c }
      classAt := fun r => if r = t.machine.classes.size then p.declare name else t.classAt r
      settled := (t.machine.current, name.text) :: t.settled }
    name (.class_ t.machine.classes.size) hs.accounted hp rfl rfl rfl rfl rfl
  have size : m.classes.size = t.machine.classes.size := by rw [hr.classes, Array.size_map]
  show Ends ρ G _ _ _ t _ (.ok () { m with
    frames := m.frames.define m.current (ρ.text name) (.class_ m.classes.size)
    classes := m.classes.push (ρ.klass c) })
  rw [size]
  refine .ok ⟨hs.step extends_ accounted (fun _ _ hc => .inl ⟨hc, rfl⟩) (fun r c' hc' => ?_)
    (fun _ hv => .inl hv),
    { hr with frames := declared_renamed hs.accounted hr hp known _, classes := ?_ },
    extends_, rfl, [], rfl, rfl⟩ hp'
  · rcases getElem?_push hc' with ⟨hne, hold⟩ | ⟨rfl, rfl⟩
    · exact .inl ⟨hold, if_neg hne⟩
    · right
      show Class.Sound ρ G _ c
        (if t.machine.classes.size = t.machine.classes.size then p.declare name else _)
      rw [if_pos rfl]
      refine ⟨?_, code, names, receiver⟩
      rw [← hframe]
      exact hp'
  · simp only [hr.classes, Array.map_push]

theorem openFrame (region : Region) (layers : List Layer) (parent : Nat)
    (bindings : Bindings Value) (pre : ∀ t, P t → t.Aligned layers parent)
    (only : ∀ k, bindings.find? k ≠ none → k ∈ region.params.map Name.text)
    (all : ∀ n ∈ region.params, bindings.find? n.text ≠ none) :
    Follows ρ G inLoop inFunction P (TrackedRun.openFrame region parent bindings)
      (Run.openFrame parent (bindings.mapKeys (ρ.key region)))
      fun f f' t => f = f' ∧ t.Aligned (.opened region :: layers) f := by
  intro t m hs hr hp
  have hparent := pre _ hp
  have extends_ : t.Extends
      { t with
        machine := { t.machine with frames := t.machine.frames.extend parent bindings }
        origin := fun f => if f = t.machine.frames.next then some region else t.origin f } :=
    .extend rfl fun f hf => if_neg (Nat.ne_of_lt hf)
  exact .ok ⟨hs.step extends_ (hs.accounted.extend rfl (fun _ => rfl) rfl rfl only)
    (fun _ _ hc => .inl ⟨hc, rfl⟩) (fun _ _ hc => .inl ⟨hc, rfl⟩) (fun _ hv => .inl hv),
    { hr with frames := hr.extend (fun _ => rfl) parent bindings }, extends_, rfl, [], rfl, rfl⟩
    ⟨hr.next.symm, hparent.opened (hparent.lt hs.accounted.nonempty) extends_ rfl (if_pos rfl) all⟩

theorem bindMethod {p q : Position} {c : Class} {name : String} {method : BoundMethod}
    {receiver : Value} (pre : ∀ t, P t → c.Sound ρ G t p)
    (found : methodPosition (p.class_.child 0) name c.methods = some (q, method)) :
    Follows ρ G inLoop inFunction P (TrackedRun.bindMethod p c method receiver)
      (Run.bindMethod (ρ.klass c) (translateMethod ρ (fun site => site) method) receiver)
      fun closure closure' t => closure' = ρ.closure closure ∧ closure.Sound ρ G t q ∧
        closure.params = method.params := by
  intro t m hs hr hp
  have hc := pre _ hp
  obtain ⟨hmem, hnodes⟩ := methodPosition_nodes found
  have opened : Follows ρ G inLoop inFunction P _ _ _ := openFrame ⟨p.path, [thisName], []⟩ p.layers
    c.frame [(thisName.text, receiver)] (fun t hp => (pre t hp).aligned)
    (fun k hk => by
      simp only [Bindings.find?, ne_eq, ite_eq_right_iff, reduceCtorEq, imp_false,
        Decidable.not_not] at hk
      exact List.mem_singleton.mpr hk.symm)
    (fun n hn => by
      rw [List.mem_singleton.mp hn]
      simp only [Bindings.find?, if_true, ne_eq, reduceCtorEq, not_false_eq_true])
  have he := opened t m hs hr hp
  rw [show Bindings.mapKeys (ρ.key ⟨p.path, [thisName], []⟩) [(thisName.text, receiver)] =
    [(thisName.text, receiver)] from congrArg (fun k => [(k, receiver)]) hc.receiver] at he
  cases he with
  | ok kept post =>
    obtain ⟨_, aligned⟩ := post
    refine .ok kept ⟨?_, ⟨?_, fun x hx => hc.code x (hnodes x hx), fun _ => ?_⟩, rfl⟩
    · have name : (translateMethod ρ (fun site => site) method).name.text = method.name.text :=
        hc.names method hmem
      simp only [Renaming.closure, name, hr.next]
      rfl
    · rw [methodPosition_layers found]
      exact aligned
    · exact ⟨aligned.2.1 thisName List.mem_cons_self, _, aligned.1, hc.receiver⟩

/-- The methods of a renamed class are found by the same names. -/
theorem method?_klass {c : Class} (names : ∀ m ∈ c.methods, ρ.text m.name = m.name.text)
    (name : String) (p : Position) :
    (ρ.klass c).method? name =
      ((methodPosition p name c.methods).map Prod.snd).map
        (translateMethod ρ fun site => site) := by
  rw [methodPosition_find?]
  simp only [Class.method?, Renaming.klass, translateMethods_eq_map, ← List.map_reverse,
    List.find?_map]
  congr 1
  have names' : ∀ m ∈ c.methods.reverse, ρ.text m.name = m.name.text :=
    fun m hm => names m (List.mem_reverse.mp hm)
  generalize c.methods.reverse = ms at names' ⊢
  induction ms with
  | nil => rfl
  | cons m ms ih =>
    have hm : ((fun m : BoundMethod => m.name.text == name) ∘ translateMethod ρ fun site => site) m =
        (m.name.text == name) :=
      congrArg (· == name) (names' m List.mem_cons_self)
    simp only [List.find?_cons, hm, ih fun k hk => names' k (List.mem_cons_of_mem _ hk)]

theorem property {x : Position} {object : Value} {name : Name} (known : ρ.text name = name.text) :
    Follows ρ G inLoop inFunction P (tracking.property x object name)
      (Run.property object (ρ.name name)) Same := by
  intro t m hs hr hp
  simp only [Instrument.property, Run.property, read_bind, tracking, hr.instance?, Renaming.name,
    known]
  cases t.machine.instance? object with
  | none => exact .error (.refl hs hr) trivial (.same (.failed ⟨.propertyOfOther, name.line⟩))
  | some found =>
    obtain ⟨r, i⟩ := found
    simp only
    cases i.fields.find? name.text with
    | some v => exact .ok (.refl hs hr) rfl
    | none =>
      simp only [hr.classes, Array.getElem?_map]
      cases hc : t.machine.classes[i.class_]? with
      | none =>
        exact .error (.refl hs hr) trivial (.same (.failed ⟨.undefinedProperty name.text, name.line⟩))
      | some c =>
        have sound := hs.classes _ _ hc
        simp only [Bind.bind, EStateM.bind, TrackedRun.madeAt, Option.map_some, Option.bind_some,
          method?_klass sound.names name.text ((t.classAt i.class_).class_.child 0)]
        cases hm : methodPosition ((t.classAt i.class_).class_.child 0) name.text c.methods with
        | none =>
          exact .error (.refl hs hr) trivial
            (.same (.failed ⟨.undefinedProperty name.text, name.line⟩))
        | some found =>
          obtain ⟨q, method⟩ := found
          have bound : Follows ρ G inLoop inFunction (fun t' => c.Sound ρ G t' (t.classAt i.class_))
              (TrackedRun.bindMethod (t.classAt i.class_) c method object)
              (Run.bindMethod (ρ.klass c) (translateMethod ρ (fun site => site) method) object) _ :=
            bindMethod (fun _ hc => hc) hm
          exact (bound.bind (fun _ _ he _ hc => Class.Sound.extend hc he) fun closure closure' => by
            rintro t' m' hs' hr' ⟨_, rfl, hclosure, _⟩
            exact makeFunction (P := fun t => closure.Sound ρ G t q) (fun _ h => h) t' m' hs' hr'
              hclosure) t m hs hr sound

end Follows

namespace Machine.Callee

def renamed (ρ : Renaming) : Machine.Callee → Machine.Callee
  | native n => native n
  | function c => function (ρ.closure c)
  | class_ ref c => class_ ref (ρ.klass c)

def Sound (ρ : Renaming) (G : Position × Node Site → Prop) (t : Moment) (q : Position) :
    Machine.Callee → Prop
  | native _ => True
  | function c => c.Sound ρ G t q
  | class_ _ c => c.Sound ρ G t q

theorem arity_renamed {ρ : Renaming} {G : Position × Node Site → Prop} {t : Moment} {q : Position}
    {c : Machine.Callee} (h : c.Sound ρ G t q) : (c.renamed ρ).arity = c.arity := by
  cases c with
  | native n => rfl
  | function c => exact List.length_map _
  | class_ ref c =>
    have found : c.method? initializerName = _ :=
      (methodPosition_find? q initializerName c.methods).symm
    simp only [renamed, arity, Follows.method?_klass (Class.Sound.names h) initializerName q, found]
    cases (methodPosition q initializerName c.methods).map Prod.snd with
    | none => rfl
    | some method => exact List.length_map _

end Machine.Callee

namespace Follows

variable {ρ : Renaming} {G : Position × Node Site → Prop} {inLoop inFunction : Bool}
  {P : Moment → Prop}

theorem callee_bind {γ δ : Type} {x : Position} {value : Value} {given line : Nat}
    {f : Machine.Callee → Position → TrackedRun γ} {g : Machine.Callee → Run δ}
    {R : γ → δ → Moment → Prop}
    (h : ∀ c q, given = c.arity →
      Follows ρ G inLoop inFunction (fun t => P t ∧ c.Sound ρ G t q) (f c q) (g (c.renamed ρ)) R) :
    Follows ρ G inLoop inFunction P
      (TrackedRun.lift (Run.callee value given line) >>= fun c =>
        tracking.madeAt x value >>= fun q => f c q)
      (Run.callee value given (ρ.line line) >>= g) R := by
  intro t m hs hr hp
  have hcallee : m.callee? value = (t.machine.callee? value).map (Machine.Callee.renamed ρ) := by
    cases value with
    | function r =>
      simp only [Machine.callee?, hr.closures, Array.getElem?_map, Option.map_map]
      rfl
    | class_ r =>
      simp only [Machine.callee?, hr.classes, Array.getElem?_map, Option.map_map]
      rfl
    | _ => rfl
  have sound : ∀ c, t.machine.callee? value = some c →
      c.Sound ρ G t.toMoment (TrackedRun.madeAt t value) := by
    intro c hc
    cases value with
    | native n => cases hc; trivial
    | function r =>
      obtain ⟨closure, hclosure, rfl⟩ := Option.map_eq_some_iff.mp hc
      exact hs.functions r closure hclosure
    | class_ r =>
      obtain ⟨k, hk, rfl⟩ := Option.map_eq_some_iff.mp hc
      exact hs.classes r k hk
    | _ => cases hc
  simp only [Bind.bind, EStateM.bind, TrackedRun.lift, Run.callee, hcallee]
  cases hc : t.machine.callee? value with
  | none => exact .error (.refl hs hr) trivial (.same (.failed ⟨.notCallable, line⟩))
  | some c =>
    simp only [Option.map_some, Machine.Callee.arity_renamed (sound c hc)]
    by_cases harity : given = c.arity
    · simp only [if_pos harity]
      exact h c _ harity t m hs hr ⟨hp, sound c hc⟩
    · simp only [if_neg harity]
      exact .error (.refl hs hr) trivial (.same (.failed ⟨.arity c.arity given, line⟩))

/-- The instance is always there for a bound method. -/
theorem receiver {c : Closure} {q x : Position} (initializer : c.isInitializer = true) :
    Follows ρ G inLoop inFunction (fun t => c.Sound ρ G t q) (tracking.receiver x c.frame)
      (Run.within c.frame (Run.load ⟨Keyword.this_.spelling, 0⟩ (.local_ 0))) Same := by
  rw [tracking.receiver_eq rfl]
  refine within c.frame (P := fun t => t.machine.current = c.frame ∧ c.Sound ρ G t q) ?_
    fun t hc => ⟨rfl, hc.extend (.of_same rfl rfl)⟩
  intro t m hs hr ⟨hframe, hc⟩
  obtain ⟨hholds, r, horigin, hkey⟩ := hc.receiver initializer
  have hvalue := t.machine.frames.valueAt_self t.machine.current thisName.text
  have hvalue' := m.frames.valueAt_self m.current thisName.text
  have same := hr.find? c.frame thisName.text
  rw [horigin, show ρ.keyAt (some r) thisName.text = thisName.text from hkey] at same
  rw [hr.current, hframe, same] at hvalue'
  rw [hframe] at hvalue
  simp only [tracking, TrackedRun.lift, Run.load, hr.current, hframe]
  rw [show Keyword.this_.spelling = thisName.text from rfl, hvalue, hvalue']
  cases hfind : (t.machine.frames.bindings c.frame).find? thisName.text with
  | none => exact absurd hfind hholds
  | some v => exact .ok (.refl hs hr) rfl

end Follows

end Script
