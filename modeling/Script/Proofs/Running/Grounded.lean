import Script.Proofs.Running.Current
import Script.Proofs.Store

/-! Frames that are never taken away.
A run only opens frames and binds names in them. -/
namespace Script

namespace Frames

/-- What frames may become: none is removed, no link changes and no name is unbound. -/
structure Grown (fs gs : Frames) : Prop where
  next : fs.next ≤ gs.next
  parent : ∀ i < fs.next, gs.parent? i = fs.parent? i
  names : ∀ i name, (fs.bindings i).find? name ≠ none → (gs.bindings i).find? name ≠ none

/-- The links of every frame lead to the globals and end there. -/
structure Rooted (fs : Frames) : Prop where
  root : Machine.globals < fs.next
  rootless : fs.parent? Machine.globals = none
  leads : ∀ i < fs.next, ∃ distance, fs.ancestor? i distance = some Machine.globals

variable {fs gs hs : Frames}

namespace Grown

theorem refl (fs : Frames) : fs.Grown fs := ⟨Nat.le_refl _, fun _ _ => rfl, fun _ _ h => h⟩

theorem trans (h : fs.Grown gs) (h' : gs.Grown hs) : fs.Grown hs where
  next := Nat.le_trans h.next h'.next
  parent i hi := (h'.parent i (Nat.lt_of_lt_of_le hi h.next)).trans (h.parent i hi)
  names i name bound := h'.names i name (h.names i name bound)

theorem define (fs : Frames) (ref : Nat) (name : String) (v : Value) :
    fs.Grown (fs.define ref name v) where
  next := Nat.le_of_eq (next_define fs ref name v).symm
  parent i _ := parent?_define fs ref name v i
  names i key bound := by
    rw [find?_define]
    split
    · exact nofun
    · exact bound

theorem bindings_next (fs : Frames) : fs.bindings fs.next = [] := by
  have none : fs.frames[fs.frames.size]? = none := Array.getElem?_size
  simp only [bindings, frame?, Frames.next, none]
  rfl

theorem extend (fs : Frames) (parent : Nat) (b : Bindings Value) :
    fs.Grown (fs.extend parent b) where
  next := by
    rw [next_extend]
    exact Nat.le_succ _
  parent i hi := parent?_extend_of_lt fs parent b hi
  names i name bound := by
    rw [bindings_extend]
    split
    · rename_i fresh
      rw [fresh, bindings_next] at bound
      exact absurd rfl bound
    · exact bound

theorem ancestor? (h : fs.Grown gs) {i : Nat} (hi : i < fs.next) (distance : Nat) :
    gs.ancestor? i distance = fs.ancestor? i distance := by
  induction distance generalizing i with
  | zero => rfl
  | succ distance ih =>
    rw [Frames.ancestor?, Frames.ancestor?, h.parent i hi]
    cases link : fs.parent? i with
    | none => rfl
    | some p => exact ih (Nat.lt_trans (fs.parent?_lt link) hi)

end Grown

namespace Rooted

theorem define (h : fs.Rooted) (ref : Nat) (name : String) (v : Value) :
    (fs.define ref name v).Rooted where
  root := by
    rw [next_define]
    exact h.root
  rootless := (parent?_define fs ref name v _).trans h.rootless
  leads i hi := by
    rw [next_define] at hi
    obtain ⟨distance, there⟩ := h.leads i hi
    exact ⟨distance, (ancestor?_define fs ref name v i distance).trans there⟩

theorem extend (h : fs.Rooted) {parent : Nat} (inside : parent < fs.next) (b : Bindings Value) :
    (fs.extend parent b).Rooted where
  root := Nat.lt_of_lt_of_le h.root (Grown.extend fs parent b).next
  rootless := ((Grown.extend fs parent b).parent _ h.root).trans h.rootless
  leads i hi := by
    have grown := Grown.extend fs parent b
    rw [next_extend] at hi
    cases Nat.lt_succ_iff_lt_or_eq.mp hi with
    | inl old =>
      obtain ⟨distance, there⟩ := h.leads i old
      exact ⟨distance, (grown.ancestor? old distance).trans there⟩
    | inr new =>
      obtain ⟨distance, there⟩ := h.leads parent inside
      refine ⟨distance + 1, ?_⟩
      rw [ancestor?, new, parent?_extend_next fs b inside]
      exact (grown.ancestor? inside distance).trans there

end Rooted

end Frames

namespace Machine

/-- Every frame leads to the globals, and every function and class was made in a frame there is. -/
structure Grounded (m : Machine) : Prop where
  rooted : m.frames.Rooted
  current : m.current < m.frames.next
  closures : ∀ (ref : Nat) (c : Closure), m.closures[ref]? = some c → c.frame < m.frames.next
  classes : ∀ (ref : Nat) (c : Class), m.classes[ref]? = some c → c.frame < m.frames.next

structure Kept (m m' : Machine) : Prop where
  grown : m.frames.Grown m'.frames
  grounded : m.Grounded → m'.Grounded

def Callee.Placed (m : Machine) : Callee → Prop
  | native _ => True
  | function closure => closure.frame < m.frames.next
  | class_ _ c => c.frame < m.frames.next

theorem grounded_initial (clock : Nat → Float) : (initial clock).Grounded where
  rooted := ⟨Nat.zero_lt_one, rfl, fun i hi => ⟨0, by
    cases Nat.lt_one_iff.mp hi
    rfl⟩⟩
  current := Nat.zero_lt_one
  closures ref c hc := by cases hc
  classes ref c hc := by cases hc

variable {m m' m'' : Machine}

namespace Grounded

theorem of_same (h : m.Grounded) (frames : m'.frames = m.frames) (current : m'.current = m.current)
    (closures : m'.closures = m.closures) (classes : m'.classes = m.classes) : m'.Grounded where
  rooted := frames ▸ h.rooted
  current := by
    rw [frames, current]
    exact h.current
  closures := by
    rw [frames, closures]
    exact h.closures
  classes := by
    rw [frames, classes]
    exact h.classes

theorem refocus (h : m.Grounded) {frame : Nat} (inside : frame < m.frames.next) :
    Grounded { m with current := frame } := ⟨h.rooted, inside, h.closures, h.classes⟩

theorem define (h : m.Grounded) (ref : Nat) (name : String) (v : Value) :
    Grounded { m with frames := m.frames.define ref name v } where
  rooted := h.rooted.define ref name v
  current := Nat.lt_of_lt_of_le h.current (Frames.Grown.define _ ref name v).next
  closures r c hc := Nat.lt_of_lt_of_le (h.closures r c hc) (Frames.Grown.define _ ref name v).next
  classes r c hc := Nat.lt_of_lt_of_le (h.classes r c hc) (Frames.Grown.define _ ref name v).next

theorem extend (h : m.Grounded) {parent : Nat} (inside : parent < m.frames.next)
    (b : Bindings Value) : Grounded { m with frames := m.frames.extend parent b } where
  rooted := h.rooted.extend inside b
  current := Nat.lt_of_lt_of_le h.current (Frames.Grown.extend _ parent b).next
  closures r c hc := Nat.lt_of_lt_of_le (h.closures r c hc) (Frames.Grown.extend _ parent b).next
  classes r c hc := Nat.lt_of_lt_of_le (h.classes r c hc) (Frames.Grown.extend _ parent b).next

theorem pushed {α : Type} {P : α → Prop} {made : Array α}
    (h : ∀ (ref : Nat) (a : α), made[ref]? = some a → P a) {new : α} (hnew : P new) :
    ∀ (ref : Nat) (a : α), (made.push new)[ref]? = some a → P a := by
  intro ref a ha
  rw [Array.getElem?_push] at ha
  split at ha
  · cases ha
    exact hnew
  · exact h ref a ha

theorem makeFunction (h : m.Grounded) {c : Closure} (inside : c.frame < m.frames.next) :
    Grounded { m with closures := m.closures.push c } :=
  ⟨h.rooted, h.current, pushed h.closures inside, h.classes⟩

theorem makeClass (h : m.Grounded) {c : Class} (inside : c.frame < m.frames.next) :
    Grounded { m with classes := m.classes.push c } :=
  ⟨h.rooted, h.current, h.closures, pushed h.classes inside⟩

end Grounded

namespace Kept

theorem refl (m : Machine) : m.Kept m := ⟨.refl _, id⟩

theorem trans (h : m.Kept m') (h' : m'.Kept m'') : m.Kept m'' :=
  ⟨h.grown.trans h'.grown, fun grounded => h'.grounded (h.grounded grounded)⟩

theorem of_same (frames : m'.frames = m.frames) (current : m'.current = m.current)
    (closures : m'.closures = m.closures) (classes : m'.classes = m.classes) : m.Kept m' where
  grown := frames ▸ .refl _
  grounded h := h.of_same frames current closures classes

theorem define (m : Machine) (ref : Nat) (name : String) (v : Value) :
    m.Kept { m with frames := m.frames.define ref name v } :=
  ⟨.define _ ref name v, fun h => h.define ref name v⟩

theorem extend {parent : Nat} (inside : m.Grounded → parent < m.frames.next)
    (b : Bindings Value) : m.Kept { m with frames := m.frames.extend parent b } :=
  ⟨.extend _ parent b, fun h => h.extend (inside h) b⟩

end Kept

end Machine

def Keeps {ε α : Type} (x : EStateM ε Machine α) (m : Machine) : Prop := m.Kept (endState (x m))

namespace Keeps

variable {ε α β : Type} {x : EStateM ε Machine α} {m : Machine}

theorem pure {a : α} : Keeps (Pure.pure a : EStateM ε Machine α) m := .refl m

theorem error {e : ε} : Keeps (fun m => .error e m : EStateM ε Machine α) m := .refl m

theorem bind {f : α → EStateM ε Machine β} (h : Keeps x m)
    (hf : ∀ a m', x m = .ok a m' → Keeps (f a) m') : Keeps (x >>= f) m :=
  endState_bind (R := Machine.Kept) .trans h hf

end Keeps

namespace Run

variable {α : Type} {m : Machine}

theorem within_keeps {frame : Nat} {x : Run α} (inside : m.Grounded → frame < m.frames.next)
    (h : Keeps x { m with current := frame }) : Keeps (within frame x) m := by
  have back : ∀ m' : Machine, Machine.Kept { m with current := frame } m' →
      m.Kept { m' with current := m.current } := by
    intro m' kept
    refine ⟨kept.grown, fun grounded => ?_⟩
    have there := kept.grounded (grounded.refocus (inside grounded))
    exact there.refocus (Nat.lt_of_lt_of_le grounded.current kept.grown.next)
  simp only [Keeps, within] at h ⊢
  generalize x _ = r at h ⊢
  cases r with
  | ok a m' => exact back m' h
  | error e m' => exact back m' h

theorem load_end (name : Name) (site : Site) (m : Machine) : endState (load name site m) = m := by
  cases site with
  | global =>
    simp only [load]
    cases m.frames.lookup? Machine.globals name.text <;> rfl
  | local_ distance =>
    simp only [load]
    cases m.frames.valueAt m.current distance name.text <;> rfl

theorem load_keeps (name : Name) (site : Site) : Keeps (load name site) m := by
  rw [Keeps, load_end]
  exact .refl m

theorem within_load_keeps (frame : Nat) (name : Name) (site : Site) :
    Keeps (within frame (load name site)) m := by
  have same := load_end name site { m with current := frame }
  simp only [Keeps, within]
  generalize load name site _ = r at same ⊢
  cases r with
  | ok v m' =>
    cases same
    exact .refl m
  | error e m' =>
    cases same
    exact .refl m

theorem ofExcept_keeps (line : Nat) (r : Except Fault α) : Keeps (ofExcept line r) m := by
  cases r with
  | ok a => exact .pure
  | error fault => exact .error

theorem define_keeps (name : String) (v : Value) : Keeps (define name v) m :=
  .define m m.current name v

theorem store_keeps (name : Name) (v : Value) (site : Site) : Keeps (store name v site) m := by
  cases site with
  | global => exact .define m Machine.globals name.text v
  | local_ distance =>
    simp only [Keeps, store]
    cases m.frames.frameAt m.current distance with
    | error absence => exact .refl m
    | ok frame => exact .define m frame name.text v

theorem print_keeps (v : Value) : Keeps (print v) m := .of_same rfl rfl rfl rfl

theorem readClock_keeps : Keeps readClock m := .of_same rfl rfl rfl rfl

theorem makeInstance_keeps (ref : Nat) : Keeps (makeInstance ref) m := .of_same rfl rfl rfl rfl

theorem setField_keeps (ref : Nat) (name : String) (v : Value) : Keeps (setField ref name v) m :=
  .of_same rfl rfl rfl rfl

theorem makeFunction_keeps {c : Closure} (inside : m.Grounded → c.frame < m.frames.next) :
    Keeps (makeFunction c) m := ⟨.refl _, fun h => h.makeFunction (inside h)⟩

theorem makeClass_keeps {c : Class} (inside : m.Grounded → c.frame < m.frames.next) :
    Keeps (makeClass c) m := ⟨.refl _, fun h => h.makeClass (inside h)⟩

theorem openFrame_keeps {parent : Nat} (inside : m.Grounded → parent < m.frames.next)
    (b : Bindings Value) : Keeps (openFrame parent b) m := .extend inside b

theorem openFrame_inside {parent frame : Nat} {b : Bindings Value} {m' : Machine}
    (opened : openFrame parent b m = .ok frame m') : frame < m'.frames.next := by
  cases opened
  exact Nat.lt_of_lt_of_eq (Nat.lt_succ_self _) (Frames.next_extend _ parent b).symm

theorem bindMethod_keeps {c : Class} (inside : m.Grounded → c.frame < m.frames.next)
    (method : BoundMethod) (receiver : Value) : Keeps (bindMethod c method receiver) m :=
  (openFrame_keeps inside _).bind fun _ _ _ => .pure

theorem bindMethod_inside {c : Class} {method : BoundMethod} {receiver : Value}
    {closure : Closure} {m' : Machine} (bound : bindMethod c method receiver m = .ok closure m') :
    closure.frame < m'.frames.next := by
  obtain ⟨frame, t, opened, done⟩ := bind_ok bound
  cases done
  exact openFrame_inside opened

theorem property_keeps (object : Value) (name : Name) : Keeps (property object name) m := by
  simp only [Keeps, property, read_bind]
  cases m.instance? object with
  | none => exact .refl m
  | some found =>
    simp only
    cases found.2.fields.find? name.text with
    | some v => exact .refl m
    | none =>
      cases made : (m.classes[found.2.class_]?).bind fun c =>
        (c.method? name.text).map fun method => (c, method) with
      | none => exact .refl m
      | some method =>
        obtain ⟨c, hc, hm⟩ := Option.bind_eq_some_iff.mp made
        obtain ⟨method, _, rfl⟩ := Option.map_eq_some_iff.mp hm
        have inside : m.Grounded → c.frame < m.frames.next := fun h => h.classes _ c hc
        exact Keeps.bind (bindMethod_keeps inside method object) fun closure m' bound =>
          makeFunction_keeps fun _ => bindMethod_inside bound

theorem fieldOwner_keeps (object : Value) (name : Name) : Keeps (fieldOwner object name) m := by
  simp only [Keeps, fieldOwner]
  cases m.instance? object <;> exact .refl m

theorem callee_keeps (value : Value) (given line : Nat) : Keeps (callee value given line) m := by
  simp only [Keeps, callee]
  cases m.callee? value with
  | none => exact .refl m
  | some c =>
    simp only
    split <;> exact .refl m

theorem callee?_placed {value : Value} {c : Machine.Callee} (found : m.callee? value = some c)
    (h : m.Grounded) : c.Placed m := by
  cases value with
  | native n =>
    cases found
    trivial
  | function ref =>
    obtain ⟨closure, made, rfl⟩ := Option.map_eq_some_iff.mp found
    exact h.closures ref closure made
  | class_ ref =>
    obtain ⟨cls, made, rfl⟩ := Option.map_eq_some_iff.mp found
    exact h.classes ref cls made
  | _ => cases found

theorem callee_placed {value : Value} {given line : Nat} {c : Machine.Callee} {m' : Machine}
    (found : callee value given line m = .ok c m') (h : m'.Grounded) : c.Placed m' := by
  simp only [callee] at found
  cases known : m.callee? value with
  | none =>
    rw [known] at found
    cases found
  | some d =>
    rw [known] at found
    simp only at found
    split at found
    · cases found
      exact callee?_placed known h
    · cases found

theorem handled_keeps {handle : Run Unit → Run α} (handler : Handler handle) {x : Run Unit}
    (h : Keeps x m) : Keeps (handle x) m := by
  rwa [Keeps, handler.ends]

theorem opened_keeps {x : Run α} (h : ∀ m, Keeps x m) :
    Keeps (do
      let frame ← openFrame (← currentFrame) []
      within frame x) m := by
  refine Keeps.bind (Machine.Kept.refl m) fun current m' read => ?_
  cases read
  exact (openFrame_keeps (fun grounded => grounded.current) []).bind fun frame m' opened =>
    within_keeps (fun _ => openFrame_inside opened) (h _)

structure Keeping (fuel : Nat) : Prop where
  evaluate : ∀ room e m, Keeps (evaluate fuel room e) m
  evaluateAll : ∀ room es m, Keeps (evaluateAll fuel room es) m
  call : ∀ room (c : Machine.Callee) given line m, (m.Grounded → c.Placed m) →
    Keeps (call fuel room c given line) m
  enter : ∀ room (c : Closure) given line m, (m.Grounded → c.frame < m.frames.next) →
    Keeps (enter fuel room c given line) m
  execute : ∀ room s m, Keeps (execute fuel room s) m
  executeAll : ∀ room ss m, Keeps (executeAll fuel room ss) m
  loop : ∀ room condition body m, Keeps (loop fuel room condition body) m

namespace Keeping

theorem zero : Keeping 0 where
  evaluate _ _ _ := .error
  evaluateAll _ _ _ := .error
  call _ _ _ _ _ _ := .error
  enter _ _ _ _ _ _ := .error
  execute _ _ _ := .error
  executeAll _ _ _ := .error
  loop _ _ _ _ := .error

variable {fuel : Nat}

theorem evaluate_succ (ih : Keeping fuel) (room : Nat) (e : BoundExpr) (m : Machine) :
    Keeps (Run.evaluate (fuel + 1) room e) m := by
  cases e with
  | literal value => exact .pure
  | grouping inner => exact ih.evaluate room inner m
  | «variable» name site => exact load_keeps name site
  | assign name site value =>
    exact (ih.evaluate room value m).bind fun v m' _ =>
      (store_keeps name v site).bind fun _ _ _ => .pure
  | this line site => exact load_keeps _ site
  | unary op line operand =>
    exact (ih.evaluate room operand m).bind fun v _ _ => ofExcept_keeps line _
  | binary left op line right =>
    exact (ih.evaluate room left m).bind fun a m' _ => (ih.evaluate room right m').bind fun b _ _ =>
      ofExcept_keeps line _
  | logical left op line right =>
    refine (ih.evaluate room left m).bind fun a m' _ => ?_
    cases op <;> cases a.isTruthy
    · exact .pure
    · exact ih.evaluate room right m'
    · exact ih.evaluate room right m'
    · exact .pure
  | ternary condition yes no =>
    refine (ih.evaluate room condition m).bind fun c m' _ => ?_
    cases c.isTruthy
    · exact ih.evaluate room no m'
    · exact ih.evaluate room yes m'
  | sequence earlier last =>
    exact (ih.evaluate room earlier m).bind fun _ m' _ => ih.evaluate room last m'
  | call f line arguments =>
    exact (ih.evaluate room f m).bind fun value m₁ _ =>
      (ih.evaluateAll room arguments m₁).bind fun given m₂ _ =>
        (callee_keeps value given.length line).bind fun c m₃ found =>
          ih.call room c given line m₃ (callee_placed found)
  | get object name =>
    exact (ih.evaluate room object m).bind fun o _ _ => property_keeps o name
  | set object name value =>
    exact (ih.evaluate room object m).bind fun o _ _ => (fieldOwner_keeps o name).bind fun ref m' _ =>
      (ih.evaluate room value m').bind fun v _ _ =>
        (setField_keeps ref name.text v).bind fun _ _ _ => .pure
  | function params body =>
    exact makeFunction_keeps (m := m) fun grounded => grounded.current

theorem evaluateAll_succ (ih : Keeping fuel) (room : Nat) (es : List BoundExpr) (m : Machine) :
    Keeps (Run.evaluateAll (fuel + 1) room es) m := by
  cases es with
  | nil => exact .pure
  | cons e es =>
    exact (ih.evaluate room e m).bind fun v m' _ => (ih.evaluateAll room es m').bind fun vs _ _ =>
      .pure

theorem call_succ (ih : Keeping fuel) (room : Nat) (c : Machine.Callee) (given : List Value)
    (line : Nat) (m : Machine) (placed : m.Grounded → c.Placed m) :
    Keeps (Run.call (fuel + 1) room c given line) m := by
  cases c with
  | native n => cases n; exact readClock_keeps
  | function c => exact ih.enter room c given line m placed
  | class_ ref c =>
    have made : ∀ v m', makeInstance ref m = .ok v m' → m'.Grounded → c.frame < m'.frames.next := by
      intro v m' done grounded
      cases done
      exact placed (grounded.of_same rfl rfl rfl rfl)
    refine (makeInstance_keeps ref).bind fun v m' done => ?_
    cases c.method? initializerName with
    | none => exact .pure
    | some method =>
      exact (bindMethod_keeps (made v m' done) method v).bind fun closure m₁ bound =>
        (ih.enter room closure given line m₁ fun _ => bindMethod_inside bound).bind fun _ _ _ =>
          .pure

theorem enter_succ (ih : Keeping fuel) (room : Nat) (c : Closure) (given : List Value)
    (line : Nat) (m : Machine) (inside : m.Grounded → c.frame < m.frames.next) :
    Keeps (Run.enter (fuel + 1) room c given line) m := by
  cases room with
  | zero => exact .error
  | succ room =>
    refine (openFrame_keeps inside _).bind fun frame m₁ opened => ?_
    have body := ih.executeAll room c.body { m₁ with current := frame }
    have entered := within_keeps (fun _ => openFrame_inside opened) body
    refine (handled_keeps returning_handler entered).bind fun v m₂ _ => ?_
    split
    · exact within_load_keeps c.frame _ _
    · exact .pure

theorem execute_succ (ih : Keeping fuel) (room : Nat) (s : BoundStmt) (m : Machine) :
    Keeps (Run.execute (fuel + 1) room s) m := by
  cases s with
  | expression e => exact (ih.evaluate room e m).bind fun _ _ _ => .pure
  | print e => exact (ih.evaluate room e m).bind fun v _ _ => print_keeps v
  | var name initial =>
    cases initial with
    | none => exact define_keeps name.text .nil
    | some e => exact (ih.evaluate room e m).bind fun v _ _ => define_keeps name.text v
  | block body => exact opened_keeps (ih.executeAll room body)
  | step body increment =>
    exact opened_keeps fun m =>
      (handled_keeps continuing_handler (ih.execute room body m)).bind fun _ m' _ =>
        (ih.evaluate room increment m').bind fun _ _ _ => .pure
  | if_ condition yes no =>
    refine (ih.evaluate room condition m).bind fun c m' _ => ?_
    cases c.isTruthy
    · cases no with
      | none => exact .pure
      | some no => exact ih.execute room no m'
    · exact ih.execute room yes m'
  | while_ condition body => exact ih.loop room condition body m
  | jump jump line => exact .error
  | function name params body =>
    exact (makeFunction_keeps (m := m) fun grounded => grounded.current).bind fun f _ _ =>
      define_keeps name.text f
  | return_ line value =>
    cases value with
    | none => exact .error
    | some e => exact (ih.evaluate room e m).bind fun v _ _ => .error
  | class_ name methods =>
    exact (makeClass_keeps (m := m) fun grounded => grounded.current).bind fun c _ _ =>
      define_keeps name.text c

theorem executeAll_succ (ih : Keeping fuel) (room : Nat) (ss : List BoundStmt) (m : Machine) :
    Keeps (Run.executeAll (fuel + 1) room ss) m := by
  cases ss with
  | nil => exact .pure
  | cons s ss => exact (ih.execute room s m).bind fun _ m' _ => ih.executeAll room ss m'

theorem loop_succ (ih : Keeping fuel) (room : Nat) (condition : BoundExpr) (body : BoundStmt)
    (m : Machine) : Keeps (Run.loop (fuel + 1) room condition body) m :=
  loop_along (R := Machine.Kept) .trans (ih.evaluate room condition m)
    (fun _ m' _ _ => ih.execute room body m') fun _ _ m' _ _ _ => ih.loop room condition body m'

/-- Whatever the fuel, the frames are kept. -/
theorem all (fuel : Nat) : Keeping fuel := by
  induction fuel with
  | zero => exact zero
  | succ fuel ih =>
    exact
      { evaluate := evaluate_succ ih
        evaluateAll := evaluateAll_succ ih
        call := call_succ ih
        enter := enter_succ ih
        execute := execute_succ ih
        executeAll := executeAll_succ ih
        loop := loop_succ ih }

end Keeping

end Run

end Script
