import Script.Proofs.Running.Fuel
import Script.Proofs.Running.Grounded

/-! Running with more room.
Room is only missed by a function that is entered without any. -/
namespace Script

def Machine.Begins (m m' : Machine) : Prop := ∃ more, m'.output = m.output ++ more

namespace Machine.Begins

variable {m m' m'' : Machine}

theorem of_same (h : m'.output = m.output) : m.Begins m' := ⟨"", by rw [h, String.append_empty]⟩

theorem refl (m : Machine) : m.Begins m := of_same rfl

theorem trans (h : m.Begins m') (h' : m'.Begins m'') : m.Begins m'' := by
  obtain ⟨more, h⟩ := h
  obtain ⟨rest, h'⟩ := h'
  exact ⟨more ++ rest, by rw [h', h, String.append_assoc]⟩

end Machine.Begins

namespace Run

variable {α β : Type}

/-- There was no room for a function that was to be entered. -/
def Overflown (r : EStateM.Result Exit Machine α) : Prop :=
  ∃ line m, r = .error (.failed ⟨.stackOverflow, line⟩) m

/-- The end of a run that began on the machine, and the end of the same run with less room. -/
structure Exceeds (m : Machine) (r' r : EStateM.Result Exit Machine α) : Prop where
  begins : m.Begins (endState r')
  agrees : r' = r ∨ Overflown r ∧ (endState r).Begins (endState r')

namespace Exceeds

variable {m : Machine}

theorem same {r : EStateM.Result Exit Machine α} (h : m.Begins (endState r)) : Exceeds m r r :=
  ⟨h, .inl rfl⟩

/-- What follows an end follows it with more room too, if it lets a failure pass. -/
theorem next {r' r : EStateM.Result Exit Machine α} (h : Exceeds m r' r)
    {k' k : EStateM.Result Exit Machine α → EStateM.Result Exit Machine β}
    (follows : ∀ s, Exceeds (endState s) (k' s) (k s))
    (passes : ∀ line m, ∃ m', k (.error (.failed ⟨.stackOverflow, line⟩) m) =
      .error (.failed ⟨.stackOverflow, line⟩) m' ∧ m'.output = m.output) :
    Exceeds m (k' r') (k r) := by
  refine ⟨h.begins.trans (follows r').begins, ?_⟩
  rcases h.agrees with rfl | ⟨⟨line, m₁, rfl⟩, first⟩
  · exact (follows r').agrees
  · obtain ⟨m₂, failed, output⟩ := passes line m₁
    rw [failed]
    have unwound : m₂.Begins m₁ := .of_same output.symm
    exact .inr ⟨⟨line, m₂, rfl⟩, unwound.trans (first.trans (follows r').begins)⟩

end Exceeds

def Outgrows (y x : Run α) : Prop := ∀ m, Exceeds m (y m) (x m)

def Quiet (x : Run α) : Prop := ∀ m, (endState (x m)).output = m.output

namespace Outgrows

variable {x y : Run α}

theorem quiet (h : Quiet x) : Outgrows x x := fun m => .same (.of_same (h m))

theorem pure (a : α) : Outgrows (Pure.pure a) (Pure.pure a) := quiet fun _ => rfl

theorem exit (e : Exit) : Outgrows (Run.exit e : Run α) (Run.exit e) := quiet fun _ => rfl

theorem bind {f g : α → Run β} (h : Outgrows y x) (hf : ∀ a, Outgrows (g a) (f a)) :
    Outgrows (y >>= g) (x >>= f) := by
  intro m
  have first := h m
  simp only [Bind.bind, EStateM.bind]
  generalize y m = r' at first ⊢
  generalize x m = r at first ⊢
  apply first.next
  · intro s
    cases s with
    | ok a m => exact hf a m
    | error e m => exact .same (.refl m)
  · exact fun _ m => ⟨m, rfl, rfl⟩

theorem within (frame : Nat) (h : Outgrows y x) :
    Outgrows (Run.within frame y) (Run.within frame x) := by
  intro m
  have inside : Exceeds m (y { m with current := frame }) (x { m with current := frame }) :=
    ⟨(h _).begins, (h _).agrees⟩
  simp only [Run.within]
  generalize y _ = r' at inside ⊢
  generalize x _ = r at inside ⊢
  apply inside.next
  · intro s
    cases s <;> exact .same (.of_same rfl)
  · exact fun _ m' => ⟨_, rfl, rfl⟩

theorem handled {handle : Run Unit → Run β} {x y : Run Unit} (handler : Handler handle)
    (h : Outgrows y x) : Outgrows (handle y) (handle x) := by
  intro m
  have part := h m
  rw [handler.looks x, handler.looks y]
  generalize y m = r' at part ⊢
  generalize x m = r at part ⊢
  apply part.next
  · exact fun s => .same (.of_same (congrArg Machine.output (handler.ends (fun _ => s) m)))
  · exact fun line m' => ⟨m', handler.failed _ m m', rfl⟩

end Outgrows

theorem ofExcept_quiet (line : Nat) (r : Except Fault α) : Quiet (ofExcept line r) := by
  cases r <;> exact fun _ => rfl

theorem load_quiet (name : Name) (site : Site) : Quiet (load name site) := fun m => by
  rw [load_end]

theorem store_quiet (name : Name) (v : Value) (site : Site) : Quiet (store name v site) := by
  intro m
  cases site with
  | global => rfl
  | local_ distance =>
    simp only [store]
    cases m.frames.frameAt m.current distance <;> rfl

theorem readClock_quiet : Quiet readClock := fun _ => rfl

theorem define_quiet (name : String) (v : Value) : Quiet (define name v) := fun _ => rfl

theorem currentFrame_quiet : Quiet currentFrame := fun _ => rfl

theorem openFrame_quiet (parent : Nat) (b : Bindings Value) : Quiet (openFrame parent b) :=
  fun _ => rfl

theorem makeFunction_quiet (c : Closure) : Quiet (makeFunction c) := fun _ => rfl

theorem makeClass_quiet (c : Class) : Quiet (makeClass c) := fun _ => rfl

theorem makeInstance_quiet (ref : Nat) : Quiet (makeInstance ref) := fun _ => rfl

theorem setField_quiet (ref : Nat) (name : String) (v : Value) : Quiet (setField ref name v) :=
  fun _ => rfl

theorem bindMethod_quiet (c : Class) (method : BoundMethod) (receiver : Value) :
    Quiet (bindMethod c method receiver) := fun _ => rfl

theorem property_quiet (object : Value) (name : Name) : Quiet (property object name) := by
  intro m
  simp only [property, read_bind]
  cases m.instance? object with
  | none => rfl
  | some found =>
    simp only
    cases found.2.fields.find? name.text with
    | some v => rfl
    | none =>
      cases (m.classes[found.2.class_]?).bind fun c =>
        (c.method? name.text).map fun method => (c, method) with
      | none => rfl
      | some method => rfl

theorem fieldOwner_quiet (object : Value) (name : Name) : Quiet (fieldOwner object name) := by
  intro m
  simp only [fieldOwner]
  cases m.instance? object <;> rfl

theorem callee_quiet (value : Value) (given line : Nat) : Quiet (callee value given line) := by
  intro m
  simp only [callee]
  cases m.callee? value with
  | none => rfl
  | some c =>
    simp only
    split <;> rfl

theorem print_outgrows (v : Value) : Outgrows (print v) (print v) :=
  fun m => .same ⟨m.text v ++ "\n", String.append_assoc ..⟩

theorem Operation.outgrows {x : Run α} (op : Operation x) : Outgrows x x := by
  cases op with
  | ofExcept line r => exact .quiet (ofExcept_quiet line r)
  | load name site => exact .quiet (load_quiet name site)
  | store name v site => exact .quiet (store_quiet name v site)
  | define name v => exact .quiet (define_quiet name v)
  | print v => exact print_outgrows v
  | readClock => exact .quiet readClock_quiet
  | currentFrame => exact .quiet currentFrame_quiet
  | openFrame parent bindings => exact .quiet (openFrame_quiet parent bindings)
  | makeFunction c => exact .quiet (makeFunction_quiet c)
  | makeClass c => exact .quiet (makeClass_quiet c)
  | makeInstance ref => exact .quiet (makeInstance_quiet ref)
  | bindMethod c method receiver => exact .quiet (bindMethod_quiet c method receiver)
  | property object name => exact .quiet (property_quiet object name)
  | fieldOwner object name => exact .quiet (fieldOwner_quiet object name)
  | setField ref name v => exact .quiet (setField_quiet ref name v)
  | callee value given line => exact .quiet (callee_quiet value given line)

theorem outgrows_congruence : Congruence Outgrows where
  pure := .pure
  exit := .exit
  operation := Operation.outgrows
  bind := .bind
  within := .within
  handled := .handled

/-- A function that is entered without room fails before it prints anything, and with more room it
prints what it likes. -/
theorem outgrows_rooms : Rooms Outgrows fun room' room => room ≤ room' where
  refl := Nat.le_refl
  inner := Nat.le_of_succ_le_succ
  first := Nat.not_succ_le_zero _
  overflow _ _ _ h line m := ⟨(h m).begins, .inr ⟨⟨line, m, rfl⟩, (h m).begins⟩⟩

structure Growing (fuel : Nat) : Prop where
  evaluate : ∀ {room room'}, room ≤ room' → ∀ e,
    Outgrows (evaluate fuel room' e) (evaluate fuel room e)
  evaluateAll : ∀ {room room'}, room ≤ room' → ∀ es,
    Outgrows (evaluateAll fuel room' es) (evaluateAll fuel room es)
  call : ∀ {room room'}, room ≤ room' → ∀ c given line,
    Outgrows (call fuel room' c given line) (call fuel room c given line)
  enter : ∀ {room room'}, room ≤ room' → ∀ c given line,
    Outgrows (enter fuel room' c given line) (enter fuel room c given line)
  execute : ∀ {room room'}, room ≤ room' → ∀ s,
    Outgrows (execute fuel room' s) (execute fuel room s)
  executeAll : ∀ {room room'}, room ≤ room' → ∀ ss,
    Outgrows (executeAll fuel room' ss) (executeAll fuel room ss)
  loop : ∀ {room room'}, room ≤ room' → ∀ condition body,
    Outgrows (loop fuel room' condition body) (loop fuel room condition body)

/-- Whatever the fuel, more room is only noticed where there was none left. -/
theorem Growing.all (fuel : Nat) : Growing fuel := by
  have related := Related.all outgrows_congruence outgrows_rooms fuel
  exact
    { evaluate := related.evaluate
      evaluateAll := related.evaluateAll
      call := related.call
      enter := related.enter
      execute := related.execute
      executeAll := related.executeAll
      loop := related.loop }

end Run

end Script
