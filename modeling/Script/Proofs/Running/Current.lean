import Script.Proofs.Running.Related

/-! The current frame of a run.
However an evaluation ends, the frame that was current before it is current again. Frames are only
entered by running something within them, and that restores the old one. -/
namespace Script

variable {ε α β : Type}

def Restores (x : EStateM ε Machine α) : Prop := ∀ m, (endState (x m)).current = m.current

namespace Restores

variable {x : EStateM ε Machine α}

theorem ok (h : Restores x) {m m' : Machine} {a : α} (done : x m = .ok a m') :
    m'.current = m.current := by
  have back := h m
  rwa [done] at back

theorem pure {a : α} : Restores (Pure.pure a : EStateM ε Machine α) := fun _ => rfl

theorem error {e : ε} : Restores (fun m => .error e m : EStateM ε Machine α) := fun _ => rfl

theorem bind {f : α → EStateM ε Machine β} (h : Restores x) (hf : ∀ a, Restores (f a)) :
    Restores (x >>= f) := fun m =>
  endState_bind (R := fun m m' : Machine => m'.current = m.current) (fun h h' => h'.trans h) (h m)
    fun a m' _ => hf a m'

end Restores

namespace Run

variable {x : Run α}

theorem within_restores (frame : Nat) (x : Run α) : Restores (within frame x) := by
  intro m
  simp only [within]
  generalize x _ = r
  cases r <;> rfl

theorem ofExcept_restores (line : Nat) (r : Except Fault α) : Restores (ofExcept line r) := by
  cases r with
  | ok a => exact .pure
  | error fault => exact .error

theorem openFrame_restores (parent : Nat) (bindings : Bindings Value) :
    Restores (openFrame parent bindings) := fun _ => rfl

theorem currentFrame_restores : Restores currentFrame := fun _ => rfl

theorem define_restores (name : String) (v : Value) : Restores (define name v) := fun _ => rfl

theorem load_restores (name : Name) (site : Site) : Restores (load name site) := by
  intro m
  cases site with
  | global =>
    simp only [load]
    cases m.frames.lookup? Machine.globals name.text <;> rfl
  | local_ distance =>
    simp only [load]
    cases m.frames.valueAt m.current distance name.text <;> rfl

theorem store_restores (name : Name) (v : Value) (site : Site) : Restores (store name v site) := by
  intro m
  cases site with
  | global => rfl
  | local_ distance =>
    simp only [store]
    cases m.frames.frameAt m.current distance <;> rfl

theorem print_restores (v : Value) : Restores (print v) := fun _ => rfl

theorem readClock_restores : Restores readClock := fun _ => rfl

theorem makeInstance_restores (ref : Nat) : Restores (makeInstance ref) := fun _ => rfl

theorem makeFunction_restores (c : Closure) : Restores (makeFunction c) := fun _ => rfl

theorem makeClass_restores (c : Class) : Restores (makeClass c) := fun _ => rfl

theorem bindMethod_restores (c : Class) (method : BoundMethod) (receiver : Value) :
    Restores (bindMethod c method receiver) := fun _ => rfl

theorem property_restores (object : Value) (name : Name) : Restores (property object name) := by
  intro m
  simp only [property, read_bind]
  cases m.instance? object with
  | none => rfl
  | some found =>
    obtain ⟨ref, i⟩ := found
    simp only
    cases i.fields.find? name.text with
    | some v => rfl
    | none =>
      cases (m.classes[i.class_]?).bind fun c =>
        (c.method? name.text).map fun method => (c, method) with
      | none => rfl
      | some found => rfl

theorem fieldOwner_restores (object : Value) (name : Name) : Restores (fieldOwner object name) := by
  intro m
  simp only [fieldOwner]
  cases m.instance? object <;> rfl

theorem setField_restores (ref : Nat) (name : String) (v : Value) :
    Restores (setField ref name v) := fun _ => rfl

theorem callee_restores (value : Value) (given line : Nat) :
    Restores (callee value given line) := by
  intro m
  simp only [callee]
  split
  · rfl
  · split <;> rfl

theorem Operation.restores (op : Operation x) : Restores x := by
  cases op with
  | ofExcept line r => exact ofExcept_restores line r
  | load name site => exact load_restores name site
  | store name v site => exact store_restores name v site
  | define name v => exact define_restores name v
  | print v => exact print_restores v
  | readClock => exact readClock_restores
  | currentFrame => exact currentFrame_restores
  | openFrame parent bindings => exact openFrame_restores parent bindings
  | makeFunction c => exact makeFunction_restores c
  | makeClass c => exact makeClass_restores c
  | makeInstance ref => exact makeInstance_restores ref
  | bindMethod c method receiver => exact bindMethod_restores c method receiver
  | property object name => exact property_restores object name
  | fieldOwner object name => exact fieldOwner_restores object name
  | setField ref name v => exact setField_restores ref name v
  | callee value given line => exact callee_restores value given line

theorem restores_congruence : Congruence fun _ x => Restores x where
  pure _ := .pure
  exit _ := .error
  operation := Operation.restores
  bind := .bind
  within frame _ := within_restores frame _
  handled handler h m := (congrArg Machine.current (handler.ends _ m)).trans (h m)

/-- What a transitive relation says of each condition and each body that is run, it says of the
rounds of a loop. -/
theorem loop_along {R : Machine → Machine → Prop} (trans : ∀ {m m' m''}, R m m' → R m' m'' → R m m'')
    {fuel room : Nat} {condition : BoundExpr} {body : BoundStmt} {m : Machine}
    (head : R m (endState (evaluate fuel room condition m)))
    (round : ∀ c m₁, evaluate fuel room condition m = .ok c m₁ → c.isTruthy = true →
      R m₁ (endState (execute fuel room body m₁)))
    (again : ∀ c m₁ m₂, evaluate fuel room condition m = .ok c m₁ → c.isTruthy = true →
      continuing (execute fuel room body) m₁ = .ok () m₂ →
        R m₂ (endState (loop fuel room condition body m₂))) :
    R m (endState (loop (fuel + 1) room condition body m)) := by
  simp only [loop]
  cases before : evaluate fuel room condition m with
  | error e m₁ =>
    rw [before] at head
    exact head
  | ok c m₁ =>
    rw [before] at head
    by_cases truthy : c.isTruthy = true
    · simp only [if_pos truthy]
      have around := round c m₁ before truthy
      have again := fun m₂ => again c m₁ m₂ before truthy
      simp only [continuing] at again
      cases ended : execute fuel room body m₁ with
      | ok _ m₂ =>
        rw [ended] at around again
        exact trans head (trans around (again m₂ rfl))
      | error e m₂ =>
        rw [ended] at around again
        cases e with
        | jumped jump =>
          cases jump with
          | break_ => exact trans head around
          | continue_ => exact trans head (trans around (again m₂ rfl))
        | _ => exact trans head around
    · simp only [if_neg truthy]
      exact head

structure Restoring (fuel : Nat) : Prop where
  evaluate : ∀ room e, Restores (evaluate fuel room e)
  evaluateAll : ∀ room es, Restores (evaluateAll fuel room es)
  call : ∀ room c given line, Restores (call fuel room c given line)
  enter : ∀ room c given line, Restores (enter fuel room c given line)
  execute : ∀ room s, Restores (execute fuel room s)
  executeAll : ∀ room ss, Restores (executeAll fuel room ss)
  loop : ∀ room condition body, Restores (loop fuel room condition body)

theorem Restoring.all (fuel : Nat) : Restoring fuel := by
  have related := Related.all restores_congruence .same fuel
  exact
    { evaluate := fun _ => related.evaluate rfl
      evaluateAll := fun _ => related.evaluateAll rfl
      call := fun _ => related.call rfl
      enter := fun _ => related.enter rfl
      execute := fun _ => related.execute rfl
      executeAll := fun _ => related.executeAll rfl
      loop := fun _ => related.loop rfl }

end Run

end Script
