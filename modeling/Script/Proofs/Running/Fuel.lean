import Script.Proofs.Running.Related

/-! Running with more fuel.
Fuel stands for no resource of the language: a run that does not use it up ends in the same way with
any more of it, so there is at most one way in which a run can end. -/
namespace Script.Run

variable {α β : Type}

/-- The second run ends as the first one does, unless that one is out of fuel. -/
def Outlasts (y x : Run α) : Prop := ∀ m, (∃ m', x m = .error .exhausted m') ∨ y m = x m

namespace Outlasts

variable {x y : Run α}

theorem refl (x : Run α) : Outlasts x x := fun _ => .inr rfl

theorem exhausted (y : Run α) : Outlasts y (exit .exhausted) := fun m => .inl ⟨m, rfl⟩

theorem bind {f g : α → Run β} (h : Outlasts y x) (hf : ∀ a, Outlasts (g a) (f a)) :
    Outlasts (y >>= g) (x >>= f) := by
  intro m
  simp only [Bind.bind, EStateM.bind]
  rcases h m with ⟨m', hm⟩ | hm
  · rw [hm]
    exact .inl ⟨m', rfl⟩
  · rw [hm]
    cases x m with
    | ok a m => exact hf a m
    | error e m => exact .inr rfl

theorem within (frame : Nat) (h : Outlasts y x) :
    Outlasts (Run.within frame y) (Run.within frame x) := by
  intro m
  simp only [Run.within]
  rcases h { m with current := frame } with ⟨m', hm⟩ | hm
  · rw [hm]
    exact .inl ⟨_, rfl⟩
  · rw [hm]
    exact .inr rfl

theorem handled {handle : Run Unit → Run β} {x y : Run Unit} (handler : Handler handle)
    (h : Outlasts y x) : Outlasts (handle y) (handle x) := by
  intro m
  rw [handler.looks x, handler.looks y]
  rcases h m with ⟨m', hm⟩ | hm
  · rw [hm]
    exact .inl ⟨m', handler.exhausted m m'⟩
  · rw [hm]
    exact .inr rfl

theorem congruence : Congruence Outlasts where
  pure _ := refl _
  exit _ := refl _
  operation _ := refl _
  bind := bind
  within := within
  handled := handled

end Outlasts

structure Lasting (extra fuel : Nat) : Prop where
  evaluate : ∀ room e, Outlasts (evaluate (extra + fuel) room e) (evaluate fuel room e)
  evaluateAll : ∀ room es, Outlasts (evaluateAll (extra + fuel) room es) (evaluateAll fuel room es)
  call : ∀ room c given line,
    Outlasts (call (extra + fuel) room c given line) (call fuel room c given line)
  enter : ∀ room c given line,
    Outlasts (enter (extra + fuel) room c given line) (enter fuel room c given line)
  execute : ∀ room s, Outlasts (execute (extra + fuel) room s) (execute fuel room s)
  executeAll : ∀ room ss, Outlasts (executeAll (extra + fuel) room ss) (executeAll fuel room ss)
  loop : ∀ room condition body,
    Outlasts (loop (extra + fuel) room condition body) (loop fuel room condition body)

namespace Lasting

theorem out (extra : Nat) : Related Outlasts (· = ·) extra 0 where
  evaluate _ _ := .exhausted _
  evaluateAll _ _ := .exhausted _
  call _ _ _ _ := .exhausted _
  enter _ _ _ _ := .exhausted _
  execute _ _ := .exhausted _
  executeAll _ _ := .exhausted _
  loop _ _ _ := .exhausted _

theorem all (extra fuel : Nat) : Lasting extra fuel := by
  have related := Related.add Outlasts.congruence .same (out extra) fuel
  exact
    { evaluate := fun _ => related.evaluate rfl
      evaluateAll := fun _ => related.evaluateAll rfl
      call := fun _ => related.call rfl
      enter := fun _ => related.enter rfl
      execute := fun _ => related.execute rfl
      executeAll := fun _ => related.executeAll rfl
      loop := fun _ => related.loop rfl }

end Lasting

theorem executeAll_lasts {fuel : Nat} {room : Nat} {program : List BoundStmt} {m : Machine}
    {r : EStateM.Result Exit Machine Unit} (h : executeAll fuel room program m = r)
    (ends : ∀ m', r ≠ .error .exhausted m') {fuel' : Nat} (more : fuel ≤ fuel') :
    executeAll fuel' room program m = r := by
  obtain ⟨extra, rfl⟩ := Nat.exists_eq_add_of_le' more
  rcases (Lasting.all extra fuel).executeAll room program m with ⟨m', hm⟩ | hm
  · exact absurd (h.symm.trans hm) (ends m')
  · exact hm.trans h

/-- Two runs that are not out of fuel end in the same way. -/
theorem executeAll_unique {fuel fuel' room : Nat} {program : List BoundStmt} {m : Machine}
    (ends : ∀ m', executeAll fuel room program m ≠ .error .exhausted m')
    (ends' : ∀ m', executeAll fuel' room program m ≠ .error .exhausted m') :
    executeAll fuel room program m = executeAll fuel' room program m :=
  (executeAll_lasts rfl ends (Nat.le_max_left fuel fuel')).symm.trans
    (executeAll_lasts rfl ends' (Nat.le_max_right fuel fuel'))

/-- One program behind another has what fuel is left over. -/
theorem executeAll_append (fuel room : Nat) (ss ts : List BoundStmt) :
    executeAll fuel room (ss ++ ts) =
      (executeAll fuel room ss >>= fun _ => executeAll (fuel - ss.length) room ts) := by
  induction ss generalizing fuel with
  | nil => cases fuel <;> rfl
  | cons s ss ih =>
    cases fuel with
    | zero => rfl
    | succ fuel =>
      simp only [List.cons_append, executeAll, ih, List.length_cons, Nat.add_sub_add_right,
        bind_assoc]

end Script.Run
