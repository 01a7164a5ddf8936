/-! How something that reads and changes a state ends: with a value or an error, and in a state. -/
namespace Script

variable {ε α β : Type}

theorem bind_ok {σ : Type} {x : EStateM ε σ α} {f : α → EStateM ε σ β} {s s' : σ} {b : β}
    (done : (x >>= f) s = .ok b s') : ∃ a t, x s = .ok a t ∧ f a t = .ok b s' := by
  simp only [Bind.bind, EStateM.bind] at done
  cases hx : x s with
  | ok a t =>
    rw [hx] at done
    exact ⟨a, t, rfl, done⟩
  | error e t =>
    rw [hx] at done
    cases done

/-- Behind something that ends with a value, what goes on from it. -/
theorem ok_bind {σ : Type} {x : EStateM ε σ α} {s t : σ} {a : α} (h : x s = .ok a t)
    (f : α → EStateM ε σ β) : (x >>= f) s = f a t := by
  simp only [Bind.bind, EStateM.bind, h]

def endState {σ : Type} : EStateM.Result ε σ α → σ
  | .ok _ s => s
  | .error _ s => s

/-- What a transitive relation says of the first part and of what goes on from it, it says of the
whole. -/
theorem endState_bind {σ : Type} {R : σ → σ → Prop} (trans : ∀ {s t u}, R s t → R t u → R s u)
    {x : EStateM ε σ α} {f : α → EStateM ε σ β} {s : σ} (h : R s (endState (x s)))
    (hf : ∀ a t, x s = .ok a t → R t (endState (f a t))) : R s (endState ((x >>= f) s)) := by
  simp only [Bind.bind, EStateM.bind]
  cases done : x s with
  | ok a t =>
    rw [done] at h
    exact trans h (hf a t done)
  | error e t =>
    rw [done] at h
    exact h

end Script
