/-!
# Steps in sequence

What a sequence of steps of a state monad with errors comes to, given what its first step comes to.
-/

namespace Monofloat

section

variable {ε σ α β : Type} {x : EStateM ε σ α} {f : α → EStateM ε σ β} {s s' : σ}

theorem bind_of_ok {a : α} (h : x s = .ok a s') : (x >>= f) s = f a s' := by
  simp only [bind, EStateM.bind, h]

theorem bind_of_error {e : ε} (h : x s = .error e s') : (x >>= f) s = .error e s' := by
  simp only [bind, EStateM.bind, h]

/-- A sequence succeeds if both parts do. -/
theorem bind_eq_ok {b : β} (h : (x >>= f) s = .ok b s') :
    ∃ a s₁, x s = .ok a s₁ ∧ f a s₁ = .ok b s' := by
  cases hx : x s with
  | ok a s₁ => exact ⟨a, s₁, rfl, by rwa [bind_of_ok hx] at h⟩
  | error e s₁ => rw [bind_of_error hx] at h; cases h

theorem map_eq_bind (g : α → β) : g <$> x = x >>= fun a => pure (g a) := by
  funext s
  simp only [Functor.map, EStateM.map, bind, EStateM.bind]
  cases x s <;> rfl

theorem discard_eq_bind : discard x = x >>= fun _ => pure () := rfl

theorem pure_eq_ok {a b : α} (h : (pure a : EStateM ε σ α) s = .ok b s') : b = a ∧ s' = s := by
  cases h; exact ⟨rfl, rfl⟩

theorem discard_eq_ok {u : Unit} (h : (discard x) s = .ok u s') : ∃ a, x s = .ok a s' := by
  rw [discard_eq_bind] at h
  obtain ⟨a, s₁, ha, h⟩ := bind_eq_ok h
  obtain ⟨-, rfl⟩ := pure_eq_ok h
  exact ⟨a, ha⟩

theorem discard_of_ok {a : α} (h : x s = .ok a s') : (discard x) s = .ok () s' := by
  rw [discard_eq_bind, bind_of_ok h]; rfl

end

theorem except_bind_eq_ok {ε α β : Type} {x : Except ε α} {f : α → Except ε β} {b : β} :
    x >>= f = .ok b ↔ ∃ a, x = .ok a ∧ f a = .ok b := by
  cases x <;> simp [bind, Except.bind]

end Monofloat
