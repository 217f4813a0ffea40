/-!
# Opening computations

A computation that may be refused gives a result iff each of its steps does. These
equivalences take a computation apart, first for results alone and then for results
together with the state that is left. What is known of the refusals of the steps is
known of those of the computation.
-/

namespace Lookahead.Outcome

universe u

section Refusable

variable {ε α β : Type u} {b : β}

theorem ok_bind (a : α) (f : α → Except ε β) : (Except.ok a >>= f) = f a := rfl

theorem bind_eq_ok {x : Except ε α} {f : α → Except ε β} :
    (x >>= f) = .ok b ↔ ∃ a, x = .ok a ∧ f a = .ok b := by
  cases x <;> simp [bind, Except.bind]

theorem pure_eq_ok {a : β} : (pure a : Except ε β) = .ok b ↔ a = b := by
  simp [pure, Except.pure]

theorem throw_eq_ok {e : ε} : (throw e : Except ε β) = .ok b ↔ False := by
  simp [throw, throwThe, MonadExceptOf.throw]

/-- A guard lets through what it does not refuse. -/
theorem guard_eq_ok {c : Prop} [Decidable c] {e : ε} {f : α → Except ε β} {y : Except ε β} :
    (if c then throw e >>= f else y) = .ok b ↔ ¬c ∧ y = .ok b := by
  by_cases h : c <;> simp [h, bind, Except.bind, throw, throwThe, MonadExceptOf.throw]

theorem eq_ok_of_toOption {x : Except ε β} (h : x.toOption = some b) : x = .ok b := by
  cases x with
  | ok a => exact congrArg Except.ok (Option.some.inj h)
  | error e => cases h

theorem map_eq_ok {x : Except ε α} {f : α → β} :
    x.map f = .ok b ↔ ∃ a, x = .ok a ∧ f a = b := by
  cases x <;> simp [Except.map]

end Refusable

/-- Each refusal of a computation has a property. -/
def Refuses {ε α : Type u} (P : ε → Prop) (x : Except ε α) : Prop := ∀ e, x = .error e → P e

namespace Refuses

variable {ε α β : Type u} {P : ε → Prop} {x : Except ε α}

theorem ok (a : α) : Refuses P (.ok a : Except ε α) := by
  intro e h
  cases h

theorem error {e : ε} (he : P e) : Refuses P (.error e : Except ε α) := by
  intro e' h
  exact Except.error.inj h ▸ he

/-- What comes after a step may build on its result. -/
theorem bind {rest : α → Except ε β} (h : Refuses P x)
    (hrest : ∀ a, x = .ok a → Refuses P (rest a)) : Refuses P (x >>= rest) := by
  cases x with
  | ok a => exact hrest a rfl
  | error e => exact .error (h e rfl)

theorem map {f : α → β} (h : Refuses P x) : Refuses P (x.map f) := by
  cases x with
  | ok a => exact .ok _
  | error e => exact .error (h e rfl)

theorem guard {c : Prop} [Decidable c] {e : ε} {refused : β → Except ε α} (he : P e)
    (h : Refuses P x) : Refuses P (if c then throw e >>= refused else x) := by
  split
  · exact .error he
  · exact h

end Refuses

section Stateful

variable {ε σ α β : Type u} {s s' : σ} {b : β}

theorem run_bind_eq_ok {x : EStateM ε σ α} {f : α → EStateM ε σ β} :
    (x >>= f) s = .ok b s' ↔ ∃ a s₁, x s = .ok a s₁ ∧ f a s₁ = .ok b s' := by
  simp only [bind, EStateM.bind]
  cases x s with
  | ok a t => simp [and_assoc]
  | error e t => simp

theorem run_bind_eq_error {x : EStateM ε σ α} {f : α → EStateM ε σ β} {e : ε} :
    (x >>= f) s = .error e s' ↔
      x s = .error e s' ∨ ∃ a s₁, x s = .ok a s₁ ∧ f a s₁ = .error e s' := by
  simp only [bind, EStateM.bind]
  cases x s with
  | ok a t => simp [and_assoc]
  | error e' t => simp

theorem run_pure_eq_ok {a : β} : (pure a : EStateM ε σ β) s = .ok b s' ↔ a = b ∧ s = s' := by
  simp [pure, EStateM.pure]

theorem run_throw_eq_ok {e : ε} : (throw e : EStateM ε σ β) s = .ok b s' ↔ False := by
  change EStateM.Result.error e s = .ok b s' ↔ False
  simp

theorem run_guard_eq_ok {c : Prop} [Decidable c] {e : ε} {f : α → EStateM ε σ β}
    {y : EStateM ε σ β} :
    (if c then throw e >>= f else y) s = .ok b s' ↔ ¬c ∧ y s = .ok b s' := by
  by_cases h : c
  · rw [if_pos h, run_bind_eq_ok]
    simp [h, run_throw_eq_ok]
  · rw [if_neg h]
    simp [h]

theorem run_get_eq_ok {a : σ} : (get : EStateM ε σ σ) s = .ok a s' ↔ s = a ∧ s = s' := by
  change EStateM.Result.ok s s = .ok a s' ↔ s = a ∧ s = s'
  simp

theorem run_set_eq_ok {t : σ} {a : PUnit} :
    (set t : EStateM ε σ PUnit) s = .ok a s' ↔ t = s' := by
  change EStateM.Result.ok PUnit.unit t = .ok a s' ↔ t = s'
  simp

theorem run_modify_eq_ok {f : σ → σ} {a : PUnit} :
    (modify f : EStateM ε σ PUnit) s = .ok a s' ↔ f s = s' := by
  change EStateM.Result.ok PUnit.unit (f s) = .ok a s' ↔ f s = s'
  simp

/-- A computation that first reads the state is given it. -/
theorem run_get_bind (f : σ → EStateM ε σ α) (s : σ) : (get >>= f) s = f s s := rfl

end Stateful

end Lookahead.Outcome
