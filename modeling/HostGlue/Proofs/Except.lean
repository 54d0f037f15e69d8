/-!
# Computations that may fail

When a sequence of computations in `Except` succeeds: every part does, and the results fit.
-/

namespace HostGlue

variable {ε ε' α β : Type} {x : Except ε α}

@[simp] theorem except_pure_eq_ok {a b : α} : (pure a : Except ε α) = .ok b ↔ a = b := by
  simp [pure, Except.pure]

@[simp] theorem except_bind_eq_ok {f : α → Except ε β} {b : β} :
    x >>= f = .ok b ↔ ∃ a, x = .ok a ∧ f a = .ok b := by
  cases x <;> simp [bind, Except.bind]

@[simp] theorem except_map_eq_ok {f : α → β} {b : β} :
    x.map f = .ok b ↔ ∃ a, x = .ok a ∧ f a = b := by
  cases x <;> simp [Except.map]

@[simp] theorem except_functor_map_eq_ok {f : α → β} {b : β} :
    f <$> x = .ok b ↔ ∃ a, x = .ok a ∧ f a = b := except_map_eq_ok

theorem except_ok_bind {a : α} {f : α → Except ε β} : (.ok a : Except ε α) >>= f = f a := rfl

@[simp] theorem except_mapError_eq_ok {f : ε → ε'} {a : α} : x.mapError f = .ok a ↔ x = .ok a := by
  cases x with
  | ok b =>
      constructor
      · rintro ⟨⟩
        rfl
      · rintro ⟨⟩
        rfl
  | error e =>
      constructor
      · rintro ⟨⟩
      · rintro ⟨⟩

/-- A check that was passed. -/
@[simp] theorem except_guard_eq_ok {c : Prop} [Decidable c] {e : ε} {f : α → Except ε β}
    {y : Except ε β} {b : β} : (if c then throw e >>= f else y) = .ok b ↔ ¬ c ∧ y = .ok b := by
  split
  · simp [*, throw, throwThe, MonadExceptOf.throw, bind, Except.bind]
  · simp [*]

/-- Of a sequence of computations the whole fails exactly if one of them does. -/
theorem except_mapM_fails_iff {l : List α} {f : α → Except ε β} :
    (∃ e, l.mapM f = .error e) ↔ ∃ x ∈ l, ∃ e, f x = .error e := by
  induction l with
  | nil => simp [pure, Except.pure]
  | cons x rest ih =>
      simp only [List.mapM_cons, List.mem_cons, or_and_right, exists_or, exists_eq_left, ← ih]
      cases f x with
      | error e => simp [bind, Except.bind]
      | ok y => cases rest.mapM f <;> simp [bind, Except.bind, pure, Except.pure]

end HostGlue
