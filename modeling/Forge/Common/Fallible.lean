import Mathlib.Logic.Basic

/-!
# Fallible computations

A sequence of computations that can fail is taken apart into the results of its steps, also
when the steps change a state on the way.
-/

namespace Forge.Common

universe u v

variable {ε : Type u} {α β : Type v}

/-- A sequence of two steps succeeds when both do. -/
theorem bind_eq_ok_iff {x : Except ε α} {f : α → Except ε β} {b : β} :
    (x >>= f) = .ok b ↔ ∃ a, x = .ok a ∧ f a = .ok b := by
  cases x with
  | error e =>
    refine iff_of_false nofun fun h => ?_
    obtain ⟨a, ha, _⟩ := h
    cases ha
  | ok a =>
    refine ⟨fun h => ⟨a, rfl, h⟩, fun h => ?_⟩
    obtain ⟨a', ha, hf⟩ := h
    cases ha
    exact hf

/-- A step without effect succeeds with its value. -/
theorem pure_eq_ok_iff {a b : α} : (pure a : Except ε α) = .ok b ↔ a = b :=
  Except.ok.injEq a b ▸ Iff.rfl

/-! ## With a state -/

section State

variable {σ : Type u} {ε' α' β' : Type u}

/-- The second of two steps starts in the state that the first leaves, if that succeeds. -/
theorem bind_run (x : ExceptT ε' (StateM σ) α') (f : α' → ExceptT ε' (StateM σ) β') (s : σ) :
    (x >>= f) s = match x s with
      | (.ok a, t) => f a t
      | (.error e, t) => (.error e, t) := by
  change ExceptT.bindCont f (x s).1 (x s).2 = _
  cases x s with
  | mk result t => cases result <;> rfl

/-- A sequence of two steps on a state succeeds when both do. -/
theorem bind_run_eq_ok_iff {x : ExceptT ε' (StateM σ) α'} {f : α' → ExceptT ε' (StateM σ) β'} {s t : σ}
    {b : β'} :
    (x >>= f) s = (.ok b, t) ↔ ∃ a s', x s = (.ok a, s') ∧ f a s' = (.ok b, t) := by
  rw [bind_run]
  cases x s with
  | mk result s' =>
    cases result with
    | error e =>
      refine iff_of_false nofun fun h => ?_
      obtain ⟨a, s'', ha, _⟩ := h
      cases ha
    | ok a =>
      refine ⟨fun h => ⟨a, s', rfl, h⟩, fun h => ?_⟩
      obtain ⟨a', s'', ha, hf⟩ := h
      cases ha
      exact hf

/-- A sequence of two steps on a state fails when one of them does. -/
theorem bind_run_eq_error_iff {x : ExceptT ε' (StateM σ) α'} {f : α' → ExceptT ε' (StateM σ) β'}
    {s t : σ} {e : ε'} :
    (x >>= f) s = (.error e, t) ↔
      x s = (.error e, t) ∨ ∃ a s', x s = (.ok a, s') ∧ f a s' = (.error e, t) := by
  rw [bind_run]
  cases x s with
  | mk result s' =>
    cases result with
    | error e' =>
      constructor
      · intro h
        cases h
        exact Or.inl rfl
      · rintro (h | ⟨a, s'', ha, _⟩)
        · cases h
          rfl
        · cases ha
    | ok a =>
      constructor
      · intro h
        exact Or.inr ⟨a, s', rfl, h⟩
      · rintro (h | ⟨a', s'', ha, hf⟩)
        · cases h
        · cases ha
          exact hf

/-- A step that does not look at the state leaves it alone. -/
theorem lift_run_eq_ok_iff {x : Except ε' α'} {s t : σ} {a : α'} :
    (liftM x : ExceptT ε' (StateM σ) α') s = (.ok a, t) ↔ x = .ok a ∧ s = t :=
  Prod.mk.injEq x s (.ok a) t ▸ Iff.rfl

/-- A step that does not look at the state leaves it alone. -/
theorem lift_run_eq_error_iff {x : Except ε' α'} {s t : σ} {e : ε'} :
    (liftM x : ExceptT ε' (StateM σ) α') s = (.error e, t) ↔ x = .error e ∧ s = t :=
  Prod.mk.injEq x s (.error e) t ▸ Iff.rfl

end State

end Forge.Common
