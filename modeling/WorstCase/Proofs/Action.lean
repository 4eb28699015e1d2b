import WorstCase.Action

/-!
# Actions step by step

What an action comes to is told from its first step and the rest: from what it reads (`apply_get`,
`apply_liftM_ok`), from where it stops (`apply_throw`, `apply_liftM_error`, `apply_bind_error`) and
from a first part that comes to an answer (`apply_bind_ok`).
-/

namespace WorstCase

/-- Looking at a place that the list has does not stop. -/
theorem atPlace_eq_ok {ε β : Type} {xs : List β} {place : Nat} {x : β} (h : xs[place]? = some x) :
    (atPlace xs place : Except (Stop ε) β) = .ok x := by
  rw [atPlace, h]

namespace Action

variable {ε σ β γ : Type} {s t : σ}

@[simp] theorem apply_get (f : σ → Action ε σ γ) :
    Action.apply (get >>= f) s = Action.apply (f s) s :=
  rfl

@[simp] theorem apply_set (t : σ) : (set t : Action ε σ PUnit).apply s = (.ok (), t) :=
  rfl

@[simp] theorem apply_modify (f : σ → σ) : (modify f : Action ε σ PUnit).apply s = (.ok (), f s) :=
  rfl

/-- An action that stops leaves the state as it found it. -/
@[simp] theorem apply_throw (e : ε) : (throw e : Action ε σ β).apply s = (.error e, s) :=
  rfl

@[simp] theorem apply_liftM_ok (x : β) (f : β → Action ε σ γ) :
    Action.apply (liftM (Except.ok x : Except ε β) >>= f) s = Action.apply (f x) s :=
  rfl

/-- A computation that fails on its own stops the action before anything is changed. -/
@[simp] theorem apply_liftM_error (e : ε) (f : β → Action ε σ γ) :
    Action.apply (liftM (Except.error e : Except ε β) >>= f) s = (.error e, s) :=
  rfl

/-- After an action that comes to an answer, the next one goes on from the state it left. -/
theorem apply_bind_ok {a : Action ε σ β} {x : β} (h : a.apply s = (.ok x, t))
    (f : β → Action ε σ γ) : Action.apply (a >>= f) s = Action.apply (f x) t := by
  simp only [apply, ExceptT.run_bind, StateT.run_bind] at h ⊢
  rw [h]
  rfl

/-- Nothing is done after an action that stops, and its changes are not taken back. -/
theorem apply_bind_error {a : Action ε σ β} {e : ε} (h : a.apply s = (.error e, t))
    (f : β → Action ε σ γ) : Action.apply (a >>= f) s = (.error e, t) := by
  simp only [apply, ExceptT.run_bind, StateT.run_bind] at h ⊢
  rw [h]
  rfl

end Action

end WorstCase
