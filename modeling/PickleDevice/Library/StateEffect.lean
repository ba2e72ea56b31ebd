import Mathlib.Logic.Relation

/-!
Computations that read and write a state and may stop with an error; the state
reached so far survives the error, as it does when a C++ exception is thrown.
-/

namespace StateEffect

abbrev Effect (ε σ α : Type) := ExceptT ε (StateM σ) α

variable {ε σ α β : Type}

def run (x : Effect ε σ α) (s : σ) : Except ε α × σ := StateT.run (ExceptT.run x) s

@[simp] theorem run_pure (a : α) (s : σ) : run (pure a : Effect ε σ α) s = (.ok a, s) := rfl

@[simp] theorem run_get (s : σ) : run (get : Effect ε σ σ) s = (.ok s, s) := rfl

@[simp] theorem run_modify (f : σ → σ) (s : σ) :
    run (modify f : Effect ε σ PUnit) s = (.ok ⟨⟩, f s) := rfl

theorem run_bind (x : Effect ε σ α) (f : α → Effect ε σ β) (s : σ) :
    run (x >>= f) s = match run x s with
      | (.ok a, t) => run (f a) t
      | (.error e, t) => (.error e, t) := by
  change StateT.run (ExceptT.run (x >>= f)) s = _
  simp only [ExceptT.run_bind, StateT.run_bind, run]
  rcases h : StateT.run (ExceptT.run x) s with ⟨r, t⟩
  cases r <;> rfl

theorem run_bind_ok {x : Effect ε σ α} {f : α → Effect ε σ β} {s t : σ} {a : α}
    (h : run x s = (.ok a, t)) : run (x >>= f) s = run (f a) t := by
  rw [run_bind, h]

@[simp] theorem run_ite (c : Prop) [Decidable c] (x y : Effect ε σ α) (s : σ) :
    run (if c then x else y) s = if c then run x s else run y s := by
  split <;> rfl

theorem run_bind_eq_ok {x : Effect ε σ α} {f : α → Effect ε σ β} {s u : σ} {b : β}
    (h : run (x >>= f) s = (.ok b, u)) :
    ∃ a t, run x s = (.ok a, t) ∧ run (f a) t = (.ok b, u) := by
  rw [run_bind] at h
  rcases hx : run x s with ⟨r, t⟩
  rw [hx] at h
  cases r with
  | ok a => exact ⟨a, t, rfl, h⟩
  | error e => cases h

/-- The states a computation passes through are related by `R`, whatever its outcome. -/
def Follows (R : σ → σ → Prop) (x : Effect ε σ α) : Prop := ∀ s, R s (run x s).2

theorem follows_pure {R : σ → σ → Prop} (hr : ∀ s, R s s) (a : α) :
    Follows R (pure a : Effect ε σ α) := hr

theorem follows_throw {R : σ → σ → Prop} (hr : ∀ s, R s s) (e : ε) :
    Follows R (throw e : Effect ε σ α) := hr

theorem follows_bind {R : σ → σ → Prop} (ht : ∀ {s t u}, R s t → R t u → R s u)
    {x : Effect ε σ α} {f : α → Effect ε σ β} (hx : Follows R x) (hf : ∀ a, Follows R (f a)) :
    Follows R (x >>= f) := by
  intro s
  have h := hx s
  rw [run_bind]
  rcases hr : run x s with ⟨r, t⟩
  rw [hr] at h
  cases r with
  | ok a => exact ht h (hf a t)
  | error e => exact h

end StateEffect
