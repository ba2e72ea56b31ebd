import Mathlib.Data.List.Induction

/-!
Runs of a deterministic system whose steps may be impossible: what holds in
every state a run reaches, and when every step of it meets a condition.
-/

namespace Runs

variable {σ ο : Type} {step : σ → ο → Option σ}

def run (step : σ → ο → Option σ) : σ → List ο → Option σ
  | s, [] => some s
  | s, o :: ops => (step s o).bind fun t => run step t ops

def Always (step : σ → ο → Option σ) (P : σ → Prop) : σ → List ο → Prop
  | s, [] => P s
  | s, o :: ops => P s ∧ ∀ t, step s o = some t → Always step P t ops

/-- Every step taken meets `C` in the state it starts from. -/
def EachStep (step : σ → ο → Option σ) (C : σ → ο → Prop) : σ → List ο → Prop
  | _, [] => True
  | s, o :: ops => ∀ t, step s o = some t → C s o ∧ EachStep step C t ops

theorem run_append {s t : σ} {ops later : List ο} (h : run step s ops = some t) :
    run step s (ops ++ later) = run step t later := by
  induction ops generalizing s with
  | nil =>
    cases h
    rfl
  | cons o ops ih =>
    obtain ⟨u, hu, h⟩ := Option.bind_eq_some_iff.mp h
    rw [List.cons_append, run, hu]
    exact ih h

theorem run_invariant {P : σ → Prop} (hstep : ∀ s o t, P s → step s o = some t → P t)
    {s t : σ} {ops : List ο} (hs : P s) (h : run step s ops = some t) : P t := by
  induction ops generalizing s with
  | nil =>
    cases h
    exact hs
  | cons o ops ih =>
    obtain ⟨u, hu, h⟩ := Option.bind_eq_some_iff.mp h
    exact ih (hstep s o u hs hu) h

theorem EachStep.run_invariant {P : σ → Prop} {C : σ → ο → Prop}
    (hstep : ∀ s o t, P s → C s o → step s o = some t → P t) {s t : σ} {ops : List ο} (hs : P s)
    (hc : EachStep step C s ops) (h : run step s ops = some t) : P t := by
  induction ops generalizing s with
  | nil =>
    cases h
    exact hs
  | cons o ops ih =>
    obtain ⟨u, hu, h⟩ := Option.bind_eq_some_iff.mp h
    obtain ⟨hco, hrest⟩ := hc u hu
    exact ih (hstep s o u hs hco hu) hrest h

theorem EachStep.of_forall {C : σ → ο → Prop} {ops : List ο} (h : ∀ o ∈ ops, ∀ s, C s o) (s : σ) :
    EachStep step C s ops := by
  induction ops generalizing s with
  | nil => trivial
  | cons o ops ih =>
    intro t _
    refine ⟨h o List.mem_cons_self s, ih (fun p hp => h p (List.mem_cons_of_mem o hp)) t⟩

theorem Always.head {P : σ → Prop} {s : σ} {ops : List ο} (h : Always step P s ops) : P s := by
  cases ops with
  | nil => exact h
  | cons o ops => exact h.1

/-- Where one step keeps `P` exactly when it meets `C`, a run keeps `P` throughout exactly when
each of its steps meets `C`. -/
theorem always_iff_eachStep {I P : σ → Prop} {C : σ → ο → Prop}
    (hI : ∀ s o t, I s → step s o = some t → I t)
    (hstep : ∀ s o t, I s → P s → step s o = some t → (P t ↔ C s o))
    {s : σ} {ops : List ο} (hi : I s) (hp : P s) :
    Always step P s ops ↔ EachStep step C s ops := by
  induction ops generalizing s with
  | nil => exact ⟨fun _ => trivial, fun _ => hp⟩
  | cons o ops ih =>
    constructor
    · rintro ⟨-, hrest⟩ t ht
      have hpt := (hrest t ht).head
      exact ⟨(hstep s o t hi hp ht).mp hpt, (ih (hI s o t hi ht) hpt).mp (hrest t ht)⟩
    · intro h
      refine ⟨hp, fun t ht => ?_⟩
      obtain ⟨hc, hrest⟩ := h t ht
      exact (ih (hI s o t hi ht) ((hstep s o t hi hp ht).mpr hc)).mpr hrest

theorem always_congr {I : ℕ → σ → Prop} {P Q : σ → Prop}
    (hI : ∀ n s o t, I (n + 1) s → step s o = some t → I n t) (h : ∀ n s, I n s → (P s ↔ Q s))
    {s : σ} {ops : List ο} (hi : I ops.length s) : Always step P s ops ↔ Always step Q s ops := by
  induction ops generalizing s with
  | nil => exact h 0 s hi
  | cons o ops ih =>
    have hrest : ∀ t, step s o = some t → (Always step P t ops ↔ Always step Q t ops) := by
      intro t ht
      apply ih
      exact hI ops.length s o t hi ht
    constructor
    · rintro ⟨hp, hall⟩
      exact ⟨(h _ s hi).mp hp, fun t ht => (hrest t ht).mp (hall t ht)⟩
    · rintro ⟨hq, hall⟩
      exact ⟨(h _ s hi).mpr hq, fun t ht => (hrest t ht).mpr (hall t ht)⟩

/-- The runs of a system with several outcomes for a step, growing at their end. -/
inductive History (step : σ → ο → σ → Prop) (s : σ) : List ο → σ → Prop
  | refl : History step s [] s
  | tail {ops : List ο} {t u : σ} {o : ο} (h : History step s ops t) (ho : step t o u) :
      History step s (ops ++ [o]) u

namespace History

variable {step : σ → ο → σ → Prop} {s u : σ} {ops later : List ο} {o : ο}

theorem last (h : History step s (ops ++ [o]) u) : ∃ t, History step s ops t ∧ step t o u := by
  generalize hl : ops ++ [o] = l at h
  cases h with
  | refl => exact absurd hl (by simp)
  | tail h ho =>
    obtain ⟨rfl, he⟩ := List.append_inj' hl rfl
    obtain rfl := List.head_eq_of_cons_eq he
    exact ⟨_, h, ho⟩

theorem earlier (h : History step s (ops ++ later) u) : ∃ t, History step s ops t := by
  induction later using List.reverseRecOn generalizing u with
  | nil => exact ⟨u, by rwa [List.append_nil] at h⟩
  | append_singleton later o ih =>
    rw [← List.append_assoc] at h
    obtain ⟨t, h, -⟩ := h.last
    exact ih h

theorem split (h : History step s (ops ++ o :: later) u) :
    ∃ t t', History step s ops t ∧ step t o t' := by
  rw [List.append_cons] at h
  obtain ⟨t', h⟩ := h.earlier
  obtain ⟨t, h, ho⟩ := h.last
  exact ⟨t, t', h, ho⟩

theorem map {κ : Type} {g : κ → ο} {keys : List κ}
    (h : History (fun s k u => step s (g k) u) s keys u) : History step s (keys.map g) u := by
  induction h with
  | refl => exact .refl
  | tail h ho ih =>
    rw [List.map_append]
    exact ih.tail ho

end History

end Runs
