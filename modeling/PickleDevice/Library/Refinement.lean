import PickleDevice.Library.Runs

/-!
One system following another: each step of the lower one is some steps of the
upper one, taken at once, and the states stay related.
-/

namespace Refinement

variable {σ ο τ κ : Type} {step : σ → ο → Option σ} {spec : τ → κ → τ} {label : σ → ο → List κ}

def trace (step : σ → ο → Option σ) (label : σ → ο → List κ) : σ → List ο → List κ
  | _, [] => []
  | s, o :: ops => label s o ++ ((step s o).map fun t => trace step label t ops).getD []

theorem trace_cons {s u : σ} {o : ο} {ops : List ο} (h : step s o = some u) :
    trace step label s (o :: ops) = label s o ++ trace step label u ops := by
  simp [trace, h]

theorem run_related {R : σ → τ → Prop} {C : σ → ο → Prop}
    (hstep : ∀ s o u a, R s a → C s o → step s o = some u → R u ((label s o).foldl spec a))
    {s t : σ} {a : τ} {ops : List ο} (hr : R s a) (hc : Runs.EachStep step C s ops)
    (h : Runs.run step s ops = some t) : R t ((trace step label s ops).foldl spec a) := by
  induction ops generalizing s a with
  | nil =>
    cases h
    exact hr
  | cons o ops ih =>
    obtain ⟨u, hu, h⟩ := Option.bind_eq_some_iff.mp h
    obtain ⟨hco, hrest⟩ := hc u hu
    rw [trace_cons hu, List.foldl_append]
    apply ih
    · exact hstep s o u a hr hco hu
    · exact hrest
    · exact h

/-- Where the upper state remembers the greatest value `m` has had, it tells whether all stayed
below a bound. -/
theorem peak_lt_iff {R : σ → τ → Prop} {C : σ → ο → Prop} {k : ℕ} (m : σ → ℕ) (peak : τ → ℕ)
    (hstep : ∀ s o u a, R s a → C s o → step s o = some u → R u ((label s o).foldl spec a) ∧
      peak ((label s o).foldl spec a) = max (peak a) (m u))
    {s t : σ} {a : τ} {ops : List ο} (hr : R s a) (hm : m s ≤ peak a) (hc : Runs.EachStep step C s ops)
    (h : Runs.run step s ops = some t) : peak ((trace step label s ops).foldl spec a) < k ↔
      peak a < k ∧ Runs.Always step (fun s => m s < k) s ops := by
  induction ops generalizing s a with
  | nil =>
    constructor
    · intro hk
      exact ⟨hk, Nat.lt_of_le_of_lt hm hk⟩
    · exact fun hk => hk.1
  | cons o ops ih =>
    obtain ⟨u, hu, h⟩ := Option.bind_eq_some_iff.mp h
    obtain ⟨hco, hrest⟩ := hc u hu
    obtain ⟨hru, hpeak⟩ := hstep s o u a hr hco hu
    have hmu : m u ≤ peak ((label s o).foldl spec a) := hpeak ▸ Nat.le_max_right _ _
    rw [trace_cons hu, List.foldl_append, ih hru hmu hrest h, hpeak, Nat.max_lt]
    constructor
    · rintro ⟨⟨hk, -⟩, hall⟩
      refine ⟨hk, Nat.lt_of_le_of_lt hm hk, fun v hv => ?_⟩
      cases hu.symm.trans hv
      exact hall
    · rintro ⟨hk, -, hall⟩
      have hu := hall u hu
      exact ⟨⟨hk, hu.head⟩, hu⟩

def Answered (step : σ → ο → Option σ) (E : σ → ο → Prop) : σ → List ο → Prop
  | _, [] => True
  | s, o :: ops => E s o ∧ ∀ t, step s o = some t → Answered step E t ops

theorem run_exists {upper : τ → ο → Option τ} {R : σ → τ → Prop} {E : σ → ο → Prop}
    (hstep : ∀ s o a b, R s a → E s o → upper a o = some b → ∃ t, step s o = some t ∧ R t b)
    {s : σ} {a b : τ} {ops : List ο} (hr : R s a) (he : Answered step E s ops)
    (h : Runs.run upper a ops = some b) : ∃ t, Runs.run step s ops = some t ∧ R t b := by
  induction ops generalizing s a with
  | nil =>
    cases h
    exact ⟨s, rfl, hr⟩
  | cons o ops ih =>
    obtain ⟨c, hc, h⟩ := Option.bind_eq_some_iff.mp h
    obtain ⟨u, hu, hru⟩ := hstep s o a c hr he.1 hc
    obtain ⟨t, ht, hrt⟩ := ih hru (he.2 u hu) h
    exact ⟨t, by rw [Runs.run, hu]; exact ht, hrt⟩

theorem history_of_run {upper : τ → ο → τ → Prop} {f : σ → τ}
    (hstep : ∀ s o t, step s o = some t → upper (f s) o (f t)) {s t : σ} {a : τ}
    {earlier ops : List ο} (ha : Runs.History upper a earlier (f s)) (h : Runs.run step s ops = some t) :
    Runs.History upper a (earlier ++ ops) (f t) := by
  induction ops generalizing s earlier with
  | nil =>
    cases h
    rwa [List.append_nil]
  | cons o ops ih =>
    obtain ⟨u, hu, h⟩ := Option.bind_eq_some_iff.mp h
    rw [List.append_cons]
    exact ih (ha.tail (hstep s o u hu)) h

theorem run_of_history {upper : τ → ο → τ → Prop} {R : σ → τ → Prop}
    (hstep : ∀ s o a b, R s a → upper a o b → ∃ t, step s o = some t ∧ R t b) {s : σ} {a b : τ}
    {ops : List ο} (hr : R s a) (h : Runs.History upper a ops b) :
    ∃ t, Runs.run step s ops = some t ∧ R t b := by
  induction h with
  | refl => exact ⟨s, rfl, hr⟩
  | @tail ops c d o h ho ih =>
    obtain ⟨t, ht, hrt⟩ := ih
    obtain ⟨u, hu, hru⟩ := hstep t o c d hrt ho
    refine ⟨u, ?_, hru⟩
    rw [Runs.run_append ht, Runs.run, hu]
    rfl

end Refinement
