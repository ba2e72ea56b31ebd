import PickleDevice.VectorHistory

namespace PickleDevice

open Ownership

namespace VectorCall

variable {α : Type}

def Appends : VectorCall α → Prop
  | .pushBack _ _ _ => True
  | .assign _ _ _ => True
  | .fill _ _ => True
  | .clear _ => True
  | _ => False

def pushesTo (x : ℕ) : VectorCall α → Bool
  | .pushBack y _ _ => y == x
  | _ => false

end VectorCall

namespace VectorHeap

variable {α : Type} {T : ElementType} {s : Sequence α} {w w' : VectorHeap α} {a a' : Sequences α}
  {x y : ℕ} {call : VectorCall α}

def copiesOf (x : ℕ) (w : VectorHeap α) : VectorCall α → ℕ
  | .pushBack y _ _ =>
    if y = x then (w.live x).elim 0 fun v => if v.size = v.capacity then v.size else 0 else 0
  | .reserve y n _ =>
    if y = x then (w.live x).elim 0 fun v => if v.capacity < n then v.size else 0 else 0
  | .resize y n _ =>
    if y = x then (w.live x).elim 0 fun v => if v.capacity < n then v.size else 0 else 0
  | _ => 0

/-- How far past half full the storage is. -/
def potential (s : Sequence α) : ℕ := 2 * s.size - s.cells.length

theorem potential_grown_of_full (h : s.size = s.cells.length) :
    s.size + 2 * s.size ≤ potential s + s.grown.cells.length := by
  simp only [potential, Sequence.grown, if_pos h, Sequence.length_reserve, PVector.growthFactor]
  split <;> omega

theorem potential_pushBack (s : Sequence α) (val : α) :
    (if s.size = s.cells.length then s.size else 0) + potential (s.pushBack val) ≤
      potential s + 2 := by
  have hle := s.size_le
  have hlen : (s.pushBack val).cells.length = s.grown.cells.length := List.length_set
  have hsize : (s.pushBack val).size = s.size + 1 := rfl
  simp only [potential, hlen, hsize]
  split
  case isTrue hfull =>
    have := potential_grown_of_full hfull
    simp only [potential] at this
    omega
  case isFalse hroom =>
    rw [Sequence.grown, if_neg hroom]
    omega

theorem copiesOf_other (hx : x ∉ call.names) : copiesOf x w call = 0 := by
  cases call with
  | pushBack y val new => exact if_neg (Ne.symm (by simpa [VectorCall.names] using hx))
  | reserve y n new => exact if_neg (Ne.symm (by simpa [VectorCall.names] using hx))
  | resize y n new => exact if_neg (Ne.symm (by simpa [VectorCall.names] using hx))
  | _ => rfl

theorem change_object {f : Sequence α → Option (Sequence α)} (h : a.change x f = some a')
    (hx : a.objects x = some (some s)) : ∃ s', f s = some s' ∧ a'.objects x = some (some s') := by
  simp only [Sequences.change, hx] at h
  obtain ⟨s', hs, rfl⟩ := Option.map_eq_some_iff.mp h
  exact ⟨s', hs, put_self⟩

theorem Related.copies_step (hr : Related T w a) (h : a.step call = some a')
    (hx : a.objects x = some (some s)) (honly : x ∈ call.names → call.Appends) :
    ∃ s', a'.objects x = some (some s') ∧
      copiesOf x w call + potential s' ≤ potential s + 2 * [call].countP (VectorCall.pushesTo x) := by
  by_cases hmem : x ∈ call.names
  · have hone := honly hmem
    cases call with
    | pushBack y val new =>
      obtain rfl : x = y := by simpa [VectorCall.names] using hmem
      obtain ⟨s', hs, hs'⟩ := change_object h hx
      cases hs
      obtain ⟨v, hv, ht, hhold⟩ := hr.object hx
      refine ⟨_, hs', ?_⟩
      have hpush := potential_pushBack s val
      simpa [copiesOf, hv, hhold.size_eq ht, hhold.capacity_eq ht, VectorCall.pushesTo] using hpush
    | assign y n val =>
      obtain rfl : x = y := by simpa [VectorCall.names] using hmem
      obtain ⟨s', hs, hs'⟩ := change_object h hx
      refine ⟨s', hs', ?_⟩
      split at hs <;> cases hs
      simp [copiesOf, potential, Sequence.assign]
    | fill y val =>
      obtain rfl : x = y := by simpa [VectorCall.names] using hmem
      obtain ⟨s', hs, hs'⟩ := change_object h hx
      cases hs
      refine ⟨_, hs', ?_⟩
      have := s.size_le
      simp [copiesOf, potential, Sequence.fill]
      omega
    | clear y =>
      obtain rfl : x = y := by simpa [VectorCall.names] using hmem
      obtain ⟨s', hs, hs'⟩ := change_object h hx
      cases hs
      exact ⟨_, hs', by simp [copiesOf, potential, Sequence.clear]⟩
    | _ => cases hone
  · refine ⟨s, ((Sequences.step_effect h).1 x hmem).trans hx, ?_⟩
    rw [copiesOf_other hmem]
    omega

theorem copies_run {later : List (VectorCall α)} (hr : Related T w a)
    (hans : Refinement.Answered (step T) (Answered T) w later)
    (h : Runs.run Sequences.step a later = some a') (hx : a.objects x = some (some s))
    (honly : ∀ call ∈ later, x ∈ call.names → call.Appends) :
    (Refinement.trace (step T) (fun w call => [copiesOf x w call]) w later).sum ≤
      potential s + 2 * later.countP (VectorCall.pushesTo x) := by
  induction later generalizing w a s with
  | nil => simp [Refinement.trace]
  | cons call later ih =>
    obtain ⟨b, hb, h⟩ := Option.bind_eq_some_iff.mp h
    obtain ⟨w', hw', hr'⟩ := hr.step hans.1 hb
    obtain ⟨s', hs', hcost⟩ := hr.copies_step hb hx (honly call List.mem_cons_self)
    have hrest := ih hr' (hans.2 w' hw') h hs' fun c hc => honly c (List.mem_cons_of_mem call hc)
    rw [Refinement.trace_cons hw', List.sum_append, List.sum_singleton, List.countP_cons (l := later)]
    rw [List.countP_singleton] at hcost
    omega

/-- Doubling pays: while the calls on a vector only append elements, overwrite or drop them, and
whatever happens to others, at most two elements are copied for each `push_back` on it, besides the
few its storage was past half full by. -/
theorem copies_amortised {calls later : List (VectorCall α)}
    (hans : Refinement.Answered (step T) (Answered T) nothing calls)
    (h : Runs.run Sequences.step .nothing calls = some a)
    (hw : Runs.run (step T) nothing calls = some w)
    (hans' : Refinement.Answered (step T) (Answered T) w later)
    (h' : Runs.run Sequences.step a later = some a') (hx : a.objects x = some (some s))
    (honly : ∀ call ∈ later, x ∈ call.names → call.Appends) :
    (Refinement.trace (step T) (fun w call => [copiesOf x w call]) w later).sum ≤
      (2 * s.size - s.cells.length) + 2 * later.countP (VectorCall.pushesTo x) := by
  obtain ⟨u, hu, hr⟩ := run_related hans h
  cases hw.symm.trans hu
  exact copies_run hr hans' h' hx honly

theorem copies_amortised_two : ∃ w : VectorHeap ℕ,
    Runs.run (step intType) nothing [.default 0] = some w ∧
      (Refinement.trace (step intType) (fun w call => [copiesOf 0 w call]) w
        [.pushBack 0 7 4096, .pushBack 0 8 8192]).sum ≤ 4 := by
  obtain ⟨w, hw⟩ : ∃ w : VectorHeap ℕ, Runs.run (step intType) nothing [.default 0] = some w :=
    ⟨_, rfl⟩
  have hans : Refinement.Answered (step intType) (Answered intType) (nothing : VectorHeap ℕ)
      [.default 0] := by
    refine ⟨fun n new h => ?_, fun t ht => trivial⟩
    cases h
  have hans' : Refinement.Answered (step intType) (Answered intType) w
      [.pushBack 0 7 4096, .pushBack 0 8 8192] := by
    cases hw
    refine ⟨fun n new h => ?_, fun t ht => ?_⟩
    · cases h
      decide
    cases ht
    refine ⟨fun n new h => ?_, fun t ht => trivial⟩
    cases h
    decide
  have hle := copies_amortised (x := 0) (s := .uninitialized 0) hans rfl hw hans' rfl rfl
    (by simp [VectorCall.Appends])
  exact ⟨w, hw, hle⟩

end VectorHeap

end PickleDevice
