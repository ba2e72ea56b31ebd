import Mathlib.Data.List.Range
import Mathlib.Data.Nat.Notation

/-!
Segments of different lengths laid end to end, and how the offsets of their
starts cut them out again.
-/

namespace Segments

variable {α : Type} {f : ℕ → List α} {o : ℕ → ℕ} {n v : ℕ}

def joined (f : ℕ → List α) (n : ℕ) : List α := (List.range n).flatMap f

def slice (l : List α) (a b : ℕ) : List α := (l.drop a).take (b - a)

theorem joined_succ (f : ℕ → List α) (n : ℕ) : joined f (n + 1) = joined f n ++ f n := by
  simp [joined, List.range_succ]

theorem joined_split (hv : v < n) : ∃ rest, joined f n = joined f (v + 1) ++ rest := by
  induction n with
  | zero => omega
  | succ n ih =>
    rw [joined_succ f n]
    by_cases hvn : v < n
    · obtain ⟨rest, h⟩ := ih hvn
      refine ⟨rest ++ f n, ?_⟩
      rw [h, List.append_assoc]
    · obtain rfl : v = n := by omega
      refine ⟨[], ?_⟩
      rw [joined_succ, List.append_nil]

theorem slice_joined (hv : v < n) :
    slice (joined f n) (joined f v).length (joined f (v + 1)).length = f v := by
  obtain ⟨rest, h⟩ := joined_split (f := f) hv
  rw [slice, h, joined_succ, List.append_assoc, List.drop_left, List.length_append,
    Nat.add_sub_cancel_left, List.take_left]

theorem joined_length (h0 : o 0 = 0) (hstep : ∀ v < n, o (v + 1) = o v + (f v).length) :
    ∀ v ≤ n, (joined f v).length = o v := by
  intro v hv
  induction v with
  | zero => simp [joined, h0]
  | succ v ih =>
    rw [joined_succ, List.length_append, ih (by omega), hstep v (by omega)]

end Segments
