import Mathlib.Data.List.Sort

/-!
The greatest elements of a list, so many of them, in descending order.
-/

namespace Selection

open List

variable {α : Type*} [LinearOrder α] {l r t : List α} {k : ℕ} {x : α}

def greatest (k : ℕ) (l : List α) : List α := (l.insertionSort (· ≥ ·)).take k

theorem length_greatest : (greatest k l).length = min k l.length := by
  simp [greatest]

theorem greatest_pairwise : (greatest k l).Pairwise (· ≥ ·) :=
  (pairwise_insertionSort _ l).sublist (take_sublist _ _)

theorem greatest_unique (ht : t.Pairwise (· ≥ ·)) (hlen : t.length = min k l.length)
    (hperm : t ++ r ~ l) (hle : ∀ y ∈ r, ∀ z ∈ t, y ≤ z) : greatest k l = t := by
  have hsort : l.insertionSort (· ≥ ·) = t ++ r.insertionSort (· ≥ ·) := by
    apply Perm.eq_of_pairwise' (r := (· ≥ ·))
    · exact pairwise_insertionSort _ l
    · apply pairwise_append.mpr
      refine ⟨ht, pairwise_insertionSort _ r, fun z hz y hy => ?_⟩
      exact hle y ((mem_insertionSort _).mp hy) z hz
    · exact (perm_insertionSort _ l).trans
        (hperm.symm.trans ((perm_insertionSort _ r).symm.append_left t))
  have hsize := hperm.length_eq
  rw [length_append] at hsize
  rw [greatest, hsort]
  rcases le_total k l.length with hk | hk
  · exact take_left' (hlen.trans (min_eq_left hk))
  · have hr : r = [] := by
      apply length_eq_zero_iff.mp
      omega
    rw [hr, insertionSort_nil, append_nil, take_of_length_le]
    omega

theorem greatest_perm_append (k : ℕ) (l : List α) : ∃ r,
    greatest k l ++ r ~ l ∧ ∀ y ∈ r, ∀ z ∈ greatest k l, y ≤ z := by
  refine ⟨(l.insertionSort (· ≥ ·)).drop k, ?_, ?_⟩
  · rw [greatest, take_append_drop]
    exact perm_insertionSort _ l
  · have hsort := pairwise_insertionSort (· ≥ ·) l
    rw [← take_append_drop k (l.insertionSort (· ≥ ·))] at hsort
    intro y hy z hz
    exact (pairwise_append.mp hsort).2.2 z hz y hy

theorem greatest_of_pairwise (h : l.Pairwise (· ≥ ·)) : greatest k l = l.take k := by
  rw [greatest, h.insertionSort_eq]

theorem greatest_concat : greatest k (greatest k l ++ [x]) = greatest k (l ++ [x]) := by
  obtain ⟨r, hperm, hle⟩ := greatest_perm_append k l
  obtain ⟨out, hperm', hle'⟩ := greatest_perm_append k (greatest k l ++ [x])
  have hlen : (greatest k (greatest k l ++ [x])).length = min k (l ++ [x]).length := by
    simp only [length_greatest, length_append, length_singleton]
    omega
  refine (greatest_unique (r := out ++ r) greatest_pairwise hlen ?_ ?_).symm
  · calc greatest k (greatest k l ++ [x]) ++ (out ++ r)
        ~ (greatest k l ++ [x]) ++ r := by
          rw [← append_assoc]
          exact hperm'.append_right r
      _ ~ (greatest k l ++ r) ++ [x] := by
          rw [append_assoc, append_assoc]
          exact perm_append_comm.append_left _
      _ ~ l ++ [x] := hperm.append_right [x]
  · intro y hy z hz
    rcases mem_append.mp hy with hy | hy
    · exact hle' y hy z hz
    -- one of those left out before: then as many as asked for were at least as great
    have hfull : (greatest k l).length = k := by
      have hsize := hperm.length_eq
      have hpos := length_pos_of_mem hy
      rw [length_append] at hsize
      rw [length_greatest] at hsize ⊢
      omega
    by_cases hx : ∀ u ∈ greatest k l, x ≤ u
    · rw [greatest_of_pairwise, take_left' hfull] at hz
      · exact hle y hy z hz
      · apply pairwise_append.mpr
        refine ⟨greatest_pairwise, pairwise_singleton _ _, fun u hu v hv => ?_⟩
        cases mem_singleton.mp hv
        exact hx u hu
    · push Not at hx
      obtain ⟨u, hu, hux⟩ := hx
      have hz' : z ∈ greatest k l ++ [x] := hperm'.subset (mem_append_left _ hz)
      rcases mem_append.mp hz' with hz' | hz'
      · exact hle y hy z hz'
      · cases mem_singleton.mp hz'
        exact (hle y hy u hu).trans hux.le

end Selection
