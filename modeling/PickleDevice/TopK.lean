import Mathlib.Algebra.Ring.Int.Defs
import Mathlib.Data.List.Pairwise
import Mathlib.Data.Prod.Lex
import PickleDevice.Library.Selection

namespace PickleDevice

open List Selection

section

variable {K V : Type} [LinearOrder K] [LinearOrder V]

structure TopKLoop (K V : Type) where
  topK : List (V ×ₗ K)
  minSoFar : V

/-- `std::make_pair(kvp.second, kvp.first)`, compared as a `std::pair` is: the value first. -/
def makePair (kvp : K × V) : V ×ₗ K := toLex (kvp.2, kvp.1)

/-- One round of the loop; `back()` of an empty vector has no meaning. -/
def TopKLoop.step (k : ℕ) (s : TopKLoop K V) (kvp : K × V) : Option (TopKLoop K V) :=
  if s.topK.length < k ∨ s.minSoFar < kvp.2 then
    let topK := (s.topK ++ [makePair kvp]).insertionSort (· ≥ ·)
    let topK := if k < topK.length then topK.take k else topK
    topK.getLast?.map fun back => ⟨topK, (ofLex back).1⟩
  else some s

def topK [Zero V] (toSort : List (K × V)) (k : ℕ) : Option (List (V ×ₗ K)) :=
  (toSort.foldlM (TopKLoop.step k) ⟨[], 0⟩).map TopKLoop.topK

def contenders (k : ℕ) (toSort : List (K × V)) : List (K × V) :=
  (toSort.zipIdx.filter fun p => (toSort.take p.2).countP (p.1.2 ≤ ·.2) < k).map Prod.fst

variable {k : ℕ} {toSort : List (K × V)} {kvp : K × V} {s s' : TopKLoop K V} {t : List (V ×ₗ K)}

def first (p : V ×ₗ K) : V := (ofLex p).1

theorem first_mono {p q : V ×ₗ K} (h : p ≤ q) : first p ≤ first q :=
  Prod.Lex.monotone_fst p q h

omit [LinearOrder K] in
theorem contenders_concat :
    contenders k (toSort ++ [kvp]) =
      if toSort.countP (kvp.2 ≤ ·.2) < k then contenders k toSort ++ [kvp]
      else contenders k toSort := by
  have hold : (toSort.zipIdx.filter fun p =>
      ((toSort ++ [kvp]).take p.2).countP (p.1.2 ≤ ·.2) < k) =
      toSort.zipIdx.filter fun p => (toSort.take p.2).countP (p.1.2 ≤ ·.2) < k := by
    apply filter_congr
    rintro ⟨p, i⟩ hp
    have hi : i < toSort.length := by simpa using (mem_zipIdx hp).2.1
    rw [take_append_of_le_length hi.le]
  rw [contenders, zipIdx_append, filter_append, hold, map_append, ← contenders]
  split_ifs with h <;> simp [h]

structure Selected (k : ℕ) (toSort : List (K × V)) (s : TopKLoop K V) : Prop where
  best : s.topK = greatest k ((contenders k toSort).map makePair)
  split : ∃ rest, s.topK ++ rest ~ toSort.map makePair ∧
    ∀ y ∈ rest, ∀ z ∈ s.topK, first y ≤ first z
  length : s.topK.length = min k toSort.length
  back : ∀ p, s.topK.getLast? = some p → s.minSoFar = first p

namespace Selected

theorem nil [Zero V] : Selected k ([] : List (K × V)) ⟨[], 0⟩ := by
  constructor
  · simp [contenders, greatest]
  · exact ⟨[], by simp⟩
  · simp
  · simp

theorem descending (h : Selected k toSort s) : s.topK.Pairwise (· ≥ ·) :=
  h.best ▸ greatest_pairwise

theorem exists_back (h : Selected k toSort s) (hk : 0 < k) (hfull : k ≤ s.topK.length) :
    ∃ p ∈ s.topK, first p = s.minSoFar ∧ ∀ z ∈ s.topK, s.minSoFar ≤ first z := by
  have hne : s.topK ≠ [] := ne_nil_of_length_pos (hk.trans_le hfull)
  have hlast := getLast?_eq_some_getLast hne
  have hmin := h.back _ hlast
  refine ⟨s.topK.getLast hne, getLast_mem hne, hmin.symm, fun z hz => ?_⟩
  rw [hmin]
  apply first_mono
  exact h.descending.rel_getLast hz

theorem countP_eq (h : Selected k toSort s) (v : V) : ∃ rest : List (V ×ₗ K),
    toSort.countP (v ≤ ·.2) = s.topK.countP (v ≤ first ·) + rest.countP (v ≤ first ·) ∧
      ∀ y ∈ rest, ∀ z ∈ s.topK, first y ≤ first z := by
  obtain ⟨rest, hperm, hle⟩ := h.split
  refine ⟨rest, ?_, hle⟩
  rw [← countP_append, hperm.countP_eq, countP_map]
  rfl

theorem test_iff (h : Selected k toSort s) (hk : 0 < k) :
    s.topK.length < k ∨ s.minSoFar < kvp.2 ↔ toSort.countP (kvp.2 ≤ ·.2) < k := by
  have hlen := h.length
  rcases Nat.lt_or_ge s.topK.length k with hroom | hfull
  · have hcount : toSort.countP (kvp.2 ≤ ·.2) ≤ toSort.length := countP_le_length
    simp only [hroom, true_or, true_iff]
    omega
  · obtain ⟨p, hp, hmin, hall⟩ := h.exists_back hk hfull
    obtain ⟨rest, hcount, hle⟩ := h.countP_eq kvp.2
    simp only [hfull.not_gt, false_or, hcount]
    constructor
    · intro hlt
      have hrest : rest.countP (kvp.2 ≤ first ·) = 0 := by
        apply countP_eq_zero.mpr
        intro y hy
        simpa using (hle y hy p hp).trans_lt (hmin ▸ hlt)
      have htop : s.topK.countP (kvp.2 ≤ first ·) < s.topK.length := by
        apply countP_le_length.lt_of_ne
        intro heq
        have hp' : kvp.2 ≤ s.minSoFar := by simpa [hmin] using countP_eq_length.mp heq p hp
        exact hlt.not_ge hp'
      omega
    · intro hlt
      by_contra hge
      have htop : s.topK.countP (kvp.2 ≤ first ·) = s.topK.length := by
        apply countP_eq_length.mpr
        intro z hz
        simpa using (not_lt.mp hge).trans (hall z hz)
      omega

theorem reject (h : Selected k toSort s) (hlt : ¬ (s.topK.length < k ∨ s.minSoFar < kvp.2)) :
    Selected k (toSort ++ [kvp]) s := by
  push Not at hlt
  obtain ⟨hfull, hmin⟩ := hlt
  have hlen := h.length
  constructor
  · rw [contenders_concat, if_neg, h.best]
    rcases Nat.eq_zero_or_pos k with rfl | hk
    · exact Nat.not_lt_zero _
    · rw [← h.test_iff hk, not_or]
      exact ⟨hfull.not_gt, hmin.not_gt⟩
  · obtain ⟨rest, hperm, hle⟩ := h.split
    refine ⟨rest ++ [makePair kvp], ?_, ?_⟩
    · rw [← append_assoc, map_append]
      exact hperm.append_right _
    · intro y hy z hz
      rcases mem_append.mp hy with hy | hy
      · exact hle y hy z hz
      · cases mem_singleton.mp hy
        have hk : 0 < k := by
          have := length_pos_of_mem hz
          omega
        obtain ⟨-, -, -, hall⟩ := h.exists_back hk hfull
        exact hmin.trans (hall z hz)
  · rw [length_append]
    omega
  · exact h.back

theorem accept (h : Selected k toSort s) (hk : 0 < k)
    (hlt : s.topK.length < k ∨ s.minSoFar < kvp.2)
    (ht : t = greatest k (s.topK ++ [makePair kvp])) (hb : ∀ p, t.getLast? = some p → v = first p) :
    Selected k (toSort ++ [kvp]) ⟨t, v⟩ := by
  subst ht
  have hlen := h.length
  constructor
  · rw [contenders_concat, if_pos ((h.test_iff hk).mp hlt), map_append, h.best]
    exact greatest_concat
  · obtain ⟨rest, hperm, hle⟩ := h.split
    obtain ⟨out, hperm', hle'⟩ := greatest_perm_append k (s.topK ++ [makePair kvp])
    refine ⟨out ++ rest, ?_, ?_⟩
    · calc greatest k (s.topK ++ [makePair kvp]) ++ (out ++ rest)
          ~ (s.topK ++ [makePair kvp]) ++ rest := by
            rw [← append_assoc]
            exact hperm'.append_right rest
        _ ~ (s.topK ++ rest) ++ [makePair kvp] := by
            rw [append_assoc, append_assoc]
            exact perm_append_comm.append_left _
        _ ~ (toSort ++ [kvp]).map makePair := by
            rw [map_append]
            exact hperm.append_right _
    · intro y hy z hz
      rcases mem_append.mp hy with hy | hy
      · exact first_mono (hle' y hy z hz)
      rcases mem_append.mp (hperm'.subset (mem_append_left _ hz)) with hz | hz
      · exact hle y hy z hz
      -- something was left out before, so the new value passed the second half of the test
      cases mem_singleton.mp hz
      have hsize := hperm.length_eq
      have hpos := length_pos_of_mem hy
      rw [length_append, length_map] at hsize
      have hfull : k ≤ s.topK.length := by omega
      obtain ⟨p, hp, hmin, -⟩ := h.exists_back hk hfull
      have hnew := hlt.resolve_left hfull.not_gt
      exact (hle y hy p hp).trans (hmin.le.trans hnew.le)
  · rw [length_greatest, length_append, length_append]
    simp only [length_singleton]
    omega
  · exact hb

end Selected

theorem TopKLoop.step_of_test (hlt : s.topK.length < k ∨ s.minSoFar < kvp.2) :
    TopKLoop.step k s kvp =
      (greatest k (s.topK ++ [makePair kvp])).getLast?.map fun back =>
        ⟨greatest k (s.topK ++ [makePair kvp]), first back⟩ := by
  have hcut : (if k < ((s.topK ++ [makePair kvp]).insertionSort (· ≥ ·)).length then
      ((s.topK ++ [makePair kvp]).insertionSort (· ≥ ·)).take k else
      (s.topK ++ [makePair kvp]).insertionSort (· ≥ ·)) = greatest k (s.topK ++ [makePair kvp]) := by
    split_ifs with h
    · rfl
    · exact (take_of_length_le (not_lt.mp h)).symm
  rw [TopKLoop.step, if_pos hlt]
  simp only [hcut]
  rfl

theorem Selected.step (h : Selected k toSort s) (hs : TopKLoop.step k s kvp = some s') :
    Selected k (toSort ++ [kvp]) s' := by
  by_cases hlt : s.topK.length < k ∨ s.minSoFar < kvp.2
  · rw [TopKLoop.step_of_test hlt] at hs
    obtain ⟨back, hback, rfl⟩ := Option.map_eq_some_iff.mp hs
    have hk : 0 < k := by
      have hpos := length_pos_of_mem (mem_of_getLast? hback)
      rw [length_greatest] at hpos
      omega
    apply h.accept hk hlt rfl
    intro p hp
    cases hback.symm.trans hp
    rfl
  · rw [TopKLoop.step, if_neg hlt] at hs
    cases hs
    exact h.reject hlt

theorem Selected.run {done : List (K × V)} (h : Selected k done s)
    (hs : toSort.foldlM (TopKLoop.step k) s = some s') : Selected k (done ++ toSort) s' := by
  induction toSort generalizing done s with
  | nil =>
    cases hs
    rwa [append_nil]
  | cons kvp toSort ih =>
    rw [foldlM_cons] at hs
    obtain ⟨u, hu, hs⟩ := Option.bind_eq_some_iff.mp hs
    rw [append_cons]
    exact ih (h.step hu) hs

theorem TopKLoop.step_isSome (s : TopKLoop K V) (kvp : K × V) (hk : 0 < k) :
    ∃ u, TopKLoop.step k s kvp = some u := by
  by_cases hlt : s.topK.length < k ∨ s.minSoFar < kvp.2
  · rw [TopKLoop.step_of_test hlt]
    have hne : greatest k (s.topK ++ [makePair kvp]) ≠ [] := by
      apply ne_nil_of_length_pos
      rw [length_greatest, length_append, length_singleton]
      omega
    exact ⟨_, by rw [getLast?_eq_some_getLast hne]; rfl⟩
  · exact ⟨s, if_neg hlt⟩

theorem TopKLoop.run_isSome (toSort : List (K × V)) (s : TopKLoop K V) (hk : 0 < k) :
    ∃ u, toSort.foldlM (TopKLoop.step k) s = some u := by
  induction toSort generalizing s with
  | nil => exact ⟨s, rfl⟩
  | cons kvp toSort ih =>
    obtain ⟨u, hu⟩ := TopKLoop.step_isSome s kvp hk
    obtain ⟨v, hv⟩ := ih u
    refine ⟨v, ?_⟩
    rw [foldlM_cons, hu]
    exact hv

variable [Zero V]

theorem TopKLoop.run_zero : toSort.foldlM (TopKLoop.step 0) (⟨[], 0⟩ : TopKLoop K V) = none ↔
    ∃ kvp ∈ toSort, 0 < kvp.2 := by
  induction toSort with
  | nil => simp
  | cons kvp toSort ih =>
    rw [foldlM_cons]
    by_cases hlt : 0 < kvp.2
    · rw [TopKLoop.step_of_test (Or.inr hlt)]
      simp [greatest, hlt]
    · have hstep : TopKLoop.step 0 (⟨[], 0⟩ : TopKLoop K V) kvp = some ⟨[], 0⟩ :=
        if_neg (by simpa using hlt)
      rw [hstep]
      simpa [hlt] using ih

theorem topK_eq_none_iff : topK toSort k = none ↔ k = 0 ∧ ∃ kvp ∈ toSort, 0 < kvp.2 := by
  rw [topK, Option.map_eq_none_iff]
  rcases Nat.eq_zero_or_pos k with rfl | hk
  · rw [TopKLoop.run_zero]
    simp
  · obtain ⟨u, hu⟩ := TopKLoop.run_isSome toSort (⟨[], 0⟩ : TopKLoop K V) hk
    simp [hu, hk.ne']

theorem exists_selected (h : topK toSort k = some t) : ∃ v, Selected k toSort ⟨t, v⟩ := by
  obtain ⟨s, hs, rfl⟩ := Option.map_eq_some_iff.mp h
  exact ⟨s.minSoFar, Selected.nil.run hs⟩

theorem topK_values (toSort : List (K × V)) (k : ℕ) :
    (topK toSort k = none ↔ k = 0 ∧ ∃ kvp ∈ toSort, 0 < kvp.2) ∧
      ∀ t, topK toSort k = some t → t.Pairwise (· ≥ ·) ∧ t <+~ toSort.map makePair ∧
        t.map first = greatest k (toSort.map Prod.snd) := by
  refine ⟨topK_eq_none_iff, fun t ht => ?_⟩
  obtain ⟨v, h⟩ := exists_selected ht
  obtain ⟨rest, hperm, hle⟩ := h.split
  refine ⟨h.descending, ?_, ?_⟩
  · exact (sublist_append_left t rest).subperm.trans hperm.subperm
  · refine (greatest_unique (r := rest.map first) ?_ ?_ ?_ ?_).symm
    · exact h.descending.map first fun _ _ => first_mono
    · simpa using h.length
    · simpa [Function.comp_def, makePair, first] using hperm.map first
    · intro y hy z hz
      obtain ⟨p, hp, rfl⟩ := mem_map.mp hy
      obtain ⟨q, hq, rfl⟩ := mem_map.mp hz
      exact hle p hp q hq

/-- Which pairs, where values are equal: those with fewer than `k` before them of at least their
value, and of these the greatest. -/
theorem topK_contenders (h : topK toSort k = some t) :
    t = greatest k ((contenders k toSort).map makePair) := by
  obtain ⟨v, hsel⟩ := exists_selected h
  exact hsel.best

theorem topK_contenders_ties :
    topK [((1 : ℕ), (5 : ℤ)), (2, 5), (3, 5), (4, 7)] 2 = some [toLex (7, 4), toLex (5, 2)] ∧
      [toLex (7, 4), toLex (5, 2)] =
        greatest 2 ((contenders 2 [((1 : ℕ), (5 : ℤ)), (2, 5), (3, 5), (4, 7)]).map makePair) := by
  have h : topK [((1 : ℕ), (5 : ℤ)), (2, 5), (3, 5), (4, 7)] 2 =
      some [toLex (7, 4), toLex (5, 2)] := by decide
  exact ⟨h, topK_contenders h⟩

end

end PickleDevice
