import Mathlib.Data.List.Nodup
import Mathlib.Logic.Function.Basic

/-!
Renaming keys by the position at which a list last mentions them: what a map
holds after the keys have been inserted in order with a running counter.
-/

namespace Renaming

variable {κ ν : Type} [DecidableEq κ]

def lastPosition (l : List κ) (k : κ) : Option ℕ :=
  match l with
  | [] => none
  | a :: l =>
    match lastPosition l k with
    | some i => some (i + 1)
    | none => if a = k then some 0 else none

theorem lastPosition_none {l : List κ} {k : κ} : lastPosition l k = none ↔ k ∉ l := by
  induction l with
  | nil => simp [lastPosition]
  | cons a l ih =>
    cases h : lastPosition l k with
    | none =>
      have hk : k ∉ l := ih.mp h
      by_cases ha : a = k <;> simp [lastPosition, h, ha, hk, eq_comm (a := k)]
    | some i =>
      have hk : k ∈ l := by
        by_contra hc
        simp [ih.mpr hc] at h
      simp [lastPosition, h, hk]

theorem lastPosition_getElem {l : List κ} {k : κ} {i : ℕ} (h : lastPosition l k = some i) :
    l[i]? = some k := by
  induction l generalizing i with
  | nil => simp [lastPosition] at h
  | cons a l ih =>
    cases hl : lastPosition l k with
    | none =>
      by_cases ha : a = k
      · simp only [lastPosition, hl, ha, ↓reduceIte, Option.some.injEq] at h
        simp [← h, ha]
      · simp [lastPosition, hl, ha] at h
    | some j =>
      simp only [lastPosition, hl, Option.some.injEq] at h
      simpa [← h] using ih hl

theorem lastPosition_lt {l : List κ} {k : κ} {i : ℕ} (h : lastPosition l k = some i) :
    i < l.length :=
  (List.getElem?_eq_some_iff.mp (lastPosition_getElem h)).1

theorem lastPosition_append (l : List κ) (a k : κ) :
    lastPosition (l ++ [a]) k = if a = k then some l.length else lastPosition l k := by
  induction l with
  | nil => simp [lastPosition]
  | cons b l ih =>
    simp only [List.cons_append, lastPosition, ih, List.length_cons]
    by_cases h : a = k <;> simp [h]

theorem lastPosition_map_of {μ : Type} [DecidableEq μ] {f : κ → μ} {l : List κ} {k : κ}
    (hf : ∀ a ∈ l, f a = f k → a = k) : lastPosition (l.map f) (f k) = lastPosition l k := by
  induction l with
  | nil => rfl
  | cons a l ih =>
    have ha : f a = f k ↔ a = k := ⟨hf a List.mem_cons_self, congrArg f⟩
    simp only [List.map_cons, lastPosition, ih fun b hb => hf b (List.mem_cons_of_mem a hb), ha]

theorem lastPosition_map {μ : Type} [DecidableEq μ] {f : κ → μ} (hf : Function.Injective f)
    (l : List κ) (k : κ) : lastPosition (l.map f) (f k) = lastPosition l k :=
  lastPosition_map_of fun _ _ h => hf h

theorem lastPosition_nodup {l : List κ} (h : l.Nodup) {i : ℕ} (hi : i < l.length) :
    lastPosition l l[i] = some i := by
  obtain ⟨j, hj⟩ : ∃ j, lastPosition l l[i] = some j := by
    rw [← Option.isSome_iff_exists, Option.isSome_iff_ne_none, ne_eq, lastPosition_none, not_not]
    exact List.getElem_mem hi
  obtain ⟨hjl, he⟩ := List.getElem?_eq_some_iff.mp (lastPosition_getElem hj)
  rw [hj, (List.Nodup.getElem_inj_iff h).mp he]

theorem nodup_iff_lastPosition {l : List κ} :
    l.Nodup ↔ ∀ i (hi : i < l.length), lastPosition l l[i] = some i := by
  constructor
  · intro h i hi
    exact lastPosition_nodup h hi
  · intro h
    rw [List.nodup_iff_injective_get]
    intro i j hij
    have hi := h i i.isLt
    have hj := h j j.isLt
    simp only [List.get_eq_getElem] at hij
    rw [hij, hj, Option.some.injEq] at hi
    exact Fin.ext hi.symm

/-- A base map after the keys of `l` were inserted in order, key number `i` with value `value i`. -/
def insertAll (base : κ → Option ν) (value : ℕ → ν) (l : List κ) (k : κ) : Option ν :=
  match lastPosition l k with
  | some i => some (value i)
  | none => base k

theorem insertAll_append (base : κ → Option ν) (value : ℕ → ν) (l : List κ) (a : κ) :
    insertAll base value (l ++ [a]) =
      Function.update (insertAll base value l) a (some (value l.length)) := by
  funext k
  by_cases h : a = k
  · subst h
    simp [insertAll, lastPosition_append]
  · simp [insertAll, lastPosition_append, h, Function.update_of_ne (Ne.symm h)]

theorem insertAll_mem {base : κ → Option ν} {value : ℕ → ν} {l : List κ} {k : κ} (hk : k ∈ l) :
    ∃ i, lastPosition l k = some i ∧ insertAll base value l k = some (value i) := by
  cases h : lastPosition l k with
  | none => exact absurd hk (lastPosition_none.mp h)
  | some i => exact ⟨i, rfl, by simp [insertAll, h]⟩

theorem insertAll_not_mem {base : κ → Option ν} {value : ℕ → ν} {l : List κ} {k : κ}
    (hk : k ∉ l) : insertAll base value l k = base k := by
  simp [insertAll, lastPosition_none.mpr hk]

theorem insertAll_map {μ : Type} [DecidableEq μ] {f : κ → μ} (hf : Function.Injective f)
    {base : κ → Option ν} {base' : μ → Option ν} (hbase : ∀ k, base' (f k) = base k)
    (value : ℕ → ν) (l : List κ) (k : κ) :
    insertAll base' value (l.map f) (f k) = insertAll base value l k := by
  simp only [insertAll, lastPosition_map hf, hbase]

end Renaming
