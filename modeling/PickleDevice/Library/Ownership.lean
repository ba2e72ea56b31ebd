import Mathlib.Data.List.Nodup
import Mathlib.Data.List.Perm.Subperm
import Mathlib.Logic.Function.Basic

/-!
Live objects under names, each holding some resources: when no resource has two
holders, how moves pass it on, and the ledger of what was given out and released.
-/

namespace Ownership

variable {α ρ : Type}

abbrev Objects (α : Type) := ℕ → Option α

def put (l : Objects α) (x : ℕ) (v : α) : Objects α := Function.update l x (some v)

def remove (l : Objects α) (x : ℕ) : Objects α := Function.update l x none

def Each (P : α → Prop) (l : Objects α) : Prop := ∀ x v, l x = some v → P v

def Exclusive (held : α → List ρ) (l : Objects α) : Prop :=
  ∀ x y v u, x ≠ y → l x = some v → l y = some u → (held v).Disjoint (held u)

def Held (held : α → List ρ) (l : Objects α) (a : ρ) : Prop := ∃ x v, l x = some v ∧ a ∈ held v

variable {l : Objects α} {x y : ℕ} {v u t : α} {P Q : α → Prop}

theorem put_self : put l x v x = some v := by simp [put]

theorem put_of_ne (h : y ≠ x) : put l x v y = l y := by simp [put, Function.update_of_ne h]

theorem remove_self : remove l x x = none := by simp [remove]

theorem remove_of_ne (h : y ≠ x) : remove l x y = l y := by simp [remove, Function.update_of_ne h]

theorem put_comm (h : x ≠ y) : put (put l x v) y u = put (put l y u) x v :=
  Function.update_comm h _ _ _

theorem put_remove : put (remove l x) x v = put l x v := by simp [put, remove]

theorem put_cases (h : put l x v y = some u) : y = x ∧ u = v ∨ y ≠ x ∧ l y = some u := by
  by_cases hy : y = x
  · subst hy
    rw [put_self] at h
    exact Or.inl ⟨rfl, (Option.some.inj h).symm⟩
  · rw [put_of_ne hy] at h
    exact Or.inr ⟨hy, h⟩

theorem remove_cases (h : remove l x y = some u) : y ≠ x ∧ l y = some u := by
  by_cases hy : y = x
  · subst hy
    rw [remove_self] at h
    cases h
  · rw [remove_of_ne hy] at h
    exact ⟨hy, h⟩

theorem Each.put (h : Each P l) (hv : P v) : Each P (put l x v) := by
  intro y u hy
  rcases put_cases hy with ⟨-, rfl⟩ | ⟨-, hy⟩
  · exact hv
  · exact h y u hy

theorem Each.remove (h : Each P l) : Each P (remove l x) := by
  intro y u hy
  exact h y u (remove_cases hy).2

theorem Each.imp (h : Each P l) (hpq : ∀ v, P v → Q v) : Each Q l := fun x v hx => hpq v (h x v hx)

variable {held : α → List ρ} {a : ρ}

theorem Exclusive.put (h : Exclusive held l)
    (hv : ∀ y u, y ≠ x → l y = some u → (held v).Disjoint (held u)) : Exclusive held (put l x v) := by
  intro y z u t hyz hy hz
  rcases put_cases hy with ⟨rfl, rfl⟩ | ⟨hyx, hy'⟩
  · rcases put_cases hz with ⟨rfl, -⟩ | ⟨hzx, hz⟩
    · exact absurd rfl hyz
    · exact hv z t hzx hz
  · rcases put_cases hz with ⟨rfl, rfl⟩ | ⟨-, hz⟩
    · exact List.disjoint_comm.mp (hv y u hyx hy')
    · exact h y z u t hyz hy' hz

theorem Exclusive.put_fresh (h : Exclusive held l) (hv : ∀ a ∈ held v, ¬ Held held l a) :
    Exclusive held (Ownership.put l x v) := by
  apply h.put
  intro y u _ hy a ha hu
  exact hv a ha ⟨y, u, hy, hu⟩

theorem Exclusive.replace (h : Exclusive held l) (hx : l x = some v) (hs : held u ⊆ held v) :
    Exclusive held (Ownership.put l x u) := by
  apply h.put
  intro y t hyx hy
  exact List.disjoint_of_subset_left hs (h x y v t hyx.symm hx hy)

theorem Exclusive.remove (h : Exclusive held l) : Exclusive held (remove l x) := by
  intro y z u t hyz hy hz
  exact h y z u t hyz (remove_cases hy).2 (remove_cases hz).2

theorem Exclusive.transfer (h : Exclusive held l) (hxy : x ≠ y) (hy : l y = some u)
    (hv : held v ⊆ held u) (ht : held t = []) :
    Exclusive held (Ownership.put (Ownership.put l x v) y t) := by
  rw [put_comm hxy]
  apply (h.replace hy (by simp [ht])).put
  intro z w hzx hz
  rcases put_cases hz with ⟨-, rfl⟩ | ⟨hzy, hz⟩
  · simp [ht]
  · exact List.disjoint_of_subset_left hv (h y z u w hzy.symm hy hz)

theorem Exclusive.disjoint_put_put (hxy : x ≠ y)
    (h : Exclusive held (Ownership.put (Ownership.put l x v) y u)) : (held v).Disjoint (held u) := by
  apply h x y v u hxy
  · rw [put_of_ne hxy, put_self]
  · exact put_self

theorem held_put (hx : l x = none) :
    Held held (put l x v) a ↔ Held held l a ∨ a ∈ held v := by
  constructor
  · rintro ⟨y, u, hy, ha⟩
    rcases put_cases hy with ⟨-, rfl⟩ | ⟨-, hy⟩
    · exact Or.inr ha
    · exact Or.inl ⟨y, u, hy, ha⟩
  · rintro (⟨y, u, hy, ha⟩ | ha)
    · refine ⟨y, u, ?_, ha⟩
      rw [put_of_ne, hy]
      rintro rfl
      rw [hx] at hy
      cases hy
    · exact ⟨x, v, put_self, ha⟩

theorem held_replace (hx : l x = some u) (hv : held v = held u) :
    Held held (put l x v) a ↔ Held held l a := by
  constructor
  · rintro ⟨y, w, hy, ha⟩
    rcases put_cases hy with ⟨-, rfl⟩ | ⟨-, hy⟩
    · exact ⟨x, u, hx, hv ▸ ha⟩
    · exact ⟨y, w, hy, ha⟩
  · rintro ⟨y, w, hy, ha⟩
    by_cases hyx : y = x
    · subst hyx
      cases hx.symm.trans hy
      exact ⟨y, v, put_self, hv ▸ ha⟩
    · exact ⟨y, w, by rw [put_of_ne hyx, hy], ha⟩

theorem held_remove (h : Exclusive held l) (hx : l x = some v) :
    Held held (remove l x) a ↔ Held held l a ∧ a ∉ held v := by
  constructor
  · rintro ⟨y, u, hy, ha⟩
    obtain ⟨hyx, hy⟩ := remove_cases hy
    exact ⟨⟨y, u, hy, ha⟩, fun hv => h y x u v hyx hy hx ha hv⟩
  · rintro ⟨⟨y, u, hy, ha⟩, hv⟩
    refine ⟨y, u, ?_, ha⟩
    rw [remove_of_ne, hy]
    rintro rfl
    cases hx.symm.trans hy
    exact hv ha

theorem held_transfer (hxy : x ≠ y) (hx : l x = none) (hy : l y = some u) (hv : held v = held u)
    (ht : held t = []) : Held held (put (put l x v) y t) a ↔ Held held l a := by
  constructor
  · rintro ⟨z, w, hz, ha⟩
    rcases put_cases hz with ⟨-, rfl⟩ | ⟨-, hz⟩
    · simp [ht] at ha
    · rcases put_cases hz with ⟨-, rfl⟩ | ⟨-, hz⟩
      · exact ⟨y, u, hy, hv ▸ ha⟩
      · exact ⟨z, w, hz, ha⟩
  · rintro ⟨z, w, hz, ha⟩
    by_cases hzy : z = y
    · subst hzy
      cases hy.symm.trans hz
      exact ⟨x, v, by rw [put_of_ne hxy, put_self], hv ▸ ha⟩
    · refine ⟨z, w, ?_, ha⟩
      rw [put_of_ne hzy, put_of_ne, hz]
      rintro rfl
      rw [hx] at hz
      cases hz

structure Ledger (ρ : Type) where
  live : List ρ
  given : List ρ
  released : List ρ

namespace Ledger

variable {k : Ledger ρ} {as : List ρ}

def empty : Ledger ρ := ⟨[], [], []⟩

def give (k : Ledger ρ) (as : List ρ) : Ledger ρ :=
  { k with live := k.live ++ as, given := k.given ++ as }

/-- Releasing what is not live only enters the log. -/
def release [DecidableEq ρ] (k : Ledger ρ) (as : List ρ) : Ledger ρ :=
  { k with live := k.live.diff as, released := k.released ++ as }

structure Balanced (k : Ledger ρ) : Prop where
  nodup : k.live.Nodup
  perm : k.given.Perm (k.released ++ k.live)

theorem balanced_empty : (empty : Ledger ρ).Balanced := ⟨List.nodup_nil, .refl _⟩

theorem Balanced.give (h : k.Balanced) (has : as.Nodup) (hd : as.Disjoint k.live) :
    (k.give as).Balanced := by
  constructor
  · exact h.nodup.append has (List.disjoint_comm.mp hd)
  · simp only [Ledger.give]
    rw [← List.append_assoc]
    exact h.perm.append_right as

theorem Balanced.release [DecidableEq ρ] (h : k.Balanced) (has : as.Nodup) (hs : as ⊆ k.live) :
    (k.release as).Balanced := by
  constructor
  · exact h.nodup.diff
  · have hperm : (as ++ k.live.diff as).Perm k.live :=
      List.subperm_append_diff_self_of_count_le
        (List.subperm_ext_iff.mp (List.subperm_of_subset has hs))
    simp only [Ledger.release]
    rw [List.append_assoc]
    exact h.perm.trans (hperm.symm.append_left _)

theorem mem_give {a : ρ} : a ∈ (k.give as).live ↔ a ∈ k.live ∨ a ∈ as := List.mem_append

theorem mem_release [DecidableEq ρ] {a : ρ} (h : k.Balanced) :
    a ∈ (k.release as).live ↔ a ∈ k.live ∧ a ∉ as := h.nodup.mem_sdiff_iff

end Ledger

end Ownership
