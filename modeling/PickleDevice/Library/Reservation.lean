import Mathlib.Order.Basic
import Mathlib.Order.Nat
import PickleDevice.Library.Ownership

/-!
Cells filled by several writers, each in a range it reserved at the end of all
that was reserved before: which cells are settled, and what every step settles.
-/

namespace Reservation

open Ownership

variable {α : Type}

/-- One that reserved a cell for each of its values and filled the first `written` of them. -/
structure Writer (α : Type) where
  start : ℕ
  values : List α
  written : ℕ

namespace Writer

variable (w : Writer α)

def target : ℕ := w.start + w.written

def Owes (i : ℕ) : Prop := w.target ≤ i ∧ i < w.start + w.values.length

def advance : Writer α := { w with written := w.written + 1 }

end Writer

structure Board (α : Type) where
  content : List α
  writers : Objects (Writer α)

namespace Board

variable (B : Board α)

def append (x : α) : Board α := { B with content := B.content ++ [x] }

def reserve (b : ℕ) (vs : List α) : Board α :=
  ⟨B.content ++ vs, put B.writers b ⟨B.content.length, vs, 0⟩⟩

def advance (b : ℕ) (w : Writer α) : Board α := { B with writers := put B.writers b w.advance }

def retire (b : ℕ) : Board α := { B with writers := remove B.writers b }

def Settled (i : ℕ) : Prop := i < B.content.length ∧ ∀ b w, B.writers b = some w → ¬ w.Owes i

structure Valid : Prop where
  within : ∀ b w, B.writers b = some w → w.start + w.values.length ≤ B.content.length
  agrees : ∀ b w, B.writers b = some w →
    ∀ i v, w.values[i]? = some v → B.content[w.start + i]? = some v
  apart : ∀ b c w u i, b ≠ c → B.writers b = some w → B.writers c = some u → w.Owes i → ¬ u.Owes i

variable {B} {b c i : ℕ} {w u : Writer α} {x : α} {vs : List α}

theorem Valid.owes_lt (h : B.Valid) (hw : B.writers b = some w) (hi : w.Owes i) :
    i < B.content.length := lt_of_lt_of_le hi.2 (h.within b w hw)

theorem Valid.empty : (⟨[], fun _ => none⟩ : Board α).Valid := by
  constructor
  · intro b w hw
    cases hw
  · intro b w hw
    cases hw
  · intro b c w u i _ hw
    cases hw

theorem Valid.append (h : B.Valid) : (B.append x).Valid := by
  constructor
  · intro b w hw
    have hle := h.within b w hw
    simp only [Board.append, List.length_append]
    omega
  · intro b w hw i v hi
    have hv := h.agrees b w hw i v hi
    have hlt := (List.getElem?_eq_some_iff.mp hv).1
    simp only [Board.append]
    rw [List.getElem?_append_left hlt]
    exact hv
  · exact h.apart

theorem Valid.reserve (h : B.Valid) : (B.reserve b vs).Valid := by
  -- the writers that were there owe cells below the length the new range starts from
  have hold : ∀ c w i, B.writers c = some w → w.Owes i → i < B.content.length :=
    fun c w i hw hi => h.owes_lt hw hi
  constructor
  · intro c w hw
    simp only [Board.reserve, List.length_append]
    rcases put_cases hw with ⟨-, rfl⟩ | ⟨-, hw⟩
    · exact Nat.le_refl _
    · have := h.within c w hw
      omega
  · intro c w hw i v hi
    simp only [Board.reserve]
    rcases put_cases hw with ⟨-, rfl⟩ | ⟨-, hw⟩
    · rw [List.getElem?_append_right (by simp)]
      simpa using hi
    · have hv := h.agrees c w hw i v hi
      have hlt := (List.getElem?_eq_some_iff.mp hv).1
      rw [List.getElem?_append_left hlt]
      exact hv
  · intro c d w u i hcd hw hu hwi hui
    rcases put_cases hw with ⟨rfl, rfl⟩ | ⟨-, hw'⟩
    · rcases put_cases hu with ⟨rfl, -⟩ | ⟨-, hu'⟩
      · exact hcd rfl
      · have hlt := hold d u i hu' hui
        have hge := hwi.1
        simp only [Writer.target] at hge
        omega
    · rcases put_cases hu with ⟨rfl, rfl⟩ | ⟨-, hu'⟩
      · have hlt := hold c w i hw' hwi
        have hge := hui.1
        simp only [Writer.target] at hge
        omega
      · exact h.apart c d w u i hcd hw' hu' hwi hui

theorem owes_of_advance (h : w.advance.Owes i) : w.Owes i := by
  obtain ⟨hge, hlt⟩ := h
  simp only [Writer.advance, Writer.target] at hge hlt
  constructor
  · simp only [Writer.target]
    omega
  · exact hlt

theorem Valid.advance (h : B.Valid) (hw : B.writers b = some w) : (B.advance b w).Valid := by
  constructor
  · intro c u hu
    rcases put_cases hu with ⟨-, rfl⟩ | ⟨-, hu⟩
    · exact h.within b w hw
    · exact h.within c u hu
  · intro c u hu
    rcases put_cases hu with ⟨-, rfl⟩ | ⟨-, hu⟩
    · exact h.agrees b w hw
    · exact h.agrees c u hu
  · intro c d u t i hcd hu ht hui hti
    rcases put_cases hu with ⟨rfl, rfl⟩ | ⟨-, hu'⟩
    · rcases put_cases ht with ⟨rfl, -⟩ | ⟨-, ht'⟩
      · exact hcd rfl
      · exact h.apart c d w t i hcd hw ht' (owes_of_advance hui) hti
    · rcases put_cases ht with ⟨rfl, rfl⟩ | ⟨-, ht'⟩
      · exact h.apart c d u w i hcd hu' hw hui (owes_of_advance hti)
      · exact h.apart c d u t i hcd hu' ht' hui hti

theorem Valid.retire (h : B.Valid) : (B.retire b).Valid := by
  constructor
  · intro c w hw
    exact h.within c w (remove_cases hw).2
  · intro c w hw
    exact h.agrees c w (remove_cases hw).2
  · intro c d w u i hcd hw hu
    exact h.apart c d w u i hcd (remove_cases hw).2 (remove_cases hu).2

theorem settled_append (h : B.Valid) :
    (B.append x).Settled i ↔ B.Settled i ∨ i = B.content.length := by
  simp only [Settled, append, List.length_append, List.length_singleton]
  constructor
  · rintro ⟨hi, hno⟩
    by_cases hlt : i < B.content.length
    · exact Or.inl ⟨hlt, hno⟩
    · exact Or.inr (by omega)
  · rintro (⟨hi, hno⟩ | rfl)
    · exact ⟨by omega, hno⟩
    · refine ⟨by omega, fun b w hw ho => ?_⟩
      exact absurd (h.owes_lt hw ho) (Nat.lt_irrefl _)

theorem settled_reserve (hb : B.writers b = none) :
    (B.reserve b vs).Settled i ↔ B.Settled i := by
  simp only [Settled, reserve, List.length_append]
  constructor
  · rintro ⟨hi, hno⟩
    have hlt : i < B.content.length := by
      by_contra hge
      apply hno b _ put_self
      exact ⟨by simp only [Writer.target]; omega, hi⟩
    refine ⟨hlt, fun c w hw => hno c w ?_⟩
    have hcb : c ≠ b := by
      rintro rfl
      rw [hb] at hw
      cases hw
    exact (put_of_ne hcb).trans hw
  · rintro ⟨hi, hno⟩
    refine ⟨by omega, fun c w hw ho => ?_⟩
    rcases put_cases hw with ⟨-, rfl⟩ | ⟨-, hw⟩
    · have hge := ho.1
      simp only [Writer.target] at hge
      omega
    · exact hno c w hw ho

theorem settled_advance (h : B.Valid) (hw : B.writers b = some w)
    (hlt : w.written < w.values.length) :
    (B.advance b w).Settled i ↔ B.Settled i ∨ i = w.target := by
  have htarget : w.Owes w.target := ⟨Nat.le_refl _, by simp only [Writer.target]; omega⟩
  constructor
  · rintro ⟨hi, hno⟩
    by_cases hit : i = w.target
    · exact Or.inr hit
    · refine Or.inl ⟨hi, fun c u hu ho => ?_⟩
      by_cases hcb : c = b
      · subst hcb
        cases hw.symm.trans hu
        apply hno c _ put_self
        obtain ⟨hge, hlt⟩ := ho
        simp only [Writer.target] at hge hit
        exact ⟨by simp only [Writer.target, Writer.advance]; omega, hlt⟩
      · exact hno c u ((put_of_ne hcb).trans hu) ho
  · rintro (⟨hi, hno⟩ | rfl)
    · refine ⟨hi, fun c u hu ho => ?_⟩
      rcases put_cases hu with ⟨-, rfl⟩ | ⟨-, hu⟩
      · exact hno b w hw (owes_of_advance ho)
      · exact hno c u hu ho
    · refine ⟨h.owes_lt hw htarget, fun c u hu ho => ?_⟩
      rcases put_cases hu with ⟨-, rfl⟩ | ⟨hcb, hu⟩
      · have hge := ho.1
        simp only [Writer.target, Writer.advance] at hge
        omega
      · exact h.apart c b u w _ hcb hu hw ho htarget

theorem settled_retire (hw : B.writers b = some w) (hd : w.values.length ≤ w.written) :
    (B.retire b).Settled i ↔ B.Settled i := by
  constructor
  · rintro ⟨hi, hno⟩
    refine ⟨hi, fun c u hu ho => ?_⟩
    by_cases hcb : c = b
    · subst hcb
      cases hw.symm.trans hu
      obtain ⟨hge, hlt⟩ := ho
      simp only [Writer.target] at hge
      omega
    · exact hno c u ((remove_of_ne hcb).trans hu) ho
  · rintro ⟨hi, hno⟩
    exact ⟨hi, fun c u hu => hno c u (remove_cases hu).2⟩

theorem settled_of_quiet (hq : ∀ b, B.writers b = none) : B.Settled i ↔ i < B.content.length := by
  refine ⟨fun h => h.1, fun h => ⟨h, fun b w hw => ?_⟩⟩
  rw [hq b] at hw
  cases hw

def Shows (B : Board α) (cells : ℕ → Option α) : Prop := ∀ i, B.Settled i → cells i = B.content[i]?

theorem Shows.append {cells : ℕ → Option α} (h : B.Shows cells) (hv : B.Valid) :
    (B.append x).Shows (Function.update cells B.content.length (some x)) := by
  intro i hi
  simp only [Board.append]
  rcases (settled_append hv).mp hi with hs | rfl
  · have hlt := hs.1
    rw [Function.update_of_ne (by omega), List.getElem?_append_left hlt, h i hs]
  · simp

theorem Shows.reserve {cells : ℕ → Option α} (h : B.Shows cells) (hb : B.writers b = none) :
    (B.reserve b vs).Shows cells := by
  intro i hi
  have hs := (settled_reserve hb).mp hi
  simp only [Board.reserve]
  rw [List.getElem?_append_left hs.1]
  exact h i hs

theorem Shows.advance {cells : ℕ → Option α} {v : α} (h : B.Shows cells) (hv : B.Valid)
    (hw : B.writers b = some w) (hx : w.values[w.written]? = some v) :
    (B.advance b w).Shows (Function.update cells w.target (some v)) := by
  intro i hi
  have hlt := (List.getElem?_eq_some_iff.mp hx).1
  simp only [Board.advance]
  by_cases hit : i = w.target
  · subst hit
    rw [Function.update_self]
    exact (hv.agrees b w hw _ _ hx).symm
  · rw [Function.update_of_ne hit]
    rcases (settled_advance hv hw hlt).mp hi with hs | ht
    · exact h i hs
    · exact absurd ht hit

theorem Shows.retire {cells : ℕ → Option α} (h : B.Shows cells) (hw : B.writers b = some w)
    (hd : w.values.length ≤ w.written) : (B.retire b).Shows cells := by
  intro i hi
  exact h i ((settled_retire hw hd).mp hi)

end Board

end Reservation
