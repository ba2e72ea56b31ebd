import PickleDevice.ArrayDescriptor
import Mathlib.Algebra.Ring.Nat
import Mathlib.Data.Nat.Basic
import Mathlib.Logic.Relation
import Mathlib.Order.Basic
import Mathlib.Tactic.SplitIfs

namespace PickleDevice

open StateEffect

namespace Store

inductive Step : Store → Store → Prop
  | newDescriptor (s : Store) : Step s s.alloc
  | getArrayId (s : Store) (p : Ptr) : Step s (s.withId p)
  | write (s : Store) (p : Ptr) (f : PickleArrayDescriptor → PickleArrayDescriptor)
      (hf : ∀ d, (f d).arrayId = d.arrayId) : Step s (s.modify p f)

abbrev Evolves : Store → Store → Prop := Relation.ReflTransGen Step

def Reachable (s : Store) : Prop := Evolves init s

theorem Reachable.evolves {s t : Store} (h : Reachable s) (he : Evolves s t) : Reachable t :=
  Relation.ReflTransGen.trans h he

structure IdsValid (s : Store) : Prop where
  pos : 0 < s.nextID
  bounded : ∀ p, (s.desc p).arrayId ≠ unassignedID → (s.desc p).arrayId.toNat < s.nextID
  distinct : s.nextID ≤ 2 ^ 64 → ∀ p q, (s.desc p).arrayId ≠ unassignedID →
    (s.desc p).arrayId = (s.desc q).arrayId → p = q

theorem idsValid_init : IdsValid init :=
  ⟨Nat.one_pos, fun _ h => absurd rfl h, fun _ _ _ h => absurd rfl h⟩

theorem idsValid_alloc {s : Store} (h : s.IdsValid) : s.alloc.IdsValid := by
  have hnew : ∀ p, (s.alloc.desc p).arrayId ≠ unassignedID → p ≠ s.next := by
    rintro p hp rfl
    apply hp
    simp [PickleArrayDescriptor.new]
  constructor
  · exact h.pos
  · intro p hp
    have he := alloc_desc_of_ne (hnew p hp)
    rw [he] at hp ⊢
    exact h.bounded p hp
  · intro hw p q hp he
    have hq : (s.alloc.desc q).arrayId ≠ unassignedID := he ▸ hp
    have hpe := alloc_desc_of_ne (hnew p hp)
    rw [hpe] at hp he
    rw [alloc_desc_of_ne (hnew q hq)] at he
    exact h.distinct hw p q hp he

theorem idsValid_withId {s : Store} (p : Ptr) (h : s.IdsValid) : (s.withId p).IdsValid := by
  by_cases hp : (s.desc p).arrayId = unassignedID
  · have hid : ((s.withId p).desc p).arrayId = UInt64.ofNat s.nextID := by
      rw [withId_arrayId, idOf, if_pos hp]
    have hn : (s.withId p).nextID = s.nextID + 1 := by simp [withId, hp]
    have hlt : (UInt64.ofNat s.nextID).toNat ≤ s.nextID := by
      rw [UInt64.toNat_ofNat']
      exact Nat.mod_le _ _
    -- The new id differs from every older one while the counter stays below `2 ^ 64`.
    have hfresh : s.nextID + 1 ≤ 2 ^ 64 → ∀ q, (s.desc q).arrayId ≠ unassignedID →
        (s.desc q).arrayId ≠ UInt64.ofNat s.nextID := by
      intro hw q hq he
      have hb := h.bounded q hq
      rw [he, UInt64.toNat_ofNat', Nat.mod_eq_of_lt (by omega)] at hb
      omega
    constructor
    · omega
    · intro q hq
      by_cases hqp : q = p
      · subst hqp
        rw [hid, hn]
        omega
      · rw [withId_desc_of_ne hqp] at hq ⊢
        have := h.bounded q hq
        omega
    · intro hw q r hq he
      rw [hn] at hw
      by_cases hqp : q = p <;> by_cases hrp : r = p
      · rw [hqp, hrp]
      · subst hqp
        rw [withId_desc_of_ne hrp] at he
        exact absurd (he.symm.trans hid) (hfresh hw r (he ▸ hq))
      · subst hrp
        rw [withId_desc_of_ne hqp] at hq he
        exact absurd (he.trans hid) (hfresh hw q hq)
      · rw [withId_desc_of_ne hqp] at hq he
        rw [withId_desc_of_ne hrp] at he
        exact h.distinct (by omega) q r hq he
  · rw [withId_of_assigned hp]
    exact h

theorem modify_arrayId {s : Store} {p : Ptr} {f : PickleArrayDescriptor → PickleArrayDescriptor}
    (hf : ∀ d, (f d).arrayId = d.arrayId) (q : Ptr) :
    ((s.modify p f).desc q).arrayId = (s.desc q).arrayId := by
  rw [modify_desc_apply]
  split
  · exact hf _
  · rfl

theorem Step.idsValid {s t : Store} (h : Step s t) (hs : s.IdsValid) : t.IdsValid := by
  cases h with
  | newDescriptor => exact idsValid_alloc hs
  | getArrayId p => exact idsValid_withId p hs
  | write p f hf =>
    constructor
    · exact hs.pos
    · simpa only [modify_arrayId hf, modify_nextID] using hs.bounded
    · simpa only [modify_arrayId hf, modify_nextID] using hs.distinct

theorem Evolves.idsValid {s t : Store} (h : Evolves s t) (hs : s.IdsValid) : t.IdsValid := by
  induction h with
  | refl => exact hs
  | tail _ step ih => exact step.idsValid ih

theorem Reachable.idsValid {s : Store} (h : Reachable s) : s.IdsValid :=
  Evolves.idsValid h idsValid_init

structure Keeps (s t : Store) : Prop where
  next_le : s.next ≤ t.next
  nextID_le : s.nextID ≤ t.nextID
  arrayId : ∀ p < s.next, (s.desc p).arrayId ≠ unassignedID →
    (t.desc p).arrayId = (s.desc p).arrayId

theorem Keeps.refl (s : Store) : s.Keeps s := ⟨le_rfl, le_rfl, fun _ _ _ => rfl⟩

theorem Keeps.trans {s t u : Store} (h : s.Keeps t) (h' : t.Keeps u) : s.Keeps u := by
  refine ⟨h.next_le.trans h'.next_le, h.nextID_le.trans h'.nextID_le, ?_⟩
  intro p hp hid
  have ht := h.arrayId p hp hid
  rw [h'.arrayId p (hp.trans_le h.next_le) (ht ▸ hid), ht]

theorem keeps_withId (s : Store) (p : Ptr) : s.Keeps (s.withId p) := by
  constructor
  · simp
  · unfold withId
    split
    · exact Nat.le_succ _
    · rfl
  · intro q _ hq
    by_cases h : q = p
    · subst h
      rw [withId_of_assigned hq]
    · rw [withId_desc_of_ne h]

theorem withId_nextID_le (s : Store) (p : Ptr) : (s.withId p).nextID ≤ s.nextID + 1 := by
  unfold withId
  split <;> simp

theorem Step.keeps {s t : Store} (h : Step s t) : s.Keeps t := by
  cases h with
  | newDescriptor =>
    refine ⟨Nat.le_succ _, le_rfl, ?_⟩
    intro p hp _
    rw [alloc_desc_of_ne (Nat.ne_of_lt hp)]
  | getArrayId p => exact keeps_withId s p
  | write p f hf => exact ⟨le_rfl, le_rfl, fun q _ _ => modify_arrayId hf q⟩

theorem Evolves.keeps {s t : Store} (h : Evolves s t) : s.Keeps t := by
  induction h with
  | refl => exact Keeps.refl _
  | tail _ step ih => exact ih.trans step.keeps

theorem allocDescribed_evolves (s : Store) (start stop size : UInt64) :
    Evolves s (s.allocDescribed start stop size) :=
  (Relation.ReflTransGen.single (.newDescriptor s)).tail (.write _ s.next _ fun _ => rfl)

theorem linked_evolves (s : Store) (p q : Ptr) : Evolves s (s.linked p q) :=
  (Relation.ReflTransGen.single (.getArrayId s q)).tail (.write _ p _ fun _ => rfl)

theorem idOf_ne_unassigned {s : Store} (p : Ptr) (hs : s.IdsValid)
    (hw : (s.withId p).nextID ≤ 2 ^ 64) : s.idOf p ≠ unassignedID := by
  unfold idOf
  split_ifs with h
  · have hn : s.nextID < 2 ^ 64 := by
      simp only [withId, h, ↓reduceIte] at hw
      omega
    intro he
    have := congrArg UInt64.toNat he
    rw [UInt64.toNat_ofNat', Nat.mod_eq_of_lt hn] at this
    have := hs.pos
    simp_all [unassignedID]
  · exact h

theorem arrayId_ne_noDestination {s : Store} (p : Ptr) (hs : s.IdsValid) (hw : s.nextID < 2 ^ 64) :
    (s.desc p).arrayId ≠ noDestination := by
  intro he
  have hb := hs.bounded p (by rw [he]; decide)
  rw [he] at hb
  have hd : noDestination.toNat = 2 ^ 64 - 1 := by decide
  omega

end Store

open Store

theorem follows_getArrayId (p : Ptr) : Follows Evolves (getArrayId p) := by
  intro s
  rw [run_getArrayId]
  exact .single (.getArrayId s p)

theorem follows_modify (p : Ptr) (f : PickleArrayDescriptor → PickleArrayDescriptor)
    (hf : ∀ d, (f d).arrayId = d.arrayId) :
    Follows Evolves (modify (·.modify p f) : Action PUnit) := fun s =>
  .single (.write s p f hf)

theorem follows_deref (p : Option Ptr) : Follows Evolves (deref p) := by
  cases p with
  | none => exact follows_throw (fun _ => .refl) _
  | some p => exact follows_pure (fun _ => .refl) p

theorem follows_link (p q : Ptr) : Follows Evolves (link p q) :=
  follows_bind Relation.ReflTransGen.trans (follows_getArrayId q) fun _ =>
    follows_modify p _ fun _ => rfl

theorem follows_indexedBy (p q : Option Ptr) : Follows Evolves (indexedBy p q) :=
  follows_bind Relation.ReflTransGen.trans (follows_deref p) fun _ =>
    follows_bind Relation.ReflTransGen.trans (follows_deref q) fun _ => follows_link _ _

end PickleDevice
