import Mathlib.Algebra.Ring.Int.Defs
import Mathlib.Data.Int.Order.Basic
import PickleDevice.Library.Ownership

/-!
A heap of arrays: allocation of a block apart from the live ones, access to its
cells, loops that copy and fill, and its release. An access outside the live
blocks, or a release of what is not one, has no result.
-/

namespace Blocks

open Ownership

structure Block where
  base : ℤ
  count : ℕ
  deriving DecidableEq

def cell (stride : ℕ) (p : ℤ) (i : ℕ) : ℤ := p + i * stride

def Block.Covers (stride : ℕ) (b : Block) (p : ℤ) : Prop := ∃ i, i < b.count ∧ p = cell stride b.base i

instance (stride : ℕ) (b : Block) (p : ℤ) : Decidable (b.Covers stride p) :=
  decidable_of_iff (∃ i ∈ List.range b.count, p = cell stride b.base i) (by
    simp [Block.Covers])

def Apart (stride : ℕ) (b c : Block) : Prop :=
  b.base ≠ c.base ∧ (cell stride b.base b.count ≤ c.base ∨ cell stride c.base c.count ≤ b.base)

instance (stride : ℕ) (b c : Block) : Decidable (Apart stride b c) :=
  inferInstanceAs (Decidable (_ ∧ _))

variable {stride : ℕ} {b c : Block} {p : ℤ} {i j n : ℕ}

theorem cell_inj (hs : 0 < stride) (he : cell stride p i = cell stride p j) : i = j := by
  have hs' : (stride : ℤ) ≠ 0 := by omega
  have hmul : (i : ℤ) * stride = j * stride := by
    simp only [cell] at he
    omega
  exact Int.natCast_inj.mp (Int.eq_of_mul_eq_mul_right hs' hmul)

theorem cell_lt_stop (hs : 0 < stride) (hi : i < n) : cell stride p i < cell stride p n := by
  have hmul : (i : ℤ) * stride < n * stride :=
    Int.mul_lt_mul_of_pos_right (by omega) (by omega)
  simp only [cell]
  omega

theorem le_cell : p ≤ cell stride p i := by
  have hmul : (0 : ℤ) ≤ i * stride := Int.mul_nonneg (by omega) (by omega)
  simp only [cell]
  omega

theorem Apart.symm (ha : Apart stride b c) : Apart stride c b := ⟨ha.1.symm, ha.2.symm⟩

theorem Apart.cell_ne (hs : 0 < stride) (ha : Apart stride b c) (hi : i < b.count)
    (hj : j < c.count) : cell stride b.base i ≠ cell stride c.base j := by
  have hbi := cell_lt_stop (p := b.base) hs hi
  have hcj := cell_lt_stop (p := c.base) hs hj
  have hb : b.base ≤ cell stride b.base i := le_cell
  have hc : c.base ≤ cell stride c.base j := le_cell
  rcases ha.2 with hle | hle <;> omega

/-- A cell that was never written has no value. -/
structure Heap (α : Type) where
  cells : ℤ → Option α
  ledger : Ledger Block

namespace Heap

variable {α : Type} (stride : ℕ) (h : Heap α)

def empty : Heap α := ⟨fun _ => none, .empty⟩

def Fresh (b : Block) : Prop := ∀ c ∈ h.ledger.live, Apart stride c b

instance (b : Block) : Decidable (h.Fresh stride b) :=
  inferInstanceAs (Decidable (∀ c ∈ _, _))

def alloc (b : Block) : Heap α :=
  ⟨fun p => if b.Covers stride p then none else h.cells p, h.ledger.give [b]⟩

/-- Releasing null does nothing. -/
def free (p : ℤ) : Option (Heap α) :=
  if p = 0 then some h
  else
    match h.ledger.live.find? fun b => b.base = p with
    | some b => some { h with ledger := h.ledger.release [b] }
    | none => none

def Valid (p : ℤ) : Prop := ∃ b ∈ h.ledger.live, b.Covers stride p

instance (p : ℤ) : Decidable (h.Valid stride p) := inferInstanceAs (Decidable (∃ b ∈ _, _))

def load (p : ℤ) : Option (Option α) := if h.Valid stride p then some (h.cells p) else none

def store (p : ℤ) (v : Option α) : Option (Heap α) :=
  if h.Valid stride p then some { h with cells := Function.update h.cells p v } else none

def copy (dst src : ℤ) (n : ℕ) : Option (Heap α) :=
  (List.range n).foldlM (fun h i => do
    let v ← h.load stride (cell stride src i)
    h.store stride (cell stride dst i) v) h

def fill (dst : ℤ) (n : ℕ) (v : α) : Option (Heap α) :=
  (List.range n).foldlM (fun h i => h.store stride (cell stride dst i) (some v)) h

structure Sound : Prop where
  balanced : h.ledger.Balanced
  apart : ∀ b ∈ h.ledger.live, ∀ c ∈ h.ledger.live, b ≠ c → Apart stride b c

variable {stride h} {h' : Heap α} {b c d : Block} {p : ℤ} {i j n : ℕ} {v : α} {o : Option α}

theorem Sound.empty : (Heap.empty : Heap α).Sound stride := by
  constructor
  · exact Ledger.balanced_empty
  · intro b hb
    cases hb

theorem Sound.alloc (hh : h.Sound stride) (hf : h.Fresh stride b) : (h.alloc stride b).Sound stride := by
  have hnot : b ∉ h.ledger.live := fun hb => (hf b hb).1 rfl
  constructor
  · exact hh.balanced.give (by simp) (by simpa using hnot)
  · intro c hc d hd hcd
    simp only [Heap.alloc, Ledger.mem_give, List.mem_singleton] at hc hd
    rcases hc with hc | rfl
    · rcases hd with hd | rfl
      · exact hh.apart c hc d hd hcd
      · exact hf c hc
    · rcases hd with hd | rfl
      · exact (hf d hd).symm
      · exact absurd rfl hcd

theorem free_eq_some (hh : h.Sound stride) (hb : b ∈ h.ledger.live) (h0 : b.base ≠ 0) :
    h.free b.base = some { h with ledger := h.ledger.release [b] } := by
  have hfind : (h.ledger.live.find? fun c => c.base = b.base) = some b := by
    cases hc : h.ledger.live.find? fun c => c.base = b.base with
    | none =>
      have := List.find?_eq_none.mp hc b hb
      simp at this
    | some c =>
      have hbase : c.base = b.base := by simpa using List.find?_some hc
      by_cases hcb : c = b
      · rw [hcb]
      · exact absurd hbase (hh.apart c (List.mem_of_find?_eq_some hc) b hb hcb).1
  rw [free, if_neg h0, hfind]

theorem free_cells (hf : h.free p = some h') : h'.cells = h.cells := by
  unfold free at hf
  split at hf
  · cases hf
    rfl
  · split at hf <;> cases hf
    rfl

theorem Sound.release (hh : h.Sound stride) (hb : b ∈ h.ledger.live) :
    ({ h with ledger := h.ledger.release [b] } : Heap α).Sound stride := by
  constructor
  · exact hh.balanced.release (by simp) (by simpa using hb)
  · intro c hc d hd
    exact hh.apart c ((Ledger.mem_release hh.balanced).mp hc).1 d
      ((Ledger.mem_release hh.balanced).mp hd).1

theorem valid_cell (hb : b ∈ h.ledger.live) (hi : i < b.count) :
    h.Valid stride (cell stride b.base i) := ⟨b, hb, i, hi, rfl⟩

structure Changes (stride : ℕ) (d : Block) (h h' : Heap α) : Prop where
  ledger : h'.ledger = h.ledger
  cells : ∀ p, ¬ d.Covers stride p → h'.cells p = h.cells p

theorem Changes.refl : Changes stride d h h := ⟨rfl, fun _ _ => rfl⟩

theorem Changes.trans {h'' : Heap α} (hc : Changes stride d h h') (hc' : Changes stride d h' h'') :
    Changes stride d h h'' :=
  ⟨hc'.ledger.trans hc.ledger, fun p hp => (hc'.cells p hp).trans (hc.cells p hp)⟩

theorem Changes.sound (hc : Changes stride d h h') (hh : h.Sound stride) : h'.Sound stride := by
  constructor
  · exact hc.ledger ▸ hh.balanced
  · intro b hb c hb'
    exact hh.apart b (hc.ledger ▸ hb) c (hc.ledger ▸ hb')

theorem Changes.other (hs : 0 < stride) (hc : Changes stride d h h') (ha : Apart stride b d)
    (hi : i < b.count) : h'.cells (cell stride b.base i) = h.cells (cell stride b.base i) := by
  apply hc.cells
  rintro ⟨j, hj, he⟩
  exact ha.cell_ne hs hi hj he

theorem store_spec (hb : b ∈ h.ledger.live) (hi : i < b.count) :
    ∃ h', h.store stride (cell stride b.base i) o = some h' ∧ Changes stride b h h' ∧
      h'.cells = Function.update h.cells (cell stride b.base i) o := by
  refine ⟨_, if_pos (valid_cell hb hi), ⟨rfl, fun p hp => ?_⟩, rfl⟩
  apply Function.update_of_ne
  rintro rfl
  exact hp ⟨i, hi, rfl⟩

theorem loop_spec {f : Heap α → ℕ → Option (Heap α)} {g : ℕ → Option α} (hs : 0 < stride)
    (hb : b ∈ h.ledger.live) (hn : n ≤ b.count)
    (hf : ∀ k i, Changes stride b h k → i < n →
      f k i = k.store stride (cell stride b.base i) (g i)) :
    ∃ h', (List.range n).foldlM f h = some h' ∧ Changes stride b h h' ∧
      ∀ i < b.count, h'.cells (cell stride b.base i) =
        if i < n then g i else h.cells (cell stride b.base i) := by
  induction n with
  | zero => exact ⟨h, rfl, .refl, by simp⟩
  | succ n ih =>
    obtain ⟨k, hk, hchg, hcells⟩ := ih (by omega) fun k i hk hi => hf k i hk (by omega)
    have hbk : b ∈ k.ledger.live := hchg.ledger ▸ hb
    obtain ⟨h', hstore, hchg', hcells'⟩ := store_spec (o := g n) hbk (show n < b.count by omega)
    refine ⟨h', ?_, hchg.trans hchg', fun i hi => ?_⟩
    · rw [List.range_succ, List.foldlM_append, hk]
      simp [hf k n hchg (Nat.lt_succ_self n), hstore]
    · rw [hcells']
      by_cases hin : i = n
      · subst hin
        simp
      · rw [Function.update_of_ne fun he => hin (cell_inj hs he), hcells i hi]
        have hiff : i < n ↔ i < n + 1 := by omega
        simp only [hiff]

theorem fill_spec (hs : 0 < stride) (hb : b ∈ h.ledger.live) (hn : n ≤ b.count) :
    ∃ h', h.fill stride b.base n v = some h' ∧ Changes stride b h h' ∧
      ∀ i < b.count, h'.cells (cell stride b.base i) =
        if i < n then some v else h.cells (cell stride b.base i) :=
  loop_spec hs hb hn fun _ _ _ _ => rfl

theorem copy_spec (hs : 0 < stride) (hb : b ∈ h.ledger.live) (hn : n ≤ b.count)
    (hc : c ∈ h.ledger.live) (hbc : Apart stride b c) (hj : j + n ≤ c.count) :
    ∃ h', h.copy stride b.base (cell stride c.base j) n = some h' ∧ Changes stride b h h' ∧
      ∀ i < b.count, h'.cells (cell stride b.base i) =
        if i < n then h.cells (cell stride c.base (j + i)) else h.cells (cell stride b.base i) := by
  apply loop_spec (g := fun i => h.cells (cell stride c.base (j + i))) hs hb hn
  intro k i hchg hi
  have hcell : cell stride (cell stride c.base j) i = cell stride c.base (j + i) := by
    simp only [cell]
    rw [Int.natCast_add, Int.add_mul, Int.add_assoc]
  have hck : c ∈ k.ledger.live := hchg.ledger ▸ hc
  rw [hcell, load, if_pos (valid_cell hck (by omega)), hchg.other hs hbc.symm (by omega)]
  rfl

theorem alloc_cells_new (hi : i < b.count) :
    (h.alloc stride b).cells (cell stride b.base i) = none := if_pos ⟨i, hi, rfl⟩

theorem alloc_cells_old (hs : 0 < stride) (ha : Apart stride c b) (hi : i < c.count) :
    (h.alloc stride b).cells (cell stride c.base i) = h.cells (cell stride c.base i) := by
  apply if_neg
  rintro ⟨j, hj, he⟩
  exact ha.cell_ne hs hi hj he

/-- `h'` has the blocks `C` in place of the blocks `B` of `h`, and leaves the other blocks alone. -/
structure Replaced (stride : ℕ) (B C : List Block) (h h' : Heap α) : Prop where
  sound : h'.Sound stride
  keep : ∀ b ∈ h.ledger.live, b ∉ B → ∀ i < b.count,
    h'.cells (cell stride b.base i) = h.cells (cell stride b.base i)
  live : ∀ b, b ∈ h'.ledger.live ↔ b ∈ h.ledger.live ∧ b ∉ B ∨ b ∈ C
  fresh : ∀ b ∈ C, b ∈ B ∨ b ∉ h.ledger.live

variable {B C D : List Block} {h'' : Heap α}

theorem Replaced.refl (hh : h.Sound stride) (hB : B ⊆ h.ledger.live) : Replaced stride B B h h := by
  constructor
  · exact hh
  · exact fun _ _ _ _ _ => rfl
  · intro b
    by_cases hb : b ∈ B
    · simp [hb, hB hb]
    · simp [hb]
  · exact fun _ hb => Or.inl hb

theorem Changes.replaced (hs : 0 < stride) (hc : Changes stride d h h') (hh : h.Sound stride)
    (hd : d ∈ h.ledger.live) : Replaced stride [d] [d] h h' := by
  constructor
  · exact hc.sound hh
  · intro b hb hbd i hi
    exact hc.other hs (hh.apart b hb d hd (by simpa using hbd)) hi
  · rw [hc.ledger]
    exact (Replaced.refl hh (by simpa using hd)).live
  · exact fun _ hb => Or.inl hb

theorem Replaced.alloc (hs : 0 < stride) (hh : h.Sound stride) (hf : h.Fresh stride b) :
    Replaced stride [] [b] h (h.alloc stride b) := by
  constructor
  · exact hh.alloc hf
  · exact fun c hc _ i hi => alloc_cells_old hs (hf c hc) hi
  · intro c
    simp [Heap.alloc, Ledger.mem_give]
  · intro c hc
    rw [List.mem_singleton] at hc
    subst hc
    exact Or.inr fun hlive => (hf c hlive).1 rfl

theorem Replaced.release (hh : h.Sound stride) (hb : b ∈ h.ledger.live) :
    Replaced stride [b] [] h { h with ledger := h.ledger.release [b] } := by
  constructor
  · exact hh.release hb
  · exact fun _ _ _ _ _ => rfl
  · intro c
    rw [Ledger.mem_release hh.balanced]
    simp
  · intro c hc
    cases hc

theorem Replaced.mem (hr : Replaced stride B C h h') (hb : b ∈ h.ledger.live) (hB : b ∉ B) :
    b ∈ h'.ledger.live ∧ b ∉ C := by
  refine ⟨(hr.live b).mpr (Or.inl ⟨hb, hB⟩), fun hC => ?_⟩
  rcases hr.fresh b hC with hb' | hb'
  · exact hB hb'
  · exact hb' hb

theorem Replaced.trans (hr : Replaced stride B C h h') (hr' : Replaced stride C D h' h'') :
    Replaced stride B D h h'' := by
  constructor
  · exact hr'.sound
  · intro b hb hB i hi
    obtain ⟨hb', hC⟩ := hr.mem hb hB
    rw [hr'.keep b hb' hC i hi, hr.keep b hb hB i hi]
  · intro b
    rw [hr'.live b, hr.live b]
    constructor
    · rintro (⟨⟨hb, hB⟩ | hC, hnC⟩ | hD)
      · exact Or.inl ⟨hb, hB⟩
      · exact absurd hC hnC
      · exact Or.inr hD
    · rintro (⟨hb, hB⟩ | hD)
      · exact Or.inl ⟨Or.inl ⟨hb, hB⟩, (hr.mem hb hB).2⟩
      · exact Or.inr hD
  · intro b hD
    by_cases hb : b ∈ h.ledger.live ∧ b ∉ B
    · obtain ⟨hb', hC⟩ := hr.mem hb.1 hb.2
      rcases hr'.fresh b hD with hC' | hb''
      · exact absurd hC' hC
      · exact absurd hb' hb''
    · by_cases hlive : b ∈ h.ledger.live
      · exact Or.inl (by_contra fun hB => hb ⟨hlive, hB⟩)
      · exact Or.inr hlive

theorem Replaced.drop (hr : Replaced stride [] C h h') (hr' : Replaced stride D [] h' h'')
    (hD : D ⊆ h.ledger.live) : Replaced stride D C h h'' := by
  have hnot : ∀ b ∈ C, b ∉ h.ledger.live := fun b hb => (hr.fresh b hb).resolve_left (by simp)
  constructor
  · exact hr'.sound
  · intro b hb hbD i hi
    rw [hr'.keep b (hr.mem hb (by simp)).1 hbD i hi, hr.keep b hb (by simp) i hi]
  · intro b
    rw [hr'.live b, hr.live b]
    constructor
    · rintro (⟨⟨hb, -⟩ | hC, hbD⟩ | hnil)
      · exact Or.inl ⟨hb, hbD⟩
      · exact Or.inr hC
      · cases hnil
    · rintro (⟨hb, hbD⟩ | hC)
      · exact Or.inl ⟨Or.inl ⟨hb, by simp⟩, hbD⟩
      · exact Or.inl ⟨Or.inr hC, fun hbD => hnot b hC (hD hbD)⟩
  · exact fun b hb => Or.inr (hnot b hb)

end Heap

end Blocks
