import Mathlib.Data.Nat.Digits.Lemmas
import Mathlib.Data.List.Basic

/-!
Little-endian words of a fixed number of bytes, and lists of blocks of one
width laid end to end.
-/

namespace ByteWords

def byteLE (n i : ℕ) : UInt8 := UInt8.ofNat (n / 256 ^ i)

def bytesLE (w n : ℕ) : List UInt8 := (List.range w).map (byteLE n)

def ofBytesLE (l : List UInt8) : ℕ := Nat.ofDigits 256 (l.map UInt8.toNat)

theorem bytesLE_length (w n : ℕ) : (bytesLE w n).length = w := by simp [bytesLE]

theorem bytesLE_succ (w n : ℕ) : bytesLE (w + 1) n = byteLE n 0 :: bytesLE w (n / 256) := by
  simp only [bytesLE, List.range_succ_eq_map, List.map_cons, List.map_map, List.cons.injEq, true_and]
  apply List.map_congr_left
  intro i _
  simp only [Function.comp, byteLE, Nat.succ_eq_add_one, pow_succ', Nat.div_div_eq_div_mul]

theorem ofBytesLE_cons (b : UInt8) (l : List UInt8) :
    ofBytesLE (b :: l) = b.toNat + 256 * ofBytesLE l := by
  simp [ofBytesLE, Nat.ofDigits_cons]

theorem ofBytesLE_bytesLE (w n : ℕ) : ofBytesLE (bytesLE w n) = n % 256 ^ w := by
  induction w generalizing n with
  | zero => simp [bytesLE, ofBytesLE, Nat.mod_one]
  | succ w ih =>
    rw [bytesLE_succ, ofBytesLE_cons, ih, pow_succ', Nat.mod_mul]
    simp [byteLE]

def word64 (x : UInt64) : List UInt8 := bytesLE 8 x.toNat

def readWord64 (l : List UInt8) : UInt64 := UInt64.ofNat (ofBytesLE l)

@[simp] theorem word64_length (x : UInt64) : (word64 x).length = 8 := bytesLE_length _ _

@[simp] theorem readWord64_word64 (x : UInt64) : readWord64 (word64 x) = x := by
  have hx : x.toNat % 256 ^ 8 = x.toNat := Nat.mod_eq_of_lt x.toNat_lt
  rw [readWord64, word64, ofBytesLE_bytesLE, hx, UInt64.ofNat_toNat]

theorem word64_injective : Function.Injective word64 :=
  Function.LeftInverse.injective readWord64_word64

theorem bytesLE_ofBytesLE (l : List UInt8) : bytesLE l.length (ofBytesLE l) = l := by
  induction l with
  | nil => rfl
  | cons b l ih =>
    have hb : b.toNat < 256 := b.toNat_lt
    rw [List.length_cons, bytesLE_succ, ofBytesLE_cons, Nat.add_mul_div_left _ _ (by omega),
      Nat.div_eq_of_lt hb, Nat.zero_add, ih]
    simp [byteLE]

theorem word64_readWord64 {l : List UInt8} (hl : l.length = 8) : word64 (readWord64 l) = l := by
  have hlt : ofBytesLE l < 2 ^ 64 := by
    have hdigits : ofBytesLE l < 256 ^ (l.map UInt8.toNat).length := by
      apply Nat.ofDigits_lt_base_pow_length (by omega)
      intro d hd
      obtain ⟨b, -, rfl⟩ := List.mem_map.mp hd
      exact b.toNat_lt
    simpa [hl] using hdigits
  rw [word64, readWord64, UInt64.toNat_ofNat_of_lt' hlt, ← hl, bytesLE_ofBytesLE]

section Blocks

variable {α β : Type} {f : α → List β} {w : ℕ}

theorem flatMap_length (hf : ∀ a, (f a).length = w) (l : List α) :
    (l.flatMap f).length = w * l.length := by
  simp [List.length_flatMap, hf, Nat.mul_comm]

theorem block_at (hf : ∀ a, (f a).length = w) (l : List α) (tail : List β) (i : ℕ)
    (hi : i < l.length) : ((l.flatMap f ++ tail).drop (w * i)).take w = f l[i] := by
  induction l generalizing i with
  | nil => simp at hi
  | cons a l ih =>
    cases i with
    | zero => simp [hf]
    | succ i =>
      have hd : w * (i + 1) = (f a).length + w * i := by rw [hf, Nat.mul_add, Nat.mul_one, Nat.add_comm]
      rw [hd, List.flatMap_cons, List.append_assoc, ← List.drop_drop, List.drop_left]
      exact ih i (by simpa using hi)

theorem byte_at (hf : ∀ a, (f a).length = w) (l : List α) (tail : List β) {i k : ℕ}
    (hi : i < l.length) (hk : k < w) : (l.flatMap f ++ tail)[w * i + k]? = (f l[i])[k]? := by
  rw [← block_at hf l tail i hi, List.getElem?_take_of_lt hk, List.getElem?_drop]

/-- Two block sequences that agree after their tails are added: the shorter is a
prefix of the longer, and its tail spells out the blocks that are missing. -/
theorem blocks_prefix (hf : ∀ a, (f a).length = w) (hinj : Function.Injective f)
    (l₁ l₂ : List α) (t₁ t₂ : List β) (hl : l₁.length ≤ l₂.length)
    (h : l₁.flatMap f ++ t₁ = l₂.flatMap f ++ t₂) :
    ∃ extra, l₂ = l₁ ++ extra ∧ t₁ = extra.flatMap f ++ t₂ := by
  induction l₁ generalizing l₂ with
  | nil => exact ⟨l₂, rfl, by simpa using h⟩
  | cons a l₁ ih =>
    cases l₂ with
    | nil => simp at hl
    | cons b l₂ =>
      simp only [List.flatMap_cons, List.append_assoc] at h
      obtain ⟨hab, hrest⟩ := List.append_inj h (by rw [hf, hf])
      obtain ⟨extra, rfl, ht⟩ := ih l₂ (by simpa using hl) hrest
      exact ⟨extra, by rw [hinj hab, List.cons_append], ht⟩

theorem flatMap_take_drop (w n : ℕ) (l : List β) :
    (List.range n).flatMap (fun i => (l.drop (w * i)).take w) = l.take (w * n) := by
  induction n with
  | zero => simp
  | succ n ih =>
    rw [List.range_succ, List.flatMap_append, ih, List.flatMap_singleton, Nat.mul_succ, List.take_add]

def readBlocks (w : ℕ) (read : List β → α) : ℕ → List β → Option (List α × List β)
  | 0, l => some ([], l)
  | n + 1, l =>
    if w ≤ l.length then
      (readBlocks w read n (l.drop w)).map fun (as, rest) => (read (l.take w) :: as, rest)
    else none

theorem readBlocks_eq_some {read : List β → α} (hf : ∀ a, (f a).length = w)
    (hread : ∀ a, read (f a) = a) (hwrite : ∀ l, l.length = w → f (read l) = l) {n : ℕ}
    {l rest : List β} {as : List α} : readBlocks w read n l = some (as, rest) ↔
      as.length = n ∧ l = as.flatMap f ++ rest := by
  induction n generalizing l as with
  | zero =>
    simp only [readBlocks, Option.some.injEq, Prod.mk.injEq, List.length_eq_zero_iff]
    constructor
    · rintro ⟨rfl, rfl⟩
      exact ⟨rfl, rfl⟩
    · rintro ⟨rfl, rfl⟩
      exact ⟨rfl, rfl⟩
  | succ n ih =>
    rw [readBlocks]
    constructor
    · intro h
      split_ifs at h with hw
      obtain ⟨⟨bs, tail⟩, hbs, he⟩ := Option.map_eq_some_iff.mp h
      obtain ⟨rfl, rfl⟩ := Prod.mk.inj he
      obtain ⟨hn, hl⟩ := ih.mp hbs
      refine ⟨congrArg Nat.succ hn, ?_⟩
      rw [List.flatMap_cons, hwrite _ (List.length_take_of_le hw), List.append_assoc, ← hl,
        List.take_append_drop]
    · rintro ⟨hn, rfl⟩
      cases as with
      | nil => cases hn
      | cons a as =>
        have hlen : w ≤ ((a :: as).flatMap f ++ rest).length := by
          rw [List.flatMap_cons, List.append_assoc, List.length_append, hf]
          omega
        rw [if_pos hlen, List.flatMap_cons, List.append_assoc, ← hf a, List.take_left,
          List.drop_left, hf a, ih.mpr ⟨Nat.succ.inj hn, rfl⟩, hread]
        rfl

end Blocks

end ByteWords
