import PickleDevice.AddressRange
import PickleDevice.ArrayIds

/-!
`pvector`: a growable array of some element type, and the descriptor it hands to
jobs. The element values play no part in the descriptor and are left out.
-/

namespace PickleDevice

open StateEffect

structure PVector where
  elementType : ElementType
  start : ℤ
  endSize : ℤ
  endCapacity : ℤ
  arrayDescriptor : Option Ptr
  deriving DecidableEq

namespace PVector

def capacity (v : PVector) : ℕ := (v.elementType.sub v.endCapacity v.start).toNat

def size (v : PVector) : ℕ := (v.elementType.sub v.endSize v.start).toNat

def getAddressRange (v : PVector) : AddressRange := ⟨toUInt64 v.start, toUInt64 v.endSize⟩

def getElementSize (v : PVector) : UInt64 := UInt64.ofNat v.elementType.sizeof

def getArrayDescriptor (v : PVector) : Option Ptr := v.arrayDescriptor

def indexedBy (v : PVector) (descriptor : Option Ptr) : Action Unit :=
  PickleDevice.indexedBy v.arrayDescriptor descriptor

def default (T : ElementType) : Action PVector := do
  let d ← newDescriptor
  return ⟨T, 0, 0, 0, some d⟩

/-- `pvector(num_elements)`, where `new T_[num_elements]` answers `new`. -/
def sized (T : ElementType) (numElements : ℕ) (new : ℤ) : Action PVector := do
  let endSize := T.add new numElements
  let v : PVector := ⟨T, new, endSize, endSize, none⟩
  let d ← newDescribed v.getAddressRange.start v.getAddressRange.stop v.getElementSize
  return { v with arrayDescriptor := some d }

def filled (T : ElementType) (numElements : ℕ) (new : ℤ) : Action PVector := sized T numElements new

def copied (T : ElementType) (copyBegin copyEnd new : ℤ) : Action PVector :=
  sized T (T.sub copyEnd copyBegin).toNat new

def moved (other : PVector) : PVector × PVector :=
  ({ other with arrayDescriptor := other.getArrayDescriptor },
    { other with start := 0, endSize := 0, endCapacity := 0 })

/-- `operator=(pvector &&other)` on two different vectors. -/
def moveAssign (v other : PVector) : PVector × PVector :=
  ({ v with
      start := other.start
      endSize := other.endSize
      endCapacity := other.endCapacity
      arrayDescriptor := other.getArrayDescriptor },
    { other with start := 0, endSize := 0, endCapacity := 0, arrayDescriptor := none })

def reserve (v : PVector) (numElements : ℕ) (new : ℤ) : PVector :=
  if v.capacity < numElements then
    { v with
      start := new
      endSize := v.elementType.add new v.size
      endCapacity := v.elementType.add new numElements }
  else v

def clear (v : PVector) : PVector := { v with endSize := v.start }

def resize (v : PVector) (numElements : ℕ) (new : ℤ) : PVector :=
  let v := v.reserve numElements new
  { v with endSize := v.elementType.add v.start numElements }

def growthFactor : ℕ := 2

def grownSize (v : PVector) : ℕ := if v.capacity = 0 then 1 else v.capacity * growthFactor

def pushBack (v : PVector) (new : ℤ) : PVector :=
  let v := if v.size = v.capacity then v.reserve v.grownSize new else v
  { v with endSize := v.elementType.add v.endSize 1 }

/-- `swap(other)`: the storage is exchanged, the descriptors stay. -/
def swap (v other : PVector) : PVector × PVector :=
  ({ v with start := other.start, endSize := other.endSize, endCapacity := other.endCapacity },
    { other with start := v.start, endSize := v.endSize, endCapacity := v.endCapacity })

theorem run_default (T : ElementType) (s : Store) :
    run (default T) s = (.ok ⟨T, 0, 0, 0, some s.next⟩, s.alloc) := rfl

theorem run_sized (T : ElementType) (n : ℕ) (new : ℤ) (s : Store) :
    run (sized T n new) s =
      (.ok ⟨T, new, T.add new n, T.add new n, some s.next⟩,
        s.alloc.modify s.next (·.setRange (toUInt64 new) (toUInt64 (T.add new n))
          (UInt64.ofNat T.sizeof))) := rfl

inductive Storage (v : PVector) : Prop
  | empty (hs : v.start = 0) (he : v.endSize = 0) (hc : v.endCapacity = 0)
  | block (m c : ℕ) (hs : 0 < v.start) (he : v.endSize = v.elementType.add v.start m)
      (hc : v.endCapacity = v.elementType.add v.start c) (hm : m ≤ c) (hlt : v.endCapacity < 2 ^ 64)

/-- What `new T_[n]` promises of its answer. -/
def Allocated (T : ElementType) (n : ℕ) (new : ℤ) : Prop := 0 < new ∧ T.add new n < 2 ^ 64

instance (T : ElementType) (n : ℕ) (new : ℤ) : Decidable (Allocated T n new) :=
  inferInstanceAs (Decidable (_ ∧ _))

variable {v u : PVector} {s : Store} {a b b' new : ℤ} {n : ℕ}

theorem size_add {m : ℕ} (he : v.endSize = v.elementType.add v.start m) : v.size = m := by
  rw [size, he, ElementType.sub_add, Int.toNat_natCast]

theorem capacity_add {c : ℕ} (hc : v.endCapacity = v.elementType.add v.start c) :
    v.capacity = c := by
  rw [capacity, hc, ElementType.sub_add, Int.toNat_natCast]

theorem Storage.size_eq (h : v.Storage) : v.endSize = v.elementType.add v.start v.size := by
  cases h with
  | empty hs he hc => simp [size, hs, he]
  | block m c hs he hc hm hlt => rw [size_add he, he]

theorem Storage.capacity_eq (h : v.Storage) :
    v.endCapacity = v.elementType.add v.start v.capacity := by
  cases h with
  | empty hs he hc => simp [capacity, hs, hc]
  | block m c hs he hc hm hlt => rw [capacity_add hc, hc]

theorem Storage.size_le (h : v.Storage) : v.size ≤ v.capacity := by
  cases h with
  | empty hs he hc => simp [size, capacity, hs, he, hc]
  | block m c hs he hc hm hlt => rwa [size_add he, capacity_add hc]

theorem Storage.capacity_zero (h : v.Storage) (hs : v.start = 0) : v.capacity = 0 := by
  cases h with
  | empty _ he hc => simp [capacity, hs, hc]
  | block m c hs' => omega

theorem Storage.start_nonneg (h : v.Storage) : 0 ≤ v.start := by
  cases h with
  | empty hs => omega
  | block m c hs => omega

theorem Storage.add_lt (h : v.Storage) (hn : n ≤ v.capacity) :
    0 ≤ v.elementType.add v.start n ∧ v.elementType.add v.start n < 2 ^ 64 := by
  have h0 : v.elementType.add v.start (0 : ℕ) ≤ v.elementType.add v.start n :=
    v.elementType.add_le_add (by omega)
  have hle : v.elementType.add v.start n ≤ v.elementType.add v.start v.capacity :=
    v.elementType.add_le_add (by omega)
  have hs := h.start_nonneg
  rw [← h.capacity_eq] at hle
  simp only [Int.natCast_zero, ElementType.add_zero'] at h0
  cases h with
  | empty hs he hc => omega
  | block m c hs he hc hm hlt => omega

theorem storage_of_allocated (T : ElementType) (d : Option Ptr) {m c : ℕ} (hm : m ≤ c)
    (h : Allocated T c new) : Storage ⟨T, new, T.add new m, T.add new c, d⟩ :=
  .block m c h.1 rfl rfl hm h.2

theorem Storage.reserve (h : v.Storage) (ha : v.capacity < n → Allocated v.elementType n new) :
    (v.reserve n new).Storage := by
  unfold PVector.reserve
  split
  case isTrue hn => exact storage_of_allocated _ _ (h.size_le.trans hn.le) (ha hn)
  case isFalse => exact h

theorem reserve_arrayDescriptor : (v.reserve n new).arrayDescriptor = v.arrayDescriptor := by
  unfold PVector.reserve; split <;> rfl

theorem resize_arrayDescriptor : (v.resize n new).arrayDescriptor = v.arrayDescriptor :=
  reserve_arrayDescriptor

theorem pushBack_arrayDescriptor : (v.pushBack new).arrayDescriptor = v.arrayDescriptor := by
  unfold PVector.pushBack
  split
  · exact reserve_arrayDescriptor
  · rfl

theorem Storage.withType {T : ElementType} {d : Option Ptr} (h : u.Storage) (ht : T = u.elementType) :
    Storage ⟨T, u.start, u.endSize, u.endCapacity, d⟩ := by
  subst ht
  cases h with
  | empty hs he hc => exact .empty hs he hc
  | block m c hs he hc hm hlt => exact .block m c hs he hc hm hlt

theorem capacity_reserve : (v.reserve n new).capacity = max v.capacity n := by
  unfold PVector.reserve
  split
  · rw [capacity_add (c := n) rfl]
    omega
  · omega

theorem reserve_size : (v.reserve n new).size = v.size := by
  unfold PVector.reserve
  split
  · rw [size_add (m := v.size) rfl]
  · rfl

theorem Storage.withEnd (h : v.Storage) (hn : n ≤ v.capacity) :
    Storage { v with endSize := v.elementType.add v.start n } := by
  have hc := h.capacity_eq
  cases h with
  | empty hs he hc' =>
    have hz : n = 0 := by
      have := (Storage.empty hs he hc').capacity_zero hs
      omega
    exact .empty hs (by simp [hs, hz]) hc'
  | block m c hs he hc' hm hlt => exact .block n v.capacity hs rfl hc hn hlt

theorem Storage.resize (h : v.Storage) (ha : v.capacity < n → Allocated v.elementType n new) :
    (v.resize n new).Storage := by
  have hr := h.reserve ha
  have hn : n ≤ (v.reserve n new).capacity := by rw [capacity_reserve]; omega
  exact hr.withEnd hn

theorem Storage.clear (h : v.Storage) : v.clear.Storage := by
  simpa [PVector.clear] using h.withEnd (n := 0) (Nat.zero_le _)

theorem grownSize_gt : v.capacity < v.grownSize := by
  unfold grownSize growthFactor
  split <;> omega

theorem Storage.pushBack (h : v.Storage)
    (ha : v.size = v.capacity → Allocated v.elementType v.grownSize new) :
    (v.pushBack new).Storage := by
  unfold PVector.pushBack
  have hstep : ∀ w : PVector, w.Storage → w.size < w.capacity →
      Storage { w with endSize := w.elementType.add w.endSize 1 } := by
    intro w hw hlt
    have he : w.elementType.add w.endSize 1 = w.elementType.add w.start (w.size + 1 : ℕ) := by
      rw [hw.size_eq, ElementType.add_add]
      rfl
    rw [he]
    exact hw.withEnd hlt
  split
  case isTrue hfull =>
    apply hstep _ (h.reserve fun _ => ha hfull)
    rw [reserve_size, capacity_reserve, hfull]
    have := grownSize_gt (v := v)
    omega
  case isFalse hfull => exact hstep v h (lt_of_le_of_ne h.size_le hfull)

def Shows (v : PVector) (s : Store) (a b : ℤ) : Prop :=
  ∃ d, v.arrayDescriptor = some d ∧ (s.desc d).vaddrStart = toUInt64 a ∧
    (s.desc d).vaddrEnd = toUInt64 b ∧ (s.desc d).elementSize = v.getElementSize

def Described (s : Store) (v : PVector) : Prop := v.start ≠ 0 → v.Shows s v.start v.endSize

theorem Shows.withType {T : ElementType} {x y z : ℤ} (h : u.Shows s a b) (ht : T = u.elementType) :
    Shows ⟨T, x, y, z, u.arrayDescriptor⟩ s a b := by
  subst ht
  exact h

theorem Shows.iff_end (h : v.Shows s a b) : v.Shows s a b' ↔ toUInt64 b' = toUInt64 b := by
  obtain ⟨d, hd, ha, hb, he⟩ := h
  constructor
  · rintro ⟨d', hd', -, hb', -⟩
    cases hd.symm.trans hd'
    rw [← hb, ← hb']
  · intro hbb
    exact ⟨d, hd, ha, hb.trans hbb.symm, he⟩

theorem described_withEnd (h : v.Storage) (hd : Described s v) (hn : n ≤ v.capacity) :
    Described s { v with endSize := v.elementType.add v.start n } ↔ n = v.size := by
  by_cases hs : v.start = 0
  · have hc := h.capacity_zero hs
    have hm := h.size_le
    exact ⟨fun _ => by omega, fun _ h0 => absurd hs h0⟩
  · have hshow : v.Shows s v.start (v.elementType.add v.start v.size) := by
      rw [← h.size_eq]
      exact hd hs
    have hiff : Described s { v with endSize := v.elementType.add v.start n } ↔
        v.Shows s v.start (v.elementType.add v.start n) := ⟨fun h => h hs, fun h _ => h⟩
    rw [hiff, hshow.iff_end]
    constructor
    · intro he
      obtain ⟨h0, hlt⟩ := h.add_lt hn
      obtain ⟨h0', hlt'⟩ := h.add_lt h.size_le
      exact Int.natCast_inj.mp (v.elementType.add_inj (toUInt64_inj h0 hlt h0' hlt' he))
    · rintro rfl
      rfl

theorem described_reserve (hd : Described s v)
    (ha : v.capacity < n → Allocated v.elementType n new) :
    Described s (v.reserve n new) ↔
      n ≤ v.capacity ∨ v.Shows s new (v.elementType.add new v.size) := by
  unfold PVector.reserve
  split
  case isTrue hn =>
    have hnew : new ≠ 0 := Int.ne_of_gt (ha hn).1
    constructor
    · intro h
      exact Or.inr (h hnew)
    · rintro (h | h)
      · omega
      · exact fun _ => h
  case isFalse hn => exact ⟨fun _ => Or.inl (by omega), fun _ => hd⟩

theorem described_resize (h : v.Storage) (hd : Described s v)
    (ha : v.capacity < n → Allocated v.elementType n new) :
    Described s (v.resize n new) ↔
      if n ≤ v.capacity then n = v.size else v.Shows s new (v.elementType.add new n) := by
  unfold PVector.resize PVector.reserve
  by_cases hn : v.capacity < n
  · have hnew : new ≠ 0 := Int.ne_of_gt (ha hn).1
    rw [if_pos hn, if_neg (by omega)]
    exact ⟨fun h => h hnew, fun h _ => h⟩
  · rw [if_neg hn, if_pos (by omega)]
    apply described_withEnd h hd
    omega

theorem described_clear (h : v.Storage) (hd : Described s v) : Described s v.clear ↔ v.size = 0 := by
  rw [eq_comm, ← described_withEnd h hd (Nat.zero_le _)]
  simp [PVector.clear]

theorem described_pushBack (h : v.Storage) (hd : Described s v)
    (ha : v.size = v.capacity → Allocated v.elementType v.grownSize new) :
    Described s (v.pushBack new) ↔
      v.size = v.capacity ∧ v.Shows s new (v.elementType.add new (v.size + 1 : ℕ)) := by
  unfold PVector.pushBack
  by_cases hfull : v.size = v.capacity
  · have hnew : new ≠ 0 := Int.ne_of_gt (ha hfull).1
    have he : v.elementType.add (v.elementType.add new v.size) 1 =
        v.elementType.add new (v.size + 1 : ℕ) := by
      rw [ElementType.add_add]
      rfl
    rw [if_pos hfull, PVector.reserve, if_pos grownSize_gt, ← he]
    exact ⟨fun h => ⟨hfull, h hnew⟩, fun h _ => h.2⟩
  · have hlt : v.size < v.capacity := lt_of_le_of_ne h.size_le hfull
    have he : v.elementType.add v.endSize 1 = v.elementType.add v.start (v.size + 1 : ℕ) := by
      rw [h.size_eq, ElementType.add_add]
      rfl
    rw [if_neg hfull]
    change Described s { v with endSize := v.elementType.add v.endSize 1 } ↔ _
    rw [he, described_withEnd h hd hlt]
    exact ⟨fun h => by omega, fun h => absurd h.1 hfull⟩

end PVector

end PickleDevice
