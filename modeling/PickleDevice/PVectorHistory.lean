import PickleDevice.PVector
import PickleDevice.Library.Runs

namespace PickleDevice

open StateEffect Runs

structure PVectors where
  store : Store
  live : ℕ → Option PVector

/-- A call on the objects `x` and `y`; `new` is the answer of the allocation the call may make. -/
inductive PVectorCall
  | default (x : ℕ) (T : ElementType)
  | sized (x : ℕ) (T : ElementType) (numElements : ℕ) (new : ℤ)
  | filled (x : ℕ) (T : ElementType) (numElements : ℕ) (new : ℤ)
  | copied (x : ℕ) (T : ElementType) (copyBegin copyEnd new : ℤ)
  | moved (x y : ℕ)
  | moveAssign (x y : ℕ)
  | reserve (x numElements : ℕ) (new : ℤ)
  | resize (x numElements : ℕ) (new : ℤ)
  | pushBack (x : ℕ) (new : ℤ)
  | clear (x : ℕ)
  | swap (x y : ℕ)
  | destroy (x : ℕ)

namespace PVectors

def empty : PVectors := ⟨.init, fun _ => none⟩

def put (w : PVectors) (x : ℕ) (v : PVector) : PVectors :=
  { w with live := Function.update w.live x (some v) }

def remove (w : PVectors) (x : ℕ) : PVectors :=
  { w with live := Function.update w.live x none }

def construct (w : PVectors) (x : ℕ) (constructor : Action PVector) : Option PVectors :=
  match w.live x, run constructor w.store with
  | none, (.ok v, s) => some ({ w with store := s }.put x v)
  | _, _ => none

def change (w : PVectors) (x : ℕ) (f : PVector → Option PVector) : Option PVectors :=
  match w.live x with
  | some v => (f v).map (w.put x)
  | none => none

def exchange (w : PVectors) (x y : ℕ) (f : PVector → PVector → PVector × PVector) :
    Option PVectors :=
  match w.live x, w.live y with
  | some v, some u =>
    if v.elementType = u.elementType then
      if x = y then some w else some ((w.put x (f v u).1).put y (f v u).2)
    else none
  | _, _ => none

def step (w : PVectors) : PVectorCall → Option PVectors
  | .default x T => w.construct x (PVector.default T)
  | .sized x T n new =>
    if PVector.Allocated T n new then w.construct x (PVector.sized T n new) else none
  | .filled x T n new =>
    if PVector.Allocated T n new then w.construct x (PVector.filled T n new) else none
  | .copied x T b e new =>
    if PVector.Allocated T (T.sub e b).toNat new then w.construct x (PVector.copied T b e new) else none
  | .moved x y =>
    match w.live x, w.live y with
    | none, some u => some ((w.put x u.moved.1).put y u.moved.2)
    | _, _ => none
  | .moveAssign x y => w.exchange x y PVector.moveAssign
  | .reserve x n new => w.change x fun v =>
    if v.capacity < n → PVector.Allocated v.elementType n new then some (v.reserve n new) else none
  | .resize x n new => w.change x fun v =>
    if v.capacity < n → PVector.Allocated v.elementType n new then some (v.resize n new) else none
  | .pushBack x new => w.change x fun v =>
    if v.size = v.capacity → PVector.Allocated v.elementType v.grownSize new then
      some (v.pushBack new)
    else none
  | .clear x => w.change x fun v => some v.clear
  | .swap x y => w.exchange x y PVector.swap
  | .destroy x =>
    match w.live x with
    | some _ => some (w.remove x)
    | none => none

def AllDescribed (w : PVectors) : Prop := ∀ x v, w.live x = some v → v.Described w.store

/-- The condition under which a call leaves every pvector described: storage is neither moved nor
resized, unless the descriptor happens to show the new range already. -/
def KeepsDescribed (w : PVectors) : PVectorCall → Prop
  | .reserve x n new => ∀ v, w.live x = some v →
    n ≤ v.capacity ∨ v.Shows w.store new (v.elementType.add new v.size)
  | .resize x n new => ∀ v, w.live x = some v →
    if n ≤ v.capacity then n = v.size else v.Shows w.store new (v.elementType.add new n)
  | .pushBack x new => ∀ v, w.live x = some v →
    v.size = v.capacity ∧ v.Shows w.store new (v.elementType.add new (v.size + 1 : ℕ))
  | .clear x => ∀ v, w.live x = some v → v.size = 0
  | .swap x y => ∀ v u, w.live x = some v → w.live y = some u →
    x = y ∨ (u.start ≠ 0 → v.Shows w.store u.start u.endSize) ∧
      (v.start ≠ 0 → u.Shows w.store v.start v.endSize)
  | _ => True

def Valid (w : PVectors) : Prop := ∀ x v, w.live x = some v →
  v.Storage ∧ ∀ d, v.arrayDescriptor = some d → d < w.store.next

variable {w w' : PVectors} {x y : ℕ} {v u : PVector}

theorem put_live : (w.put x v).live x = some v := by simp [put]

theorem put_live_of_ne (h : y ≠ x) : (w.put x v).live y = w.live y := by
  simp [put, Function.update_of_ne h]

theorem remove_live (h : (w.remove x).live y = some v) : w.live y = some v := by
  by_cases hyx : y = x
  · simp [remove, hyx] at h
  · simpa [remove, Function.update_of_ne hyx] using h

theorem Valid.put (h : w.Valid) (hv : v.Storage ∧ ∀ d, v.arrayDescriptor = some d → d < w.store.next) :
    (w.put x v).Valid := by
  intro z t hz
  by_cases hzx : z = x
  · subst hzx
    cases put_live.symm.trans hz
    exact hv
  · rw [put_live_of_ne hzx] at hz
    exact h z t hz

theorem Valid.replace (h : w.Valid) (hx : w.live x = some v) (hu : u.Storage)
    (hd : u.arrayDescriptor = v.arrayDescriptor) : (w.put x u).Valid := by
  apply h.put
  rw [hd]
  exact ⟨hu, (h x v hx).2⟩

theorem allDescribed_put (h : w.AllDescribed) : (w.put x v).AllDescribed ↔ v.Described w.store := by
  constructor
  · intro hall
    exact hall x v put_live
  · intro hv z t hz
    by_cases hzx : z = x
    · subst hzx
      cases put_live.symm.trans hz
      exact hv
    · rw [put_live_of_ne hzx] at hz
      exact h z t hz

theorem allDescribed_put_put (h : w.AllDescribed) (hxy : x ≠ y) :
    ((w.put x v).put y u).AllDescribed ↔ v.Described w.store ∧ u.Described w.store := by
  constructor
  · intro hall
    refine ⟨hall x v ?_, hall y u put_live⟩
    rw [put_live_of_ne hxy, put_live]
  · rintro ⟨hv, hu⟩
    exact (allDescribed_put ((allDescribed_put h).mpr hv)).mpr hu

theorem construct_cases {constructor : Action PVector} (h : w.construct x constructor = some w') :
    ∃ v s, run constructor w.store = (.ok v, s) ∧ w.live x = none ∧
      w' = ({ w with store := s } : PVectors).put x v := by
  unfold construct at h
  split at h
  case h_1 v s hx hr => exact ⟨v, s, hr, hx, (Option.some.inj h).symm⟩
  case h_2 => cases h

theorem change_cases {f : PVector → Option PVector} (h : w.change x f = some w') :
    ∃ v v', w.live x = some v ∧ f v = some v' ∧ w' = w.put x v' := by
  unfold change at h
  split at h
  case h_1 v hx =>
    obtain ⟨v', hf, rfl⟩ := Option.map_eq_some_iff.mp h
    exact ⟨v, v', hx, hf, rfl⟩
  case h_2 => cases h

theorem exchange_cases {f : PVector → PVector → PVector × PVector}
    (h : w.exchange x y f = some w') :
    ∃ v u, w.live x = some v ∧ w.live y = some u ∧ v.elementType = u.elementType ∧
      (x = y ∧ w' = w ∨ x ≠ y ∧ w' = (w.put x (f v u).1).put y (f v u).2) := by
  unfold exchange at h
  split at h
  case h_1 v u hx hy =>
    split_ifs at h with ht hxy
    · exact ⟨v, u, hx, hy, ht, Or.inl ⟨hxy, (Option.some.inj h).symm⟩⟩
    · exact ⟨v, u, hx, hy, ht, Or.inr ⟨hxy, (Option.some.inj h).symm⟩⟩
  case h_2 => cases h

theorem moved_cases (h : w.step (.moved x y) = some w') :
    ∃ u, x ≠ y ∧ w.live y = some u ∧ w' = (w.put x u.moved.1).put y u.moved.2 := by
  simp only [step] at h
  split at h
  case h_1 u hx hy =>
    refine ⟨u, ?_, hy, (Option.some.inj h).symm⟩
    rintro rfl
    simp [hx] at hy
  case h_2 => cases h

theorem destroy_cases (h : w.step (.destroy x) = some w') : w' = w.remove x := by
  simp only [step] at h
  split at h
  case h_1 v hx => exact (Option.some.inj h).symm
  case h_2 => cases h

theorem Valid.store {s : Store} (h : w.Valid) (hn : w.store.next ≤ s.next) :
    Valid { w with store := s } := fun z t hz =>
  ⟨(h z t hz).1, fun d hd => ((h z t hz).2 d hd).trans_le hn⟩

theorem AllDescribed.store {s : Store} (h : w.AllDescribed) (hv : w.Valid)
    (hs : ∀ d < w.store.next, s.desc d = w.store.desc d) :
    AllDescribed { w with store := s } := by
  intro z t hz hstart
  obtain ⟨d, hd, hrange⟩ := h z t hz hstart
  refine ⟨d, hd, ?_⟩
  rwa [hs d ((hv z t hz).2 d hd)]

theorem construct_default {T : ElementType} (h : w.construct x (PVector.default T) = some w')
    (hv : w.Valid) : w'.Valid ∧ (w.AllDescribed → w'.AllDescribed) := by
  obtain ⟨v, s, hrun, -, rfl⟩ := construct_cases h
  rw [PVector.run_default] at hrun
  cases hrun
  constructor
  · refine (hv.store (Nat.le_succ _)).put ⟨.empty rfl rfl rfl, ?_⟩
    rintro d hd
    cases hd
    exact Nat.lt_succ_self _
  · intro hd
    have hs : ∀ d < w.store.next, w.store.alloc.desc d = w.store.desc d := fun d hlt =>
      Store.alloc_desc_of_ne (Nat.ne_of_lt hlt)
    exact (allDescribed_put (hd.store hv hs)).mpr fun hstart => absurd rfl hstart

theorem construct_sized {T : ElementType} {n : ℕ} {new : ℤ}
    (h : (if PVector.Allocated T n new then w.construct x (PVector.sized T n new) else none) =
      some w') (hv : w.Valid) : w'.Valid ∧ (w.AllDescribed → w'.AllDescribed) := by
  split_ifs at h with ha
  obtain ⟨v, s, hrun, -, rfl⟩ := construct_cases h
  rw [PVector.run_sized] at hrun
  cases hrun
  constructor
  · refine (hv.store (Nat.le_succ _)).put ⟨PVector.storage_of_allocated T _ le_rfl ha, ?_⟩
    rintro d hd
    cases hd
    exact Nat.lt_succ_self _
  · intro hd
    refine (allDescribed_put (hd.store hv ?_)).mpr fun _ => ⟨w.store.next, rfl, ?_⟩
    · intro d hlt
      rw [Store.modify_desc_of_ne (Nat.ne_of_lt hlt), Store.alloc_desc_of_ne (Nat.ne_of_lt hlt)]
    · simp [PickleArrayDescriptor.setRange, PVector.getElementSize]

theorem step_valid {call : PVectorCall} (hv : w.Valid) (h : w.step call = some w') : w'.Valid := by
  cases call with
  | default x T => exact (construct_default h hv).1
  | sized x T n new => exact (construct_sized h hv).1
  | filled x T n new => exact (construct_sized h hv).1
  | copied x T b e new => exact (construct_sized h hv).1
  | moved x y =>
    obtain ⟨u, -, hy, rfl⟩ := moved_cases h
    obtain ⟨hu, hd⟩ := hv y u hy
    exact (hv.put ⟨hu, hd⟩).put ⟨.empty rfl rfl rfl, hd⟩
  | moveAssign x y =>
    obtain ⟨v, u, hx, hy, ht, ⟨rfl, rfl⟩ | ⟨hxy, rfl⟩⟩ := exchange_cases h
    · exact hv
    · obtain ⟨hu, hd⟩ := hv y u hy
      exact (hv.put ⟨hu.withType ht, hd⟩).put ⟨.empty rfl rfl rfl, by simp [PVector.moveAssign]⟩
  | reserve x n new =>
    obtain ⟨v, v', hx, hf, rfl⟩ := change_cases h
    split_ifs at hf with ha
    cases hf
    exact hv.replace hx ((hv x v hx).1.reserve ha) PVector.reserve_arrayDescriptor
  | resize x n new =>
    obtain ⟨v, v', hx, hf, rfl⟩ := change_cases h
    split_ifs at hf with ha
    cases hf
    exact hv.replace hx ((hv x v hx).1.resize ha) PVector.resize_arrayDescriptor
  | pushBack x new =>
    obtain ⟨v, v', hx, hf, rfl⟩ := change_cases h
    split_ifs at hf with ha
    cases hf
    exact hv.replace hx ((hv x v hx).1.pushBack ha) PVector.pushBack_arrayDescriptor
  | clear x =>
    obtain ⟨v, v', hx, hf, rfl⟩ := change_cases h
    cases hf
    exact hv.replace hx (hv x v hx).1.clear rfl
  | swap x y =>
    obtain ⟨v, u, hx, hy, ht, ⟨rfl, rfl⟩ | ⟨hxy, rfl⟩⟩ := exchange_cases h
    · exact hv
    · obtain ⟨hs, hd⟩ := hv x v hx
      obtain ⟨hs', hd'⟩ := hv y u hy
      exact (hv.put ⟨hs'.withType ht, hd⟩).put ⟨hs.withType ht.symm, hd'⟩
  | destroy x =>
    obtain rfl := destroy_cases h
    exact fun z t hz => hv z t (remove_live hz)

theorem step_described_iff {call : PVectorCall} (hv : w.Valid) (hd : w.AllDescribed)
    (h : w.step call = some w') : w'.AllDescribed ↔ w.KeepsDescribed call := by
  cases call with
  | default x T => exact ⟨fun _ => trivial, fun _ => (construct_default h hv).2 hd⟩
  | sized x T n new => exact ⟨fun _ => trivial, fun _ => (construct_sized h hv).2 hd⟩
  | filled x T n new => exact ⟨fun _ => trivial, fun _ => (construct_sized h hv).2 hd⟩
  | copied x T b e new => exact ⟨fun _ => trivial, fun _ => (construct_sized h hv).2 hd⟩
  | moved x y =>
    obtain ⟨u, hxy, hy, rfl⟩ := moved_cases h
    refine ⟨fun _ => trivial, fun _ => (allDescribed_put_put hd hxy).mpr ⟨hd y u hy, ?_⟩⟩
    exact fun hstart => absurd rfl hstart
  | moveAssign x y =>
    obtain ⟨v, u, hx, hy, ht, ⟨rfl, rfl⟩ | ⟨hxy, rfl⟩⟩ := exchange_cases h
    · exact ⟨fun _ => trivial, fun _ => hd⟩
    · refine ⟨fun _ => trivial, fun _ => (allDescribed_put_put hd hxy).mpr ⟨?_, ?_⟩⟩
      · exact fun hstart => (hd y u hy hstart).withType ht
      · exact fun hstart => absurd rfl hstart
  | reserve x n new =>
    obtain ⟨v, v', hx, hf, rfl⟩ := change_cases h
    split_ifs at hf with ha
    cases hf
    rw [allDescribed_put hd, PVector.described_reserve (hd x v hx) ha]
    simp [KeepsDescribed, hx]
  | resize x n new =>
    obtain ⟨v, v', hx, hf, rfl⟩ := change_cases h
    split_ifs at hf with ha
    cases hf
    rw [allDescribed_put hd, PVector.described_resize (hv x v hx).1 (hd x v hx) ha]
    simp [KeepsDescribed, hx]
  | pushBack x new =>
    obtain ⟨v, v', hx, hf, rfl⟩ := change_cases h
    split_ifs at hf with ha
    cases hf
    rw [allDescribed_put hd, PVector.described_pushBack (hv x v hx).1 (hd x v hx) ha]
    simp [KeepsDescribed, hx]
  | clear x =>
    obtain ⟨v, v', hx, hf, rfl⟩ := change_cases h
    cases hf
    rw [allDescribed_put hd, PVector.described_clear (hv x v hx).1 (hd x v hx)]
    simp [KeepsDescribed, hx]
  | swap x y =>
    obtain ⟨v, u, hx, hy, ht, ⟨rfl, rfl⟩ | ⟨hxy, rfl⟩⟩ := exchange_cases h
    · exact ⟨fun _ _ _ _ _ => Or.inl rfl, fun _ => hd⟩
    · rw [allDescribed_put_put hd hxy]
      constructor
      · rintro ⟨hxd, hyd⟩ v' u' hx' hy'
        cases hx.symm.trans hx'
        cases hy.symm.trans hy'
        exact Or.inr ⟨hxd, hyd⟩
      · intro hk
        exact (hk v u hx hy).resolve_left hxy
  | destroy x =>
    obtain rfl := destroy_cases h
    exact ⟨fun _ => trivial, fun _ z t hz => hd z t (remove_live hz)⟩

theorem always_described_iff (calls : List PVectorCall) :
    Always step AllDescribed empty calls ↔ EachStep step KeepsDescribed empty calls :=
  always_iff_eachStep (I := Valid) (fun _ _ _ hv h => step_valid hv h)
    (fun _ _ _ hv hd h => step_described_iff hv hd h)
    (fun _ _ hz => by cases hz) (fun _ _ hz => by cases hz)

theorem not_always_described :
    ¬ ∀ calls : List PVectorCall, Always step AllDescribed empty calls := by
  intro hall
  obtain ⟨-, hdefault⟩ := hall [.default 0 intType, .pushBack 0 4096]
  obtain ⟨-, hpush⟩ := hdefault _ rfl
  have hdescribed := hpush _ rfl
  obtain ⟨d, hd, hstart, -⟩ := hdescribed 0 _ rfl (by decide)
  cases hd
  revert hstart
  decide

end PVectors

end PickleDevice
