import Mathlib.Logic.Equiv.Basic
import PickleDevice.Library.Refinement
import PickleDevice.VectorRefinement

namespace PickleDevice

open Blocks Ownership

namespace VectorHeap

variable {α : Type} {T : ElementType} {h h' : Heap α} {v u v' u' : PVector} {s t : Sequence α}
  {o : Option (Sequence α)} {w w' : VectorHeap α} {a a' : Sequences α} {x y z n i : ℕ} {new : ℤ}
  {b : Block} {call : VectorCall α}

theorem Related.nothing : Related T (nothing : VectorHeap α) .nothing := by
  constructor
  · exact .empty
  · exact fun x => Or.inl ⟨rfl, rfl⟩
  · intro x y v u _ hx
    cases hx
  · refine ⟨[], List.nodup_nil, Nat.le_refl _, by simp, fun b => ?_⟩
    constructor
    · intro hb
      cases hb
    · rintro (⟨x, v, hx, -⟩ | hb)
      · cases hx
      · cases hb

theorem Related.object (hr : Related T w a) (hx : a.objects x = some o) :
    ∃ v, w.live x = some v ∧ v.elementType = T ∧ Holds T w.heap v o := by
  rcases hr.objects x with ⟨-, hnone⟩ | ⟨v, p, hv, hp, ht, hhold⟩
  · cases hnone.symm.trans hx
  · cases hp.symm.trans hx
    exact ⟨v, hv, ht, hhold⟩

theorem Related.absent (hr : Related T w a) (hx : a.objects x = none) : w.live x = none := by
  rcases hr.objects x with ⟨hnone, -⟩ | ⟨v, p, -, hp, -⟩
  · exact hnone
  · cases hx.symm.trans hp

theorem Related.destroyed (hr : Related T w a) (hx : w.live x = some v)
    (hh : Heap.Replaced T.sizeof (blocks v) [] w.heap h') :
    Related T ⟨h', remove w.live x⟩ { a with objects := remove a.objects x } := by
  obtain ⟨l, hl, hle, hfree, hlive⟩ := hr.lost
  constructor
  · exact hh.sound
  · intro y
    by_cases hyx : y = x
    · subst hyx
      exact Or.inl ⟨remove_self, remove_self⟩
    · simp only [remove_of_ne hyx]
      rcases hr.objects y with hnone | ⟨u, p, hu, hp, htu, hhold⟩
      · exact Or.inl hnone
      · exact Or.inr ⟨u, p, hu, hp, htu,
          hhold.frame htu hh (hr.exclusive x y v u (Ne.symm hyx) hx hu)⟩
  · exact hr.exclusive.remove
  · refine ⟨l, hl, hle, fun b hb => ?_, fun b => ?_⟩
    · rw [held_remove hr.exclusive hx]
      exact fun hheld => hfree b hb hheld.1
    · rw [hh.live b, held_remove hr.exclusive hx, hlive b]
      constructor
      · rintro (⟨hheld | hbl, hnot⟩ | hnil)
        · exact Or.inl ⟨hheld, hnot⟩
        · exact Or.inr hbl
        · cases hnil
      · rintro (⟨hheld, hnot⟩ | hbl)
        · exact Or.inl ⟨Or.inl hheld, hnot⟩
        · exact Or.inl ⟨Or.inr hbl, fun hbv => hfree b hbl ⟨x, v, hx, hbv⟩⟩

theorem Holds.pointers (hv : Holds T h u o) (hs : v.start = u.start) (he : v.endSize = u.endSize)
    (hc : v.endCapacity = u.endCapacity) : Holds T h v o := by
  cases hv with
  | leaked hu => exact .leaked (hs.trans hu)
  | empty s hu hue huc hnil => exact .empty s (hs.trans hu) (he.trans hue) (hc.trans huc) hnil
  | block s hu hlive hue huc hcells =>
    refine .block s ?_ ?_ ?_ ?_ ?_ <;> rw [hs]
    · exact hu
    · exact hlive
    · exact he.trans hue
    · exact hc.trans huc
    · exact hcells

theorem blocks_pointers (ht : v.elementType = u.elementType) (hs : v.start = u.start)
    (hc : v.endCapacity = u.endCapacity) : blocks v = blocks u := by
  simp only [blocks, PVector.capacity, ht, hs, hc]

theorem Related.transfer (hr : Related T w a) (hx : w.live x = none) (hy : w.live y = some u)
    (hu : Holds T w.heap u (some s)) (ht : u.elementType = T) (htv : v.elementType = T)
    (hs : v.start = u.start) (he : v.endSize = u.endSize) (hc : v.endCapacity = u.endCapacity)
    (htu : u'.elementType = T) (hs' : u'.start = 0) (he' : u'.endSize = 0)
    (hc' : u'.endCapacity = 0) :
    Related T { w with live := put (put w.live x v) y u' }
      { a with objects := put (put a.objects x (some s)) y (some (.uninitialized 0)) } := by
  have hxy : x ≠ y := by
    rintro rfl
    cases hx.symm.trans hy
  have hsame : blocks v = blocks u := blocks_pointers (htv.trans ht.symm) hs hc
  obtain ⟨l, hl, hle, hfree, hlive⟩ := hr.lost
  constructor
  · exact hr.sound
  · intro z
    by_cases hzy : z = y
    · subst hzy
      exact Or.inr ⟨u', _, put_self, put_self, htu, .empty _ hs' he' hc' rfl⟩
    · simp only [put_of_ne hzy]
      by_cases hzx : z = x
      · subst hzx
        exact Or.inr ⟨v, _, put_self, put_self, htv, hu.pointers hs he hc⟩
      · simp only [put_of_ne hzx]
        exact hr.objects z
  · apply hr.exclusive.transfer hxy hy
    · rw [hsame]
      exact List.Subset.refl _
    · exact blocks_null hs'
  · have hheld : ∀ b, Held blocks (put (put w.live x v) y u') b ↔ Held blocks w.live b :=
      fun b => held_transfer hxy hx hy hsame (blocks_null hs')
    exact ⟨l, hl, hle, fun b hb => (hheld b).not.mpr (hfree b hb), fun b => by rw [hlive b, hheld b]⟩

theorem swapped (hx : w.live x = some v) (hy : w.live y = some u) (hv' : blocks v' = blocks u)
    (hu' : blocks u' = blocks v) {q : PVector} (hz : put (put w.live x v') y u' z = some q) :
    ∃ r, w.live (Equiv.swap x y z) = some r ∧ blocks q = blocks r := by
  rcases put_cases hz with ⟨rfl, rfl⟩ | ⟨hzy, hz⟩
  · rw [Equiv.swap_apply_right]
    exact ⟨v, hx, hu'⟩
  · rcases put_cases hz with ⟨rfl, rfl⟩ | ⟨hzx, hz⟩
    · rw [Equiv.swap_apply_left]
      exact ⟨u, hy, hv'⟩
    · rw [Equiv.swap_apply_of_ne_of_ne hzx hzy]
      exact ⟨q, hz, rfl⟩

theorem Related.swap (hr : Related T w a) (hxy : x ≠ y) (hx : a.objects x = some (some s))
    (hy : a.objects y = some (some t)) (hv : w.live x = some v) (hu : w.live y = some u) :
    Related T { w with live := put (put w.live x (v.swap u).1) y (v.swap u).2 }
      { a with objects := put (put a.objects x (some t)) y (some s) } := by
  obtain ⟨v₀, hv₀, htv, hholdv⟩ := hr.object hx
  obtain ⟨u₀, hu₀, htu, hholdu⟩ := hr.object hy
  cases hv.symm.trans hv₀
  cases hu.symm.trans hu₀
  have hbv : blocks (v.swap u).1 = blocks u := blocks_pointers (htv.trans htu.symm) rfl rfl
  have hbu : blocks (v.swap u).2 = blocks v := blocks_pointers (htu.trans htv.symm) rfl rfl
  have hheld : ∀ b, Held blocks (put (put w.live x (v.swap u).1) y (v.swap u).2) b ↔
      Held blocks w.live b := by
    intro b
    constructor
    · rintro ⟨z, q, hz, hb⟩
      obtain ⟨r, hr', hqr⟩ := swapped hv hu hbv hbu hz
      exact ⟨_, r, hr', hqr ▸ hb⟩
    · rintro ⟨z, q, hz, hb⟩
      by_cases hzx : z = x
      · subst hzx
        cases hv.symm.trans hz
        exact ⟨y, _, put_self, hbu ▸ hb⟩
      · by_cases hzy : z = y
        · subst hzy
          cases hu.symm.trans hz
          exact ⟨x, _, (put_of_ne (Ne.symm hzx)).trans put_self, hbv ▸ hb⟩
        · exact ⟨z, q, (put_of_ne hzy).trans ((put_of_ne hzx).trans hz), hb⟩
  obtain ⟨l, hl, hle, hfree, hlive⟩ := hr.lost
  constructor
  · exact hr.sound
  · intro z
    by_cases hzy : z = y
    · subst hzy
      exact Or.inr ⟨_, _, put_self, put_self, htu, hholdv.pointers rfl rfl rfl⟩
    · simp only [put_of_ne hzy]
      by_cases hzx : z = x
      · subst hzx
        exact Or.inr ⟨_, _, put_self, put_self, htv, hholdu.pointers rfl rfl rfl⟩
      · simp only [put_of_ne hzx]
        exact hr.objects z
  · intro p q f g hpq hf hg
    obtain ⟨f', hf', hff⟩ := swapped hv hu hbv hbu hf
    obtain ⟨g', hg', hgg⟩ := swapped hv hu hbv hbu hg
    rw [hff, hgg]
    exact hr.exclusive _ _ f' g' ((Equiv.swap x y).injective.ne hpq) hf' hg'
  · exact ⟨l, hl, hle, fun b hb => (hheld b).not.mpr (hfree b hb), fun b => by rw [hlive b, hheld b]⟩

theorem Related.leak (hr : Related T w a) (hx : w.live x = some v) (ht : v.elementType = T) :
    Related T { w with live := put w.live x v.leak } ⟨put a.objects x none, a.lost + 1⟩ := by
  obtain ⟨l, hl, hle, hfree, hlive⟩ := hr.lost
  have hnil : blocks v.leak = [] := blocks_null rfl
  have hheld : ∀ b, Held blocks (put w.live x v.leak) b ↔ Held blocks w.live b ∧ b ∉ blocks v := by
    intro b
    rw [← held_remove hr.exclusive hx]
    constructor
    · rintro ⟨y, u, hy, hb⟩
      rcases put_cases hy with ⟨-, rfl⟩ | ⟨hyx, hy⟩
      · simp [hnil] at hb
      · exact ⟨y, u, (remove_of_ne hyx).trans hy, hb⟩
    · rintro ⟨y, u, hy, hb⟩
      obtain ⟨hyx, hy⟩ := remove_cases hy
      exact ⟨y, u, (put_of_ne hyx).trans hy, hb⟩
  have hone : (blocks v).length ≤ 1 ∧ (blocks v).Nodup := by
    unfold blocks
    split <;> simp
  constructor
  · exact hr.sound
  · intro z
    by_cases hzx : z = x
    · subst hzx
      exact Or.inr ⟨_, none, put_self, put_self, ht, .leaked rfl⟩
    · simp only [put_of_ne hzx]
      exact hr.objects z
  · apply hr.exclusive.replace hx
    simp [hnil]
  · refine ⟨blocks v ++ l, ?_, ?_, fun b hb => ?_, fun b => ?_⟩
    · apply hone.2.append hl
      intro b hbv hbl
      exact hfree b hbl ⟨x, v, hx, hbv⟩
    · simp only [List.length_append]
      omega
    · rw [hheld b]
      rintro ⟨hh, hnot⟩
      rcases List.mem_append.mp hb with hbv | hbl
      · exact hnot hbv
      · exact hfree b hbl hh
    · rw [hlive b, hheld b, List.mem_append]
      constructor
      · rintro (hh | hbl)
        · by_cases hbv : b ∈ blocks v
          · exact Or.inr (Or.inl hbv)
          · exact Or.inl ⟨hh, hbv⟩
        · exact Or.inr (Or.inr hbl)
      · rintro (⟨hh, -⟩ | hbv | hbl)
        · exact Or.inl hh
        · exact Or.inl ⟨x, v, hx, hbv⟩
        · exact Or.inr hbl

theorem Related.construct {cells : Option (Heap α)} (hr : Related T w a)
    (ha : a.construct x s = some a') (ht : v'.elementType = T)
    (hc : ∃ h', cells = some h' ∧ Heap.Replaced T.sizeof [] (blocks v') w.heap h' ∧
      Holds T h' v' (some s)) :
    ∃ w', w.construct x v' cells = some w' ∧ Related T w' a' := by
  unfold Sequences.construct at ha
  split at ha
  case h_1 => cases ha
  case h_2 hx =>
    cases ha
    obtain ⟨h', rfl, hrep, hhold⟩ := hc
    refine ⟨⟨h', put w.live x v'⟩, ?_, hr.replace (Or.inl ⟨hr.absent hx, rfl⟩) hrep ht hhold⟩
    simp [VectorHeap.construct, hr.absent hx]

theorem Related.change {f : Sequence α → Option (Sequence α)} {g : PVector → PVector}
    {cells : Heap α → PVector → Option (Heap α)} (hr : Related T w a)
    (ha : a.change x f = some a') (htype : ∀ v, (g v).elementType = v.elementType)
    (hc : ∀ v s s', w.live x = some v → v.elementType = T → Holds T w.heap v (some s) →
      f s = some s' → ∃ h', cells w.heap v = some h' ∧
        Heap.Replaced T.sizeof (blocks v) (blocks (g v)) w.heap h' ∧ Holds T h' (g v) (some s')) :
    ∃ w', w.change x g cells = some w' ∧ Related T w' a' := by
  unfold Sequences.change at ha
  split at ha
  case h_1 s hx =>
    obtain ⟨s', hf, rfl⟩ := Option.map_eq_some_iff.mp ha
    obtain ⟨v, hv, ht, hhold⟩ := hr.object hx
    obtain ⟨h', hcells, hrep, hhold'⟩ := hc v s s' hv ht hhold hf
    refine ⟨⟨h', put w.live x (g v)⟩, ?_, ?_⟩
    · simp [VectorHeap.change, hv, hcells]
    · exact hr.replace (Or.inr ⟨v, hv, rfl⟩) hrep ((htype v).trans ht) hhold'
  case h_2 => cases ha

theorem reserve_elementType : (v.reserve n new).elementType = v.elementType := by
  unfold PVector.reserve
  split <;> rfl

theorem pushBack_elementType : (v.pushBack new).elementType = v.elementType := by
  unfold PVector.pushBack
  split
  · exact reserve_elementType
  · rfl

theorem Related.moveAssign (hr : Related T w a) (hxy : x ≠ y) (hx : a.objects x = some o)
    (hy : a.objects y = some (some s)) (hv : w.live x = some v) (hu : w.live y = some u) :
    ∃ h', v.releaseCells w.heap = some h' ∧
      Related T ⟨h', put (put w.live x (v.moveAssign u).1) y (v.moveAssign u).2⟩
        { a with objects := put (put a.objects x (some s)) y (some (.uninitialized 0)) } := by
  obtain ⟨v₀, hv₀, htv, hholdv⟩ := hr.object hx
  obtain ⟨u₀, hu₀, htu, -⟩ := hr.object hy
  cases hv.symm.trans hv₀
  cases hu.symm.trans hu₀
  -- first the target is destroyed, then it is made anew from the other vector
  obtain ⟨h', hrel, hrep⟩ := release_spec hholdv htv hr.sound
  have hr' := hr.destroyed hv hrep
  have hy' : remove a.objects x y = some (some s) := (remove_of_ne (Ne.symm hxy)).trans hy
  obtain ⟨u₁, hu₁, -, hholdu⟩ := hr'.object hy'
  have hu' : remove w.live x y = some u := (remove_of_ne (Ne.symm hxy)).trans hu
  cases hu'.symm.trans hu₁
  refine ⟨h', hrel, ?_⟩
  have htrans : Related T
      ⟨h', put (put (remove w.live x) x (v.moveAssign u).1) y (v.moveAssign u).2⟩
      { a with objects := put (put (remove a.objects x) x (some s)) y (some (.uninitialized 0)) } :=
    hr'.transfer remove_self hu' hholdu htu htv rfl rfl rfl htu rfl rfl rfl
  simpa only [put_remove] using htrans

theorem Related.step_sized (hr : Related T w a) (hans : w.Answered T (.sized x n new))
    (hs : a.step (.sized x n new) = some a') :
    ∃ w', w.step T (.sized x n new) = some w' ∧ Related T w' a' := by
  have hcan := hans n new rfl
  refine hr.construct hs rfl ⟨_, (newArray_spec hr.sound hcan).1, ?_⟩
  rw [← Sequence.all_replicate]
  apply storage_spec hr.sound hcan (by simp) .refl
  intro i hi
  rw [Heap.alloc_cells_new hi, List.getElem?_replicate, if_pos hi]

theorem Related.step_copied {j : ℕ} (hr : Related T w a) (hans : w.Answered T (.copied x y i j new))
    (hs : a.step (.copied x y i j new) = some a') :
    ∃ w', w.step T (.copied x y i j new) = some w' ∧ Related T w' a' := by
  obtain ⟨s, hy, hij, hj, hconstruct⟩ := Sequences.step_copied hs
  obtain ⟨u, hu, -, hhold⟩ := hr.object hy
  simp only [VectorHeap.step, hu, if_pos hij]
  apply hr.construct hconstruct rfl
  apply copied_spec hhold hr.sound hij hj
  exact hans _ new (by simp [allocation, hu])

theorem Related.step_moved (hr : Related T w a) (hs : a.step (.moved x y) = some a') :
    ∃ w', w.step T (.moved x y) = some w' ∧ Related T w' a' := by
  obtain ⟨s, hx, hy, rfl⟩ := Sequences.step_moved hs
  obtain ⟨u, hu, ht, hhold⟩ := hr.object hy
  have hx' := hr.absent hx
  refine ⟨{ w with live := put (put w.live x u.moved.1) y u.moved.2 }, ?_, ?_⟩
  · simp [VectorHeap.step, hx', hu]
  · exact hr.transfer hx' hu hhold ht ht rfl rfl rfl ht rfl rfl rfl

theorem Related.step_moveAssign (hr : Related T w a) (hs : a.step (.moveAssign x y) = some a') :
    ∃ w', w.step T (.moveAssign x y) = some w' ∧ Related T w' a' := by
  obtain ⟨o, s, hx, hy, hcase⟩ := Sequences.step_moveAssign hs
  obtain ⟨v, hv, -, -⟩ := hr.object hx
  obtain ⟨u, hu, -, -⟩ := hr.object hy
  rcases hcase with ⟨hxy, rfl⟩ | ⟨hxy, rfl⟩
  · exact ⟨w, by simp [VectorHeap.step, hu, hxy], hr⟩
  · obtain ⟨h', hrel, hr'⟩ := hr.moveAssign hxy hx hy hv hu
    exact ⟨_, by simp [VectorHeap.step, hv, hu, hxy, hrel], hr'⟩

theorem Related.step_reserve (hr : Related T w a) (hans : w.Answered T (.reserve x n new))
    (hs : a.step (.reserve x n new) = some a') :
    ∃ w', w.step T (.reserve x n new) = some w' ∧ Related T w' a' := by
  simp only [VectorHeap.step]
  apply hr.change (g := fun v => v.reserve n new) hs fun _ => reserve_elementType
  rintro v s s' hv ht hhold hf
  cases hf
  apply reserve_spec hhold ht hr.sound
  intro hn
  exact hans n new (by simp [allocation, hv, hn])

theorem Related.step_resize (hr : Related T w a) (hans : w.Answered T (.resize x n new))
    (hs : a.step (.resize x n new) = some a') :
    ∃ w', w.step T (.resize x n new) = some w' ∧ Related T w' a' := by
  simp only [VectorHeap.step]
  apply hr.change (g := fun v => v.resize n new) hs fun _ => reserve_elementType
  rintro v s s' hv ht hhold hf
  cases hf
  have hcan : v.capacity < n → PVector.CanAnswer T w.heap n new :=
    fun hn => hans n new (by simp [allocation, hv, hn])
  obtain ⟨h', hcells, hrep, hhold'⟩ := reserve_spec hhold ht hr.sound hcan
  exact ⟨h', hcells, hrep, hhold'.withSize (reserve_elementType.trans ht) (s.resize n).size_le⟩

theorem Related.step_pushBack {val : α} (hr : Related T w a)
    (hans : w.Answered T (.pushBack x val new)) (hs : a.step (.pushBack x val new) = some a') :
    ∃ w', w.step T (.pushBack x val new) = some w' ∧ Related T w' a' := by
  simp only [VectorHeap.step]
  apply hr.change (g := fun v => v.pushBack new) hs fun _ => pushBack_elementType
  rintro v s s' hv ht hhold hf
  cases hf
  apply pushBack_spec hhold ht hr.sound
  intro hfull
  exact hans _ new (by simp [allocation, hv, hfull])

theorem Related.step_assign {val : α} (hr : Related T w a)
    (hs : a.step (.assign x n val) = some a') :
    ∃ w', w.step T (.assign x n val) = some w' ∧ Related T w' a' := by
  simp only [VectorHeap.step]
  apply hr.change (g := id) hs fun _ => rfl
  intro v s s' hv ht hhold hf
  split_ifs at hf with hn
  cases hf
  rw [PVector.assignCells, ht]
  exact assign_spec _ hhold ht hr.sound (hn.trans_le s.size_le)

theorem Related.step_clear (hr : Related T w a) (hs : a.step (.clear x) = some a') :
    ∃ w', w.step T (.clear x) = some w' ∧ Related T w' a' := by
  simp only [VectorHeap.step]
  apply hr.change (g := PVector.clear) hs fun _ => rfl
  rintro v s s' hv ht hhold hf
  cases hf
  refine ⟨w.heap, rfl, .refl hr.sound (hhold.blocks_subset ht), ?_⟩
  have hsize := hhold.withSize ht (Nat.zero_le _)
  simpa [PVector.clear, Sequence.clear] using hsize

theorem Related.step_swap (hr : Related T w a) (hs : a.step (.swap x y) = some a') :
    ∃ w', w.step T (.swap x y) = some w' ∧ Related T w' a' := by
  obtain ⟨s, t, hx, hy, hcase⟩ := Sequences.step_swap hs
  obtain ⟨v, hv, -, -⟩ := hr.object hx
  obtain ⟨u, hu, -, -⟩ := hr.object hy
  rcases hcase with ⟨hxy, rfl⟩ | ⟨hxy, rfl⟩
  · exact ⟨w, by simp [VectorHeap.step, hu, hxy], hr⟩
  · exact ⟨_, by simp [VectorHeap.step, hv, hu, hxy], hr.swap hxy hx hy hv hu⟩

theorem Related.step_destroy (hr : Related T w a) (hs : a.step (.destroy x) = some a') :
    ∃ w', w.step T (.destroy x) = some w' ∧ Related T w' a' := by
  obtain ⟨o, hx, rfl⟩ := Sequences.step_destroy hs
  obtain ⟨v, hv, ht, hhold⟩ := hr.object hx
  obtain ⟨h', hrel, hrep⟩ := release_spec hhold ht hr.sound
  exact ⟨_, by simp [VectorHeap.step, hv, hrel], hr.destroyed hv hrep⟩

theorem Related.step (hr : Related T w a) (hans : w.Answered T call)
    (hs : a.step call = some a') : ∃ w', w.step T call = some w' ∧ Related T w' a' := by
  cases call with
  | default x =>
    apply hr.construct hs rfl
    refine ⟨w.heap, rfl, ?_, .empty _ rfl rfl rfl rfl⟩
    rw [blocks_null rfl]
    exact .refl hr.sound (by simp)
  | sized x n new => exact hr.step_sized hans hs
  | filled x n val new => exact hr.construct hs rfl (filled_spec hr.sound (hans n new rfl))
  | copied x y i j new => exact hr.step_copied hans hs
  | moved x y => exact hr.step_moved hs
  | moveAssign x y => exact hr.step_moveAssign hs
  | reserve x n new => exact hr.step_reserve hans hs
  | resize x n new => exact hr.step_resize hans hs
  | pushBack x val new => exact hr.step_pushBack hans hs
  | assign x n val => exact hr.step_assign hs
  | fill x val =>
    simp only [VectorHeap.step]
    apply hr.change (g := id) hs fun _ => rfl
    rintro v s s' hv ht hhold hf
    cases hf
    exact fill_spec hhold ht hr.sound
  | clear x => exact hr.step_clear hs
  | swap x y => exact hr.step_swap hs
  | leak x =>
    obtain ⟨s, hx, rfl⟩ := Sequences.step_leak hs
    obtain ⟨v, hv, ht, -⟩ := hr.object hx
    exact ⟨_, by simp [VectorHeap.step, VectorHeap.change, hv], hr.leak hv ht⟩
  | destroy x => exact hr.step_destroy hs

theorem Holds.read_eq (hv : Holds T h v (some s)) (ht : v.elementType = T) (hi : i < s.size) :
    v.read h i = s.contents[i]? := by
  have hle := s.size_le
  rw [PVector.read, ht, Sequence.contents, List.getElem?_take_of_lt hi]
  cases hv with
  | empty _ hs he hc hnil =>
    simp [hnil] at hle
    omega
  | block _ hs hlive he hc hcells =>
    have hi' : i < s.cells.length := by omega
    rw [hcells i hi']
    exact if_pos (Heap.valid_cell hlive hi')

theorem run_related {calls : List (VectorCall α)}
    (hans : Refinement.Answered (step T) (Answered T) nothing calls)
    (h : Runs.run Sequences.step .nothing calls = some a) :
    ∃ w, Runs.run (step T) nothing calls = some w ∧ Related T w a :=
  Refinement.run_exists (fun _ _ _ _ hr he hs => hr.step he hs) .nothing hans h

theorem run_lost {calls : List (VectorCall α)} (h : Runs.run Sequences.step a calls = some a') :
    a'.lost = a.lost + calls.countP VectorCall.isLeak := by
  induction calls generalizing a with
  | nil =>
    cases h
    rfl
  | cons call calls ih =>
    obtain ⟨c, hc, h⟩ := Option.bind_eq_some_iff.mp h
    rw [ih h, (Sequences.step_effect hc).2, List.countP_cons (l := calls), List.countP_singleton]
    omega

/-- At every moment the live arrays are those of the vectors, no array of two vectors, and leaked
ones, no more than `leak()` was called; each array allocated was released once or is live. -/
theorem arrays_accounted {calls : List (VectorCall α)}
    (hans : Refinement.Answered (step T) (Answered T) nothing calls)
    (h : Runs.run Sequences.step .nothing calls = some a) :
    ∃ (w : VectorHeap α) (leaked : List Block), Runs.run (step T) nothing calls = some w ∧
      w.heap.ledger.given.Perm (w.heap.ledger.released ++ w.heap.ledger.live) ∧
      Exclusive blocks w.live ∧ leaked.length ≤ calls.countP VectorCall.isLeak ∧
      (∀ b, b ∈ w.heap.ledger.live ↔ Held blocks w.live b ∨ b ∈ leaked) ∧
      ((∀ x, a.objects x = none) → w.heap.ledger.live.Perm leaked) := by
  obtain ⟨w, hw, hr⟩ := run_related hans h
  obtain ⟨l, hl, hle, -, hlive⟩ := hr.lost
  have hlost : a.lost = calls.countP VectorCall.isLeak := (run_lost h).trans (Nat.zero_add _)
  refine ⟨w, l, hw, hr.sound.balanced.perm, hr.exclusive, hlost ▸ hle, hlive, fun hnone => ?_⟩
  apply (List.perm_ext_iff_of_nodup hr.sound.balanced.nodup hl).mpr
  intro b
  rw [hlive b]
  constructor
  · rintro (⟨x, v, hx, -⟩ | hb)
    · cases (hr.absent (hnone x)).symm.trans hx
    · exact hb
  · exact Or.inr

theorem arrays_accounted_destroyed : ∃ (w : VectorHeap ℕ) (leaked : List Block),
    Runs.run (step intType) nothing [.default 0, .pushBack 0 7 4096, .destroy 0] = some w ∧
      leaked.length ≤ 0 ∧ w.heap.ledger.live.Perm leaked := by
  have hans : Refinement.Answered (step intType) (Answered intType) (nothing : VectorHeap ℕ)
      [.default 0, .pushBack 0 7 4096, .destroy 0] := by
    refine ⟨fun n new h => ?_, fun t ht => ?_⟩
    · cases h
    cases ht
    refine ⟨fun n new h => ?_, fun t ht => ?_⟩
    · cases h
      decide
    refine ⟨fun n new h => ?_, fun u hu => trivial⟩
    cases h
  obtain ⟨w, l, hw, -, -, hle, -, hperm⟩ := arrays_accounted hans rfl
  refine ⟨w, l, hw, hle, hperm fun x => ?_⟩
  by_cases hx : x = 0
  · exact hx ▸ remove_self
  · exact (remove_of_ne hx).trans ((put_of_ne hx).trans (put_of_ne hx))

end VectorHeap

end PickleDevice
