import PickleDevice.GraphJobs
import PickleDevice.Library.Ownership
import PickleDevice.Library.Runs

namespace PickleDevice

open StateEffect Store Runs Ownership

inductive LiveContainer
  | pvector (v : PVector)
  | csrGraph (g : CSRGraph)
  | slidingQueue (q : SlidingQueue)

inductive ContainerConstructor
  | pvectorDefault (T : ElementType)
  | pvectorSized (T : ElementType) (numElements : ℕ) (new : ℤ)
  | pvectorFilled (T : ElementType) (numElements : ℕ) (new : ℤ)
  | pvectorCopied (T : ElementType) (copyBegin copyEnd new : ℤ)
  | graphDefault (T : ElementType)
  | graphUndirected (mem : Memory) (T : ElementType) (numNodes index neighs : ℤ)
  | graphDirected (mem : Memory) (T : ElementType)
      (numNodes outIndex outNeighs inIndex inNeighs : ℤ)
  | queueSized (T : ElementType) (sharedSize : ℕ) (new : ℤ)

def ContainerConstructor.construct : ContainerConstructor → Action LiveContainer
  | pvectorDefault T => do return .pvector (← PVector.default T)
  | pvectorSized T n new => do return .pvector (← PVector.sized T n new)
  | pvectorFilled T n new => do return .pvector (← PVector.filled T n new)
  | pvectorCopied T b e new => do return .pvector (← PVector.copied T b e new)
  | graphDefault T => return .csrGraph (CSRGraph.default T)
  | graphUndirected mem T n index neighs => do
    return .csrGraph (← CSRGraph.undirected mem T n index neighs)
  | graphDirected mem T n outIndex outNeighs inIndex inNeighs => do
    return .csrGraph (← CSRGraph.fromDirected mem T n outIndex outNeighs inIndex inNeighs)
  | queueSized T n new => do return .slidingQueue (← SlidingQueue.sized T n new)

namespace LiveContainer

def descriptors : LiveContainer → List ℕ
  | pvector v => v.getArrayDescriptor.toList
  | csrGraph g => g.getInIndexArrayDescriptor.toList ++ g.getOutIndexArrayDescriptor.toList ++
      g.getInNeighborsArrayDescriptor.toList ++ g.getOutNeighborsArrayDescriptor.toList
  | slidingQueue q => q.getArrayDescriptor.toList

def moved : LiveContainer → LiveContainer × LiveContainer
  | pvector v => (pvector v.moved.1, pvector v.moved.2)
  | csrGraph g => (csrGraph g.moved.1, csrGraph g.moved.2)
  | slidingQueue q => (slidingQueue q.moved.1, slidingQueue q.moved.2)

def moveAssign : LiveContainer → LiveContainer → Option (LiveContainer × LiveContainer)
  | pvector v, pvector u =>
    if v.elementType = u.elementType then
      some (pvector (v.moveAssign u).1, pvector (v.moveAssign u).2)
    else none
  | csrGraph g, csrGraph h =>
    if g.destType = h.destType then
      some (csrGraph (g.moveAssign h).1.1, csrGraph (g.moveAssign h).1.2)
    else none
  | slidingQueue q, slidingQueue r =>
    if q.elementType = r.elementType then
      some (slidingQueue (q.moveAssign r).1, slidingQueue (q.moveAssign r).2)
    else none
  | _, _ => none

def swap : LiveContainer → LiveContainer → Option (LiveContainer × LiveContainer)
  | pvector v, pvector u =>
    if v.elementType = u.elementType then some (pvector (v.swap u).1, pvector (v.swap u).2) else none
  | _, _ => none

end LiveContainer

structure Containers where
  store : Store
  live : Objects LiveContainer

/-- Calls on the objects `x` and `y`. Other uses of the library may ask for the id of any
descriptor there is. -/
inductive ContainerCall
  | construct (x : ℕ) (c : ContainerConstructor)
  | moved (x y : ℕ)
  | moveAssign (x y : ℕ)
  | swap (x y : ℕ)
  | destroy (x : ℕ)
  | getArrayId (p : ℕ)

def arrayIds (p q : Ptr) : Action (UInt64 × UInt64) := do
  let i ← getArrayId p
  let j ← getArrayId q
  return (i, j)

namespace Containers

def empty : Containers := ⟨.init, fun _ => none⟩

def exchange (w : Containers) (x y : ℕ)
    (f : LiveContainer → LiveContainer → Option (LiveContainer × LiveContainer)) : Option Containers :=
  match w.live x, w.live y with
  | some v, some u =>
    -- `if (this != &other)`; a swap with itself changes nothing either.
    if x = y then some w
    else (f v u).map fun r => { w with live := put (put w.live x r.1) y r.2 }
  | _, _ => none

def step (w : Containers) : ContainerCall → Option Containers
  | .construct x c =>
    match w.live x, run c.construct w.store with
    | none, (.ok v, s) => some ⟨s, put w.live x v⟩
    | _, _ => none
  | .moved x y =>
    match w.live x, w.live y with
    | none, some u => some { w with live := put (put w.live x u.moved.1) y u.moved.2 }
    | _, _ => none
  | .moveAssign x y => w.exchange x y LiveContainer.moveAssign
  | .swap x y => w.exchange x y LiveContainer.swap
  | .destroy x =>
    match w.live x with
    | some _ => some { w with live := remove w.live x }
    | none => none
  | .getArrayId p =>
    if p < w.store.next then some { w with store := (run (getArrayId p) w.store).2 } else none

def HandsOutDistinct (w : Containers) : Prop :=
  ∀ x y v u, x ≠ y → w.live x = some v → w.live y = some u →
    ∀ p ∈ v.descriptors, ∀ q ∈ u.descriptors,
      p ≠ q ∧ ∀ i j t, run (arrayIds p q) w.store = (.ok (i, j), t) → i ≠ j

/-- The call does not construct a container from one that holds a descriptor and keeps it, nor
assign one queue to another. -/
def SharesNothing (w : Containers) : ContainerCall → Prop
  | .moved _ y => ∀ u, w.live y = some u → u.descriptors = []
  | .moveAssign x y => ∀ q, w.live y = some (.slidingQueue q) → x = y ∨ q.arrayDescriptor = none
  | _ => True

def HandsOutApart (w : Containers) : Prop := Exclusive LiveContainer.descriptors w.live

structure Valid (w : Containers) : Prop where
  ids : w.store.IdsValid
  allocated : Each (fun v => ∀ p ∈ v.descriptors, p < w.store.next) w.live

end Containers

theorem run_arrayIds (p q : Ptr) (s : Store) : run (arrayIds p q) s =
    (.ok (s.idOf p, (s.withId p).idOf q), (s.withId p).withId q) := by
  rw [arrayIds, run_bind_ok (run_getArrayId p s), run_bind_ok (run_getArrayId q _)]
  rfl

theorem CSRGraph.constructedStore_nextID_le (g : CSRGraph) (s : Store) :
    (g.constructedStore s).nextID ≤ s.nextID + 2 := by
  have hin := (g.describedStore s).withId_nextID_le (s.next + 2)
  have hout := ((g.describedStore s).linked s.next (s.next + 2)).withId_nextID_le (s.next + 3)
  have hn : (g.describedStore s).nextID = s.nextID := by simp [describedStore]
  rw [constructedStore, linked_nextID]
  rw [linked_nextID] at hout
  omega

variable {s t : Store} {p q : ℕ} {v u v' u' : LiveContainer}

theorem ids_ne (hs : s.IdsValid) (hpq : p ≠ q) (hw : s.nextID + 2 ≤ 2 ^ 64) :
    s.idOf p ≠ (s.withId p).idOf q := by
  have hsp := idsValid_withId p hs
  have hle := s.withId_nextID_le p
  have hle' := (s.withId p).withId_nextID_le q
  have hid := idOf_ne_unassigned p hs (by omega)
  have hpid : (((s.withId p).withId q).desc p).arrayId = s.idOf p := by
    rw [withId_desc_of_ne hpq, withId_arrayId]
  intro he
  apply hpq
  apply (idsValid_withId q hsp).distinct
  · omega
  · rwa [hpid]
  · rw [hpid, withId_arrayId, he]

structure Fresh (s : Store) (v : LiveContainer) (t : Store) : Prop where
  evolves : Evolves s t
  nextID_le : t.nextID ≤ s.nextID + 2
  fresh : ∀ p ∈ v.descriptors, s.next ≤ p ∧ p < t.next

theorem Fresh.described {start stop size : UInt64} (hv : v.descriptors = [s.next]) :
    Fresh s v (s.allocDescribed start stop size) := by
  constructor
  · exact (keepsLinks_allocDescribed s start stop size).evolves
  · rw [allocDescribed_nextID]
    omega
  · rw [hv]
    simp

theorem LiveContainer.mem_descriptors_withDescriptors {g : CSRGraph} {n : ℕ} :
    p ∈ (csrGraph (g.withDescriptors n)).descriptors ↔ n ≤ p ∧ p < n + 4 := by
  simp only [descriptors, CSRGraph.withDescriptors, CSRGraph.getInIndexArrayDescriptor,
    CSRGraph.getOutIndexArrayDescriptor, CSRGraph.getInNeighborsArrayDescriptor,
    CSRGraph.getOutNeighborsArrayDescriptor, Option.toList_some, List.cons_append, List.nil_append,
    List.mem_cons, List.not_mem_nil, or_false]
  omega

theorem Fresh.graph (g : CSRGraph) (s : Store) :
    Fresh s (.csrGraph (g.withDescriptors s.next)) (g.constructedStore s) := by
  constructor
  · exact g.constructedStore_evolves s
  · exact g.constructedStore_nextID_le s
  · intro p hp
    rw [CSRGraph.constructedStore_next]
    exact LiveContainer.mem_descriptors_withDescriptors.mp hp

theorem constructed_graph {g : CSRGraph}
    (h : run (do return LiveContainer.csrGraph (← g.constructArrayDescriptors)) s = (.ok v, t)) :
    v = .csrGraph (g.withDescriptors s.next) ∧ t = g.constructedStore s := by
  rw [run_bind_ok (CSRGraph.run_constructArrayDescriptors g s)] at h
  cases h
  exact ⟨rfl, rfl⟩

theorem construct_fresh {c : ContainerConstructor} (h : run c.construct s = (.ok v, t)) :
    Fresh s v t := by
  cases c with
  | pvectorDefault T =>
    cases h
    refine ⟨.single (.newDescriptor s), ?_, ?_⟩
    · exact Nat.le_add_right _ _
    · simp [LiveContainer.descriptors, PVector.getArrayDescriptor]
  | pvectorSized T n new =>
    cases h
    exact .described rfl
  | pvectorFilled T n new =>
    cases h
    exact .described rfl
  | pvectorCopied T b e new =>
    cases h
    exact .described rfl
  | graphDefault T =>
    cases h
    exact ⟨.refl, Nat.le_add_right _ _, by simp [LiveContainer.descriptors, CSRGraph.default,
      CSRGraph.getInIndexArrayDescriptor, CSRGraph.getOutIndexArrayDescriptor,
      CSRGraph.getInNeighborsArrayDescriptor, CSRGraph.getOutNeighborsArrayDescriptor]⟩
  | graphUndirected mem T n index neighs =>
    obtain ⟨rfl, rfl⟩ := constructed_graph h
    exact .graph _ s
  | graphDirected mem T n outIndex outNeighs inIndex inNeighs =>
    obtain ⟨rfl, rfl⟩ := constructed_graph h
    exact .graph _ s
  | queueSized T n new =>
    cases h
    exact .described rfl

namespace LiveContainer

theorem moved_descriptors (v : LiveContainer) :
    v.moved.1.descriptors = v.descriptors ∧ v.moved.2.descriptors = v.descriptors := by
  cases v <;> exact ⟨rfl, rfl⟩

theorem moveAssign_descriptors (h : v.moveAssign u = some (v', u')) :
    v'.descriptors = u.descriptors ∧
      ((∃ q, u = .slidingQueue q ∧ u'.descriptors = u.descriptors) ∨
        (∀ q, u ≠ .slidingQueue q) ∧ u'.descriptors = []) := by
  cases v <;> cases u <;> simp only [moveAssign, Option.ite_none_right_eq_some, Option.some.injEq,
    Prod.mk.injEq, reduceCtorEq] at h
  · obtain ⟨-, rfl, rfl⟩ := h
    exact ⟨rfl, Or.inr ⟨by simp, rfl⟩⟩
  · obtain ⟨-, rfl, rfl⟩ := h
    exact ⟨rfl, Or.inr ⟨by simp, rfl⟩⟩
  · obtain ⟨-, rfl, rfl⟩ := h
    exact ⟨rfl, Or.inl ⟨_, rfl, rfl⟩⟩

theorem swap_descriptors (h : v.swap u = some (v', u')) :
    v'.descriptors = v.descriptors ∧ u'.descriptors = u.descriptors := by
  cases v <;> cases u <;> simp only [swap, Option.ite_none_right_eq_some, Option.some.injEq,
    Prod.mk.injEq, reduceCtorEq] at h
  obtain ⟨-, rfl, rfl⟩ := h
  exact ⟨rfl, rfl⟩

end LiveContainer

namespace Containers

variable {w w' : Containers} {x y n : ℕ}

theorem exchange_cases {f : LiveContainer → LiveContainer → Option (LiveContainer × LiveContainer)}
    (h : w.exchange x y f = some w') :
    ∃ v u, w.live x = some v ∧ w.live y = some u ∧ (x = y ∧ w' = w ∨
      x ≠ y ∧ ∃ v' u', f v u = some (v', u') ∧ w' = { w with live := put (put w.live x v') y u' }) := by
  unfold exchange at h
  split at h
  case h_1 v u hx hy =>
    refine ⟨v, u, hx, hy, ?_⟩
    split_ifs at h with hxy
    · exact Or.inl ⟨hxy, (Option.some.inj h).symm⟩
    · obtain ⟨⟨v', u'⟩, hf, rfl⟩ := Option.map_eq_some_iff.mp h
      exact Or.inr ⟨hxy, v', u', hf, rfl⟩
  case h_2 => cases h

inductive Moved (w : Containers) : ContainerCall → Containers → Prop
  | construct {x : ℕ} {c : ContainerConstructor} {v : LiveContainer} {s : Store} (hx : w.live x = none)
      (hv : Fresh w.store v s) : Moved w (.construct x c) ⟨s, put w.live x v⟩
  | moved {x y : ℕ} {u v' u' : LiveContainer} (hxy : x ≠ y) (hy : w.live y = some u)
      (hv : v'.descriptors = u.descriptors) (hu : u'.descriptors = u.descriptors) :
      Moved w (.moved x y) { w with live := put (put w.live x v') y u' }
  | same {call : ContainerCall} (hc : w.SharesNothing call) : Moved w call w
  | assigned {x y : ℕ} {u v' u' : LiveContainer} (hxy : x ≠ y) (hy : w.live y = some u)
      (hv : v'.descriptors = u.descriptors) (hq : ∀ q, u ≠ .slidingQueue q)
      (hu : u'.descriptors = []) :
      Moved w (.moveAssign x y) { w with live := put (put w.live x v') y u' }
  | copied {x y : ℕ} {q : SlidingQueue} {v' u' : LiveContainer} (hxy : x ≠ y)
      (hy : w.live y = some (.slidingQueue q)) (hv : v'.descriptors = q.arrayDescriptor.toList)
      (hu : u'.descriptors = q.arrayDescriptor.toList) :
      Moved w (.moveAssign x y) { w with live := put (put w.live x v') y u' }
  | swapped {x y : ℕ} {v u v' u' : LiveContainer} (hxy : x ≠ y) (hx : w.live x = some v)
      (hy : w.live y = some u) (hv : v'.descriptors = v.descriptors)
      (hu : u'.descriptors = u.descriptors) :
      Moved w (.swap x y) { w with live := put (put w.live x v') y u' }
  | destroyed {x : ℕ} : Moved w (.destroy x) { w with live := remove w.live x }
  | named {p : ℕ} : Moved w (.getArrayId p) { w with store := w.store.withId p }

theorem step_moved {call : ContainerCall} (h : w.step call = some w') : Moved w call w' := by
  cases call with
  | construct x c =>
    simp only [step] at h
    split at h
    case h_1 v s hx hrun =>
      cases h
      exact .construct hx (construct_fresh hrun)
    case h_2 => cases h
  | moved x y =>
    simp only [step] at h
    split at h
    case h_1 u hx hy =>
      cases h
      have hxy : x ≠ y := by
        rintro rfl
        simp [hx] at hy
      obtain ⟨hv, hu⟩ := u.moved_descriptors
      exact .moved hxy hy hv hu
    case h_2 => cases h
  | moveAssign x y =>
    obtain ⟨v, u, hx, hy, ⟨rfl, rfl⟩ | ⟨hxy, v', u', hf, rfl⟩⟩ := exchange_cases h
    · exact .same fun _ _ => Or.inl rfl
    · obtain ⟨hv, ⟨q, rfl, hu⟩ | ⟨hq, hu⟩⟩ := LiveContainer.moveAssign_descriptors hf
      · exact .copied hxy hy hv hu
      · exact .assigned hxy hy hv hq hu
  | swap x y =>
    obtain ⟨v, u, hx, hy, ⟨rfl, rfl⟩ | ⟨hxy, v', u', hf, rfl⟩⟩ := exchange_cases h
    · exact .same trivial
    · obtain ⟨hv, hu⟩ := LiveContainer.swap_descriptors hf
      exact .swapped hxy hx hy hv hu
  | destroy x =>
    simp only [step] at h
    split at h
    case h_1 v hx =>
      cases h
      exact .destroyed
    case h_2 => cases h
  | getArrayId p =>
    simp only [step] at h
    split_ifs at h
    cases h
    rw [run_getArrayId]
    exact .named

theorem Moved.valid {call : ContainerCall} (h : Moved w call w') (hv : w.Valid) :
    w'.Valid ∧ w'.store.nextID ≤ w.store.nextID + 2 := by
  obtain ⟨hids, hall⟩ := hv
  have hput : ∀ {x y : ℕ} {v' u' : LiveContainer},
      (∀ p ∈ v'.descriptors, p < w.store.next) → (∀ p ∈ u'.descriptors, p < w.store.next) →
      Valid { w with live := put (put w.live x v') y u' } := by
    intro x y v' u' hv hu
    exact ⟨hids, (hall.put hv).put hu⟩
  cases h with
  | construct hx hf =>
    have hn := (Evolves.keeps hf.evolves).next_le
    refine ⟨⟨Evolves.idsValid hf.evolves hids, ?_⟩, hf.nextID_le⟩
    apply (hall.imp fun v hv p hp => (hv p hp).trans_le hn).put
    intro p hp
    exact (hf.fresh p hp).2
  | moved hxy hy hv' hu' =>
    have hu := hall _ _ hy
    exact ⟨hput (hv' ▸ hu) (hu' ▸ hu), Nat.le_add_right _ _⟩
  | same => exact ⟨⟨hids, hall⟩, Nat.le_add_right _ _⟩
  | assigned hxy hy hv' hq hu' =>
    have hu := hall _ _ hy
    exact ⟨hput (hv' ▸ hu) (by simp [hu']), Nat.le_add_right _ _⟩
  | copied hxy hy hv' hu' =>
    have hu := hall _ _ hy
    exact ⟨hput (hv' ▸ hu) (hu' ▸ hu), Nat.le_add_right _ _⟩
  | swapped hxy hx hy hv' hu' =>
    exact ⟨hput (hv' ▸ hall _ _ hx) (hu' ▸ hall _ _ hy), Nat.le_add_right _ _⟩
  | destroyed => exact ⟨⟨hids, hall.remove⟩, Nat.le_add_right _ _⟩
  | @named p =>
    refine ⟨⟨idsValid_withId p hids, ?_⟩, (w.store.withId_nextID_le p).trans (Nat.le_succ _)⟩
    simpa only [withId_next] using hall

theorem Moved.apart_iff {call : ContainerCall} (h : Moved w call w') (hv : w.Valid)
    (ha : w.HandsOutApart) : w'.HandsOutApart ↔ w.SharesNothing call := by
  cases h with
  | construct hx hf =>
    refine ⟨fun _ => trivial, fun _ => ?_⟩
    apply Exclusive.put_fresh ha
    rintro p hp ⟨y, u, hy, hpu⟩
    have hle := (hf.fresh p hp).1
    have hlt := hv.allocated y u hy p hpu
    omega
  | @moved x y u v' u' hxy hy hv' hu' =>
    constructor
    · intro hd u₀ hy₀
      cases hy.symm.trans hy₀
      have hdis := Exclusive.disjoint_put_put hxy hd
      rw [hv', hu'] at hdis
      apply List.eq_nil_iff_forall_not_mem.mpr
      exact fun p hp => hdis hp hp
    · intro hc
      apply Exclusive.transfer ha hxy hy
      · rw [hv']
        exact List.Subset.refl _
      · rw [hu']
        exact hc u hy
  | same hc => exact ⟨fun _ => hc, fun _ => ha⟩
  | assigned hxy hy hv' hq hu' =>
    constructor
    · intro _ q hq'
      exact absurd (Option.some.inj (hy.symm.trans hq')) (hq q)
    · intro _
      apply Exclusive.transfer ha hxy hy _ hu'
      rw [hv']
      exact List.Subset.refl _
  | @copied x y q v' u' hxy hy hv' hu' =>
    constructor
    · intro hd q' hy'
      cases hy.symm.trans hy'
      have hdis := Exclusive.disjoint_put_put hxy hd
      rw [hv', hu'] at hdis
      right
      apply Option.eq_none_iff_forall_not_mem.mpr
      intro p hp
      exact hdis (Option.mem_toList.mpr hp) (Option.mem_toList.mpr hp)
    · intro hc
      have hnone := (hc q hy).resolve_left hxy
      rw [hnone] at hv' hu'
      apply Exclusive.transfer ha hxy hy _ hu'
      rw [hv']
      exact List.nil_subset _
  | @swapped x y v u v' u' hxy hx hy hv' hu' =>
    refine ⟨fun _ => trivial, fun _ => ?_⟩
    apply (Exclusive.replace ha hx (u := v') (by rw [hv']; exact List.Subset.refl _)).replace
    · rw [put_of_ne hxy.symm]
      exact hy
    · rw [hu']
      exact List.Subset.refl _
  | destroyed => exact ⟨fun _ => trivial, fun _ => Exclusive.remove ha⟩
  | named => exact ⟨fun _ => trivial, fun _ => ha⟩

theorem handsOutDistinct_iff (hv : w.Valid) (hw : w.store.nextID + 2 ≤ 2 ^ 64) :
    w.HandsOutDistinct ↔ w.HandsOutApart := by
  constructor
  · intro h x y v u hxy hx hy p hp hq
    exact (h x y v u hxy hx hy p hp p hq).1 rfl
  · intro h x y v u hxy hx hy p hp q hq
    have hpq : p ≠ q := by
      rintro rfl
      exact h x y v u hxy hx hy hp hq
    refine ⟨hpq, ?_⟩
    intro i j t hrun
    rw [run_arrayIds] at hrun
    cases hrun
    exact ids_ne hv.ids hpq hw

theorem empty_valid : empty.Valid := ⟨idsValid_init, fun _ _ h => by cases h⟩

/-- A call gives out two ids at most, so the 64-bit counter does not wrap in a run of this length. -/
theorem always_handsOutDistinct_iff (calls : List ContainerCall)
    (hw : 2 * calls.length + 3 ≤ 2 ^ 64) :
    Always step HandsOutDistinct empty calls ↔ EachStep step SharesNothing empty calls := by
  have hcongr : Always step HandsOutDistinct empty calls ↔ Always step HandsOutApart empty calls := by
    apply always_congr (I := fun n w => w.Valid ∧ w.store.nextID + 2 * n + 2 ≤ 2 ^ 64)
    · rintro n w call w' ⟨hv, hn⟩ h
      obtain ⟨hv', hle⟩ := (step_moved h).valid hv
      exact ⟨hv', by omega⟩
    · rintro n w ⟨hv, hn⟩
      exact handsOutDistinct_iff hv (by omega)
    · refine ⟨empty_valid, ?_⟩
      have hid : empty.store.nextID = 1 := rfl
      omega
  rw [hcongr]
  apply always_iff_eachStep (I := Valid)
  · intro w call w' hv h
    exact ((step_moved h).valid hv).1
  · intro w call w' hv ha h
    exact (step_moved h).apart_iff hv ha
  · exact empty_valid
  · intro x y v u _ hx
    cases hx

theorem always_handsOutDistinct_iff_movedVector :
    Always step HandsOutDistinct empty [.construct 0 (.pvectorDefault intType), .moved 1 0] ↔
      EachStep step SharesNothing empty [.construct 0 (.pvectorDefault intType), .moved 1 0] :=
  always_handsOutDistinct_iff _ (by decide)

theorem not_always_handsOutDistinct :
    ¬ ∀ calls : List ContainerCall, Always step HandsOutDistinct empty calls := by
  intro hall
  obtain ⟨-, hconstruct⟩ := hall [.construct 0 (.pvectorDefault intType), .moved 1 0]
  obtain ⟨-, hmoved⟩ := hconstruct _ rfl
  have hdistinct := hmoved _ rfl
  exact (hdistinct 0 1 _ _ (by decide) rfl rfl 0 (by decide) 0 (by decide)).1 rfl

end Containers

end PickleDevice
