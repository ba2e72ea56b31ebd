import PickleDevice.ContainerMoves
import PickleDevice.GraphRanges
import PickleDevice.IdIndependence

/-!
An undirected graph gives the same job for its incoming and its outgoing edges:
the two runs mirror each other when the in- and out-arrays trade places.
-/

namespace PickleDevice

open StateEffect Store PickleJob

/-- `t` shows for `σ q` what `s` shows for `q`, up to the renaming `f` of ids, which spares the next
`k` ids to be given out. -/
structure Mirrored (σ : ℕ → ℕ) (f : UInt64 → UInt64) (l : List ℕ) (k : ℕ) (s t : Store) : Prop where
  desc : ∀ q ∈ l, Relabeled f (s.desc q) (t.desc (σ q))
  nextID : t.nextID = s.nextID
  fresh : ∀ i < k, f (UInt64.ofNat (s.nextID + i)) = UInt64.ofNat (s.nextID + i)

namespace Mirrored

variable {σ : ℕ → ℕ} {f : UInt64 → UInt64} {l : List ℕ} {k : ℕ} {s t : Store} {p q : ℕ}

theorem mono {j : ℕ} (h : Mirrored σ f l k s t) (hj : j ≤ k) : Mirrored σ f l j s t :=
  ⟨h.desc, h.nextID, fun i hi => h.fresh i (hi.trans_le hj)⟩

theorem unassigned_iff (hf : Function.Injective f) (h0 : f unassignedID = unassignedID)
    (h : Mirrored σ f l k s t) (hp : p ∈ l) :
    (t.desc (σ p)).arrayId = unassignedID ↔ (s.desc p).arrayId = unassignedID := by
  rw [(h.desc p hp).arrayId]
  exact ⟨fun he => hf (he.trans h0.symm), fun he => by rw [he, h0]⟩

theorem idOf (hf : Function.Injective f) (h0 : f unassignedID = unassignedID)
    (h : Mirrored σ f l (k + 1) s t) (hp : p ∈ l) : t.idOf (σ p) = f (s.idOf p) := by
  have hiff := h.unassigned_iff hf h0 hp
  by_cases hid : (s.desc p).arrayId = unassignedID
  · rw [Store.idOf, Store.idOf, if_pos (hiff.mpr hid), if_pos hid, h.nextID]
    exact (h.fresh 0 (Nat.succ_pos k)).symm
  · rw [idOf_of_assigned hid, idOf_of_assigned (mt hiff.mp hid)]
    exact (h.desc p hp).arrayId

theorem withId (hf : Function.Injective f) (h0 : f unassignedID = unassignedID)
    (hσ : Function.Injective σ) (h : Mirrored σ f l (k + 1) s t) (hp : p ∈ l) :
    Mirrored σ f l k (s.withId p) (t.withId (σ p)) := by
  have hiff := h.unassigned_iff hf h0 hp
  by_cases hid : (s.desc p).arrayId = unassignedID
  · have hn : (s.withId p).nextID = s.nextID + 1 := by simp [Store.withId, hid]
    have hn' : (t.withId (σ p)).nextID = t.nextID + 1 := by simp [Store.withId, hiff.mpr hid]
    constructor
    · intro q hq
      have hr := h.desc q hq
      rw [withId_desc, withId_desc (p := σ p)]
      refine ⟨?_, hr.dst, hr.vaddrStart, hr.vaddrEnd, hr.elementSize, hr.accessType, hr.addressingMode⟩
      by_cases hqp : q = p
      · subst hqp
        change ((t.withId (σ q)).desc (σ q)).arrayId = f ((s.withId q).desc q).arrayId
        rw [withId_arrayId, withId_arrayId]
        exact h.idOf hf h0 hp
      · change ((t.withId (σ p)).desc (σ q)).arrayId = f ((s.withId p).desc q).arrayId
        rw [withId_desc_of_ne (hσ.ne hqp), withId_desc_of_ne hqp]
        exact hr.arrayId
    · rw [hn, hn', h.nextID]
    · intro i hi
      have hfix := h.fresh (i + 1) (Nat.succ_lt_succ hi)
      rwa [hn, Nat.add_assoc, Nat.add_comm 1]
  · rw [withId_of_assigned hid, withId_of_assigned (mt hiff.mp hid)]
    exact h.mono (Nat.le_succ k)

theorem linked (hf : Function.Injective f) (h0 : f unassignedID = unassignedID)
    (hσ : Function.Injective σ) (h : Mirrored σ f l (k + 1) s t) (hq : q ∈ l) :
    Mirrored σ f l k (s.linked p q) (t.linked (σ p) (σ q)) := by
  have hid := h.idOf hf h0 hq
  have hw := h.withId hf h0 hσ hq
  refine ⟨?_, hw.nextID, hw.fresh⟩
  intro r hr
  have hrel := hw.desc r hr
  unfold Store.linked
  by_cases hrp : r = p
  · subst hrp
    rw [modify_desc, modify_desc]
    exact ⟨hrel.arrayId, hid, hrel.vaddrStart, hrel.vaddrEnd, hrel.elementSize, hrel.accessType,
      hrel.addressingMode⟩
  · rwa [modify_desc_of_ne hrp, modify_desc_of_ne (hσ.ne hrp)]

theorem addedStore (hf : Function.Injective f) (h0 : f unassignedID = unassignedID)
    (hσ : Function.Injective σ) {a b : GraphArrays} (hi : b.index = σ a.index)
    (hn : b.neighbors = σ a.neighbors) (hil : a.index ∈ l) (hnl : a.neighbors ∈ l)
    (h : Mirrored σ f l (k + 2) s t) : Mirrored σ f l k (a.addedStore s) (b.addedStore t) := by
  rw [GraphArrays.addedStore, GraphArrays.addedStore, hi, hn]
  exact (h.withId hf h0 hσ hil).withId hf h0 hσ hnl

theorem selectedStore (hf : Function.Injective f) (h0 : f unassignedID = unassignedID)
    (hσ : Function.Injective σ) {a b : GraphArrays} (hi : b.index = σ a.index)
    (hn : b.neighbors = σ a.neighbors) (hs : b.selector = a.selector.map σ)
    (hl : ∀ q ∈ a.arrays, q ∈ l) (h : Mirrored σ f l (k + 4) s t) :
    Mirrored σ f l k (a.selectedStore s) (b.selectedStore t) := by
  have hil : a.index ∈ l := hl _ (by simp [GraphArrays.arrays])
  have hnl : a.neighbors ∈ l := hl _ (by simp [GraphArrays.arrays])
  have hadd := h.addedStore hf h0 hσ hi hn hil hnl
  rw [GraphArrays.selectedStore, GraphArrays.selectedStore, hs, hi]
  cases hp : a.selector with
  | none => exact hadd.mono (by omega)
  | some p =>
    have hpl : p ∈ l := hl p (by simp [GraphArrays.arrays, hp])
    exact (hadd.withId hf h0 hσ hpl).linked hf h0 hσ hil

theorem finalStore (hf : Function.Injective f) (h0 : f unassignedID = unassignedID)
    (hσ : Function.Injective σ) {a b : GraphArrays} (hi : b.index = σ a.index)
    (hn : b.neighbors = σ a.neighbors) (hs : b.selector = a.selector.map σ)
    (hc : b.consumer = a.consumer.map σ) (hl : ∀ q ∈ a.arrays, q ∈ l)
    (h : Mirrored σ f l (k + 6) s t) : Mirrored σ f l k (a.finalStore s) (b.finalStore t) := by
  have hsel := h.selectedStore hf h0 hσ hi hn hs hl
  rw [GraphArrays.finalStore, GraphArrays.finalStore, hc, hn]
  cases hcon : a.consumer with
  | none => exact hsel.mono (by omega)
  | some c =>
    have hcl : c ∈ l := hl c (by simp [GraphArrays.arrays, hcon])
    exact (hsel.withId hf h0 hσ hcl).linked hf h0 hσ hcl

end Mirrored

namespace Store

variable {s t : Store} {l : List ℕ} {p q : ℕ}

def LinksWithin (s : Store) (l : List ℕ) : Prop :=
  ∀ p ∈ l, (s.desc p).dstIndexingArrayId = noDestination ∨
    ∃ q ∈ l, (s.desc q).arrayId ≠ unassignedID ∧
      (s.desc p).dstIndexingArrayId = (s.desc q).arrayId

theorem LinksWithin.withId (h : s.LinksWithin l) (r : ℕ) : (s.withId r).LinksWithin l := by
  intro p hp
  rw [withId_desc]
  rcases h p hp with hd | ⟨q, hq, hid, hd⟩
  · exact Or.inl hd
  · refine Or.inr ⟨q, hq, ?_⟩
    by_cases hqr : q = r
    · subst hqr
      rw [withId_of_assigned hid]
      exact ⟨hid, hd⟩
    · rw [withId_desc_of_ne hqr]
      exact ⟨hid, hd⟩

theorem LinksWithin.linked (h : s.LinksWithin l) (hs : s.IdsValid) (hq : q ∈ l)
    (hw : (s.linked p q).nextID ≤ 2 ^ 64) : (s.linked p q).LinksWithin l := by
  have hid := idOf_ne_unassigned q hs hw
  have hkeep : ∀ r, ((s.linked p q).desc r).arrayId = ((s.withId q).desc r).arrayId := by
    intro r
    rw [Store.linked]
    exact modify_arrayId (f := (·.setDst (s.idOf q))) (fun _ => rfl) r
  intro r hr
  by_cases hrp : r = p
  · subst hrp
    refine Or.inr ⟨q, hq, ?_, ?_⟩
    · rwa [linked_arrayId]
    · rw [linked_arrayId, Store.linked, modify_desc]
      rfl
  · have hdst : ((s.linked p q).desc r).dstIndexingArrayId =
        ((s.withId q).desc r).dstIndexingArrayId := by
      rw [Store.linked, modify_desc_of_ne hrp]
    simp only [hdst, hkeep]
    exact h.withId q r hr

end Store

namespace GraphArrays

variable {a : GraphArrays} {s : Store}

theorem selectedStore_linksWithin (hs : s.IdsValid) (hw : (a.selectedStore s).nextID ≤ 2 ^ 64)
    (h : s.LinksWithin a.arrays) : (a.selectedStore s).LinksWithin a.arrays := by
  have hadd : (a.addedStore s).LinksWithin a.arrays := (h.withId _).withId _
  have hadds := Evolves.idsValid (addedStore_keepsLinks a s).evolves hs
  have hi : a.index ∈ a.arrays := by simp [arrays]
  unfold selectedStore at hw ⊢
  cases hp : a.selector with
  | none => exact hadd
  | some p =>
    rw [hp] at hw
    exact (hadd.withId p).linked (idsValid_withId p hadds) hi hw

theorem finalStore_linksWithin (hs : s.IdsValid) (hw : (a.finalStore s).nextID ≤ 2 ^ 64)
    (h : s.LinksWithin a.arrays) : (a.finalStore s).LinksWithin a.arrays := by
  have hle := (Evolves.keeps (finalStore_evolves_selected a s)).nextID_le
  have hsel := selectedStore_linksWithin hs (hle.trans hw) h
  have hsels := Evolves.idsValid
    ((addedStore_keepsLinks a s).evolves.trans (selectedStore_evolves a s)) hs
  unfold finalStore at hw ⊢
  cases hc : a.consumer with
  | none => exact hsel
  | some c =>
    rw [hc] at hw
    have hcl : c ∈ a.arrays := by simp [arrays, hc]
    exact (hsel.withId c).linked (idsValid_withId c hsels) hcl hw

end GraphArrays

namespace CSRGraph

def swapDirections (n : ℕ) : Equiv.Perm ℕ :=
  (Equiv.swap n (n + 1)).trans (Equiv.swap (n + 2) (n + 3))

theorem swapDirections_index (n : ℕ) : swapDirections n n = n + 1 := by
  simp [swapDirections, Equiv.swap_apply_def]

theorem swapDirections_neighbors (n : ℕ) : swapDirections n (n + 2) = n + 3 := by
  simp [swapDirections, Equiv.swap_apply_def]

theorem swapDirections_of_outside {n q : ℕ} (h : q < n ∨ n + 4 ≤ q) : swapDirections n q = q := by
  simp only [swapDirections, Equiv.trans_apply, Equiv.swap_apply_def]
  split_ifs <;> omega

theorem swapDirections_map {n : ℕ} {y : Option ℕ} (h : ∀ q ∈ y.toList, q < n ∨ n + 4 ≤ q) :
    y = y.map (swapDirections n) := by
  cases y with
  | none => rfl
  | some q => rw [Option.map_some, swapDirections_of_outside (h q (by simp))]

theorem ofNat_ne {a b : ℕ} (ha : a < 2 ^ 64) (hb : b < 2 ^ 64) (h : a ≠ b) :
    UInt64.ofNat a ≠ UInt64.ofNat b := by
  intro he
  have := congrArg UInt64.toNat he
  rw [UInt64.toNat_ofNat', UInt64.toNat_ofNat', Nat.mod_eq_of_lt ha, Nat.mod_eq_of_lt hb] at this
  exact h this

def swapIds (m : ℕ) : Equiv.Perm UInt64 := Equiv.swap (UInt64.ofNat m) (UInt64.ofNat (m + 1))

theorem swapIds_of_ne {m k : ℕ} (hm : m + 1 < 2 ^ 64) (hk : k < 2 ^ 64) (h : k ≠ m)
    (h' : k ≠ m + 1) : swapIds m (UInt64.ofNat k) = UInt64.ofNat k :=
  Equiv.swap_apply_of_ne_of_ne (ofNat_ne hk (by omega) h) (ofNat_ne hk hm h')

theorem swapIds_unassignedID {m : ℕ} (hm : m + 1 < 2 ^ 64) (h : 0 < m) :
    swapIds m unassignedID = unassignedID :=
  swapIds_of_ne (k := 0) hm (by omega) (by omega) (by omega)

theorem swapIds_noDestination {m : ℕ} (hm : m + 2 < 2 ^ 64) :
    swapIds m noDestination = noDestination := by
  have hd : noDestination = UInt64.ofNat (2 ^ 64 - 1) := by decide
  rw [hd]
  exact swapIds_of_ne (by omega) (by omega) (by omega) (by omega)

/-- `t` comes after the construction of `g` in `s`, and the four descriptors are as they were then. -/
structure AsConstructed (g : CSRGraph) (s t : Store) : Prop where
  evolves : Evolves (g.constructedStore s) t
  desc : ∀ q, s.next ≤ q → q < s.next + 4 → t.desc q = (g.constructedStore s).desc q

def UnlinkedOutside (s t : Store) (l : List ℕ) : Prop :=
  ∀ q ∈ l, (q < s.next ∨ s.next + 4 ≤ q) ∧ (t.desc q).dstIndexingArrayId = noDestination

variable {g : CSRGraph} {s t : Store} {l : List ℕ}

theorem AsConstructed.nextID_le (h : g.AsConstructed s t) : s.nextID + 2 ≤ t.nextID := by
  have hle := (Evolves.keeps h.evolves).nextID_le
  rwa [(g.constructedStore_new s).2.2.2.2] at hle

theorem AsConstructed.neighbors_arrayId (h : g.AsConstructed s t) :
    (t.desc (s.next + 2)).arrayId = UInt64.ofNat s.nextID ∧
      (t.desc (s.next + 3)).arrayId = UInt64.ofNat (s.nextID + 1) := by
  obtain ⟨-, -, hin, hon, -⟩ := g.constructedStore_new s
  rw [h.desc (s.next + 2) (by omega) (by omega), h.desc (s.next + 3) (by omega) (by omega), hin, hon]
  exact ⟨rfl, rfl⟩

theorem AsConstructed.swapIds_arrayId (h : g.AsConstructed s t) (hs : s.IdsValid) (ht : t.IdsValid)
    (hw : t.nextID + 6 ≤ 2 ^ 64) {q : ℕ} (hq : q < s.next ∨ s.next + 4 ≤ q) :
    swapIds s.nextID (t.desc q).arrayId = (t.desc q).arrayId := by
  have hle := h.nextID_le
  obtain ⟨hin, hon⟩ := h.neighbors_arrayId
  by_cases hid : (t.desc q).arrayId = unassignedID
  · rw [hid, swapIds_unassignedID (by omega) hs.pos]
  · have hne : ∀ r, q ≠ r → (t.desc q).arrayId ≠ (t.desc r).arrayId := fun r hqr he =>
      hqr (ht.distinct (by omega) q r hid he)
    apply Equiv.swap_apply_of_ne_of_ne
    · rw [← hin]
      exact hne _ (by omega)
    · rw [← hon]
      exact hne _ (by omega)

theorem AsConstructed.mirrored (h : g.AsConstructed s t) (hi : g.inIndex = g.outIndex)
    (hn : g.inNeighbors = g.outNeighbors) (hs : s.IdsValid) (ht : t.IdsValid)
    (hw : t.nextID + 6 ≤ 2 ^ 64) (hl : UnlinkedOutside s t l) :
    Mirrored (swapDirections s.next) (swapIds s.nextID) ([s.next, s.next + 2] ++ l) 6 t t := by
  obtain ⟨hii, hoi, hin, hon, -⟩ := g.constructedStore_new s
  obtain ⟨hii', hoi', hin', hon', -⟩ := g.describedStore_new s
  rw [hii', ← h.desc _ (by omega) (by omega)] at hii
  rw [hoi', ← h.desc _ (by omega) (by omega)] at hoi
  rw [hin', ← h.desc _ (by omega) (by omega)] at hin
  rw [hon', ← h.desc _ (by omega) (by omega)] at hon
  have hle := h.nextID_le
  have hfix0 := swapIds_unassignedID (m := s.nextID) (by omega) hs.pos
  have hfixd := swapIds_noDestination (m := s.nextID) (by omega)
  have hfixm : swapIds s.nextID (UInt64.ofNat s.nextID) = UInt64.ofNat (s.nextID + 1) :=
    Equiv.swap_apply_left _ _
  refine ⟨?_, rfl, ?_⟩
  · intro q hq
    simp only [List.cons_append, List.nil_append, List.mem_cons] at hq
    rcases hq with rfl | rfl | hq
    · rw [swapDirections_index, hii, hoi]
      refine ⟨hfix0.symm, hfixm.symm, ?_, ?_, rfl, rfl, rfl⟩
      all_goals
        simp only [PickleArrayDescriptor.setDst, PickleArrayDescriptor.setRange,
          getInIndexAddressRange, getOutIndexAddressRange, hi]
    · rw [swapDirections_neighbors, hin, hon]
      refine ⟨hfixm.symm, hfixd.symm, ?_, ?_, rfl, rfl, rfl⟩
      all_goals
        simp only [PickleArrayDescriptor.setRange, getInNeighborsAddressRange,
          getOutNeighborsAddressRange, hn]
    · obtain ⟨hout, hdst⟩ := hl q hq
      rw [swapDirections_of_outside hout]
      have hid := h.swapIds_arrayId hs ht hw hout
      exact ⟨hid.symm, by rw [hdst, hfixd], rfl, rfl, rfl, rfl, rfl⟩
  · intro i hi
    rw [swapIds_of_ne (by omega) (by omega) (by omega) (by omega)]

theorem AsConstructed.linksWithin (h : g.AsConstructed s t) (hs : s.IdsValid)
    (hw : t.nextID + 6 ≤ 2 ^ 64) (hl : UnlinkedOutside s t l) :
    t.LinksWithin ([s.next, s.next + 2] ++ l) := by
  obtain ⟨hii, -, hin, -, -⟩ := g.constructedStore_new s
  rw [← h.desc _ (by omega) (by omega)] at hii hin
  rw [(g.describedStore_new s).2.2.1] at hin
  have hpos := hs.pos
  have hle := h.nextID_le
  intro q hq
  simp only [List.cons_append, List.nil_append, List.mem_cons] at hq
  rcases hq with rfl | rfl | hq
  · refine Or.inr ⟨s.next + 2, by simp, ?_, ?_⟩
    · rw [hin]
      exact ofNat_ne (a := s.nextID) (b := 0) (by omega) (by omega) (by omega)
    · rw [hii, hin]
      rfl
  · left
    rw [hin]
    rfl
  · exact Or.inl (hl q hq).2

end CSRGraph

/-- A descriptor there is, none of the graph's own and linked to no array. -/
def Store.Unlinked (s : Store) (g : CSRGraph) (d : Option Ptr) : Prop :=
  ∃ p, d = some p ∧ p < s.next ∧ p ∉ (LiveContainer.csrGraph g).descriptors ∧
    (s.desc p).dstIndexingArrayId = noDestination

theorem exists_descriptor {α : Type} {f : α → Option Ptr} {x : Option α} {g : CSRGraph} {s t : Store}
    (h : ∀ a ∈ x, t.Unlinked (g.withDescriptors s.next) (f a)) :
    ∃ y : Option ℕ, x.map f = y.map some ∧ (∀ p ∈ y.toList, p < t.next) ∧
      CSRGraph.UnlinkedOutside s t y.toList := by
  cases x with
  | none => exact ⟨none, rfl, by simp, by simp [CSRGraph.UnlinkedOutside]⟩
  | some a =>
    obtain ⟨p, hp, hlt, hout, hdst⟩ := h a rfl
    rw [LiveContainer.mem_descriptors_withDescriptors] at hout
    refine ⟨some p, by simp [hp], by simpa using hlt, ?_⟩
    intro q hq
    obtain rfl : q = p := by simpa using hq
    exact ⟨by omega, hdst⟩

theorem getJobDescriptor_of_linksWithin {kernelName : List UInt8} {added : List Ptr} {job : PickleJob}
    {s : Store} (hb : Built kernelName added job s) (ha : job.Assigned) (h : s.LinksWithin added) :
    ∃ rs, job.records? s = some rs := by
  rw [← Option.isSome_iff_exists, hb.wellBuilt.records?_isSome ha, hb.arrays_eq, hb.ids_eq]
  intro p hp
  rcases h p hp with hd | ⟨q, hq, -, hd⟩
  · exact Or.inr hd
  · rw [hd]
    exact Or.inl (List.mem_map_of_mem hq)

theorem GraphArrays.getJobDescriptor_mirrored {σ : ℕ → ℕ} {f : UInt64 → UInt64}
    (hf : Function.Injective f) (h0 : f unassignedID = unassignedID)
    (hd : f noDestination = noDestination) (hσ : Function.Injective σ) {a b : GraphArrays} {s : Store}
    (hi : b.index = σ a.index) (hn : b.neighbors = σ a.neighbors)
    (hs : b.selector = a.selector.map σ) (hc : b.consumer = a.consumer.map σ)
    (hids : s.IdsValid) (hw : s.nextID + 6 ≤ 2 ^ 64) (hm : Mirrored σ f a.arrays 6 s s)
    (hl : s.LinksWithin a.arrays) {kernelName : List UInt8} {job job' : PickleJob}
    (hb : Built kernelName a.arrays job (a.finalStore s))
    (hb' : Built kernelName b.arrays job' (b.finalStore s)) :
    ∃ bytes, (run job.getJobDescriptor (a.finalStore s)).1 = .ok bytes ∧
      (run job'.getJobDescriptor (b.finalStore s)).1 = .ok bytes := by
  have hwa := (a.finalStore_nextID_le s).trans hw
  have hwb := (b.finalStore_nextID_le s).trans hw
  have ha := hb.assigned hwa
  have ha' := hb'.assigned hwb
  have hmap : b.arrays = a.arrays.map σ := by
    simp [GraphArrays.arrays, hi, hn, hs, hc, Option.toList_map]
  have hfinal := hm.finalStore hf h0 hσ hi hn hs hc fun _ hq => hq
  obtain ⟨rs, hrs⟩ :=
    getJobDescriptor_of_linksWithin hb ha (finalStore_linksWithin hids hwa hl)
  have hok : (run job.getJobDescriptor (a.finalStore s)).1 = .ok (serialize job.kernelName rs) := by
    rw [run_getJobDescriptor_of_assigned (hb.wellBuilt.named ha), hrs]
    rfl
  have hsame := getJobDescriptor_relabeled hf hd hb hb' ha ha' (by rw [hmap, List.length_map])
    fun i hi => by
      simp only [hmap, List.getElem_map]
      exact hfinal.desc _ (List.getElem_mem hi)
  exact ⟨_, hok, hsame.trans hok⟩

theorem incomingEdges_eq_outgoingEdges {α : Type} [ArrayContainer α] {mem : Memory} {T : ElementType}
    {numNodes index neighs : ℤ} {g : CSRGraph} {s₀ s₁ s : Store} (hs : Reachable s₀)
    (hg : run (CSRGraph.undirected mem T numNodes index neighs) s₀ = (.ok g, s₁)) (he : Evolves s₁ s)
    (hkept : ∀ q ∈ (LiveContainer.csrGraph g).descriptors, s.desc q = s₁.desc q)
    (hw : s.nextID + 6 ≤ 2 ^ 64) (kernelName : List UInt8) {selector : Option α}
    {consumer : Option PVector}
    (hsel : ∀ x ∈ selector, s.Unlinked g (ArrayContainer.getArrayDescriptor x))
    (hcon : ∀ v ∈ consumer, s.Unlinked g v.getArrayDescriptor) :
    ∃ bytes,
      (run (createGraphJobUsingIncomingEdges g kernelName selector consumer >>= fun job =>
        job.getJobDescriptor) s).1 = .ok bytes ∧
      (run (createGraphJobUsingOutgoingEdges g kernelName selector consumer >>= fun job =>
        job.getJobDescriptor) s).1 = .ok bytes := by
  rw [CSRGraph.undirected, CSRGraph.run_constructArrayDescriptors] at hg
  generalize hg₀ : CSRGraph.mk T false numNodes _ index neighs index neighs none none none none = g₀
    at hg
  have hi : g₀.inIndex = g₀.outIndex := by rw [← hg₀]
  have hn : g₀.inNeighbors = g₀.outNeighbors := by rw [← hg₀]
  cases hg
  have hc : g₀.AsConstructed s₀ s := ⟨he, fun q h h' =>
    hkept q (LiveContainer.mem_descriptors_withDescriptors.mpr ⟨h, h'⟩)⟩
  obtain ⟨sel, hsel, hsellt, hsell⟩ := exists_descriptor hsel
  obtain ⟨con, hcon, hconlt, hconl⟩ := exists_descriptor hcon
  have hl : CSRGraph.UnlinkedOutside s₀ s (sel.toList ++ con.toList) := by
    intro q hq
    exact (List.mem_append.mp hq).elim (hsell q) (hconl q)
  have hreach : Reachable s := (hs.evolves (g₀.constructedStore_evolves s₀)).evolves he
  have hnext : s₀.next + 4 ≤ s.next := by
    rw [← g₀.constructedStore_next s₀]
    exact (Evolves.keeps he).next_le
  have hlive : ∀ i n, i < s₀.next + 4 → n < s₀.next + 4 →
      (GraphArrays.mk i n sel con).Live s := by
    intro i n hi hn
    apply GraphArrays.live_of (hi.trans_le hnext) (hn.trans_le hnext)
    intro q hq
    exact (List.mem_append.mp hq).elim (hsellt q) (hconlt q)
  obtain ⟨job, hrun, hb⟩ := GraphArrays.run_createGraphJob
    ⟨s₀.next, s₀.next + 2, sel, con⟩ s kernelName hsel hcon
  obtain ⟨job', hrun', hb'⟩ := GraphArrays.run_createGraphJob
    ⟨s₀.next + 1, s₀.next + 3, sel, con⟩ s kernelName hsel hcon
  have hm := hc.mirrored hi hn hs.idsValid hreach.idsValid hw hl
  have hwithin := hc.linksWithin hs.idsValid hw hl
  rw [← List.append_assoc] at hm hwithin
  have hle := hc.nextID_le
  obtain ⟨bytes, hbytes, hbytes'⟩ := GraphArrays.getJobDescriptor_mirrored
    (a := ⟨s₀.next, s₀.next + 2, sel, con⟩) (b := ⟨s₀.next + 1, s₀.next + 3, sel, con⟩)
    (Equiv.injective _) (CSRGraph.swapIds_unassignedID (by omega) hs.idsValid.pos)
    (CSRGraph.swapIds_noDestination (by omega)) (Equiv.injective _)
    (CSRGraph.swapDirections_index _).symm (CSRGraph.swapDirections_neighbors _).symm
    (CSRGraph.swapDirections_map fun p hp => (hsell p hp).1)
    (CSRGraph.swapDirections_map fun p hp => (hconl p hp).1)
    hreach.idsValid hw hm hwithin (hb hreach (hlive _ _ (by omega) (by omega)))
    (hb' hreach (hlive _ _ (by omega) (by omega)))
  exact ⟨bytes, (congrArg Prod.fst (run_bind_ok hrun)).trans hbytes,
    (congrArg Prod.fst (run_bind_ok hrun')).trans hbytes'⟩

def loopGraph : CSRGraph :=
  ⟨intType, false, 1, 1, 4096, 8192, 4096, 8192, none, none, none, none⟩

def sizedVector (T : ElementType) (start : ℤ) (n : ℕ) (p : Ptr) : PVector :=
  ⟨T, start, T.add start n, T.add start n, some p⟩

def loopStore : Store :=
  ((loopGraph.constructedStore init).allocDescribed 12288 12304 8).allocDescribed 16384 16392 4

theorem incomingEdges_eq_outgoingEdges_loopGraph :
    ∃ bytes,
      (run (createGraphJobUsingIncomingEdges (loopGraph.withDescriptors 0) [7]
        (some (sizedVector pointerType 12288 2 4)) (some (sizedVector intType 16384 2 5))
          >>= fun job => job.getJobDescriptor) loopStore).1 = .ok bytes ∧
      (run (createGraphJobUsingOutgoingEdges (loopGraph.withDescriptors 0) [7]
        (some (sizedVector pointerType 12288 2 4)) (some (sizedVector intType 16384 2 5))
          >>= fun job => job.getJobDescriptor) loopStore).1 = .ok bytes := by
  have hg : run (CSRGraph.undirected CSRGraph.loopMemory intType 1 4096 8192) init =
      (.ok (loopGraph.withDescriptors 0), loopGraph.constructedStore init) :=
    loopGraph.run_constructArrayDescriptors init
  have he : Evolves (loopGraph.constructedStore init) loopStore :=
    (allocDescribed_evolves _ _ _ _).trans (allocDescribed_evolves _ _ _ _)
  apply incomingEdges_eq_outgoingEdges .refl hg he ?_ (by decide) [7]
  · rintro x ⟨⟩
    exact ⟨4, rfl, by decide, by decide, by decide⟩
  · rintro v ⟨⟩
    exact ⟨5, rfl, by decide, by decide, by decide⟩
  · intro q hq
    have hlt := (LiveContainer.mem_descriptors_withDescriptors.mp hq).2
    rw [loopStore, allocDescribed_desc, if_neg, allocDescribed_desc, if_neg]
    all_goals
      simp only [allocDescribed_next, CSRGraph.constructedStore_next, init]
      omega

end PickleDevice
