import PickleDevice.ContainerMoves
import PickleDevice.DescribedRanges
import PickleDevice.JobPrinting

namespace PickleDevice

open StateEffect Store

def ElementType.Fits (T : ElementType) (a n : ℤ) : Prop := 0 ≤ a ∧ 0 ≤ n ∧ T.add a n < 2 ^ 64

namespace Store

inductive Use : Store → Store → Prop
  | construct {c : ContainerConstructor} {s t : Store} {v : LiveContainer}
      (h : run c.construct s = (.ok v, t)) : Use s t
  | getArrayId (s : Store) (p : ℕ) : Use s (s.withId p)
  | indexedBy (s : Store) (p q : ℕ) : Use s (s.linked p q)
  | setName (s : Store) (p : ℕ) (name : String) : Use s (s.modify p (·.setName name))
  | setAccessType (s : Store) (p : ℕ) (t : AccessType) : Use s (s.modify p (·.setAccessType t))
  | setAddressingMode (s : Store) (p : ℕ) (m : AddressingMode) :
      Use s (s.modify p (·.setAddressingMode m))

def ShowsElements (s : Store) (p : ℕ) : Prop := ∃ (T : ElementType) (a n : ℤ), T.Fits a n ∧
  s.Shows p ⟨toUInt64 a, toUInt64 (T.add a n)⟩ (UInt64.ofNat T.sizeof)

end Store

/-- What a constructor is promised of its arguments and of the allocation it makes. -/
def ContainerConstructor.Valid : ContainerConstructor → Prop
  | pvectorDefault _ => True
  | pvectorSized T n new => PVector.Allocated T n new
  | pvectorFilled T n new => PVector.Allocated T n new
  | pvectorCopied T b e new => PVector.Allocated T (T.sub e b).toNat new
  | graphDefault _ => True
  | graphUndirected mem T n index neighs =>
    ∃ numNodes : ℕ, n = numNodes ∧ (CSRArrays.undirected index neighs).WellFormed mem T numNodes
  | graphDirected mem T n outIndex outNeighs inIndex inNeighs => ∃ numNodes : ℕ, n = numNodes ∧
    (CSRArrays.directed outIndex outNeighs inIndex inNeighs).WellFormed mem T numNodes
  | queueSized T n new => PVector.Allocated T n new

inductive HandsOut (c : ContainerConstructor) : Store → LiveContainer → Prop
  | construct {s t : Store} {v : LiveContainer} (hc : c.Valid) (h : run c.construct s = (.ok v, t)) :
      HandsOut c t v
  | reserve {s : Store} {v : PVector} (h : HandsOut c s (.pvector v)) (n : ℕ) (new : ℤ) :
      HandsOut c s (.pvector (v.reserve n new))
  | resize {s : Store} {v : PVector} (h : HandsOut c s (.pvector v)) (n : ℕ) (new : ℤ) :
      HandsOut c s (.pvector (v.resize n new))
  | pushBack {s : Store} {v : PVector} (h : HandsOut c s (.pvector v)) (new : ℤ) :
      HandsOut c s (.pvector (v.pushBack new))
  | clear {s : Store} {v : PVector} (h : HandsOut c s (.pvector v)) :
      HandsOut c s (.pvector v.clear)
  | later {s t : Store} {v : LiveContainer} (h : HandsOut c s v) (hu : Use s t) : HandsOut c t v

def Store.FromContainers (s : Store) (added : List Ptr) : Prop :=
  ∀ p ∈ added, ∃ c v, HandsOut c s v ∧ p ∈ v.descriptors

variable {s t : Store} {p : ℕ} {c : ContainerConstructor} {v : LiveContainer}

theorem ElementType.Fits.whole {T : ElementType} {a n : ℤ} (hf : T.Fits a n) {d : PickleArrayDescriptor}
    (hr : d.addressRange = ⟨toUInt64 a, toUInt64 (T.add a n)⟩)
    (he : d.elementSize = UInt64.ofNat T.sizeof) : d.WholeElements := by
  obtain ⟨ha, hn, hlt⟩ := hf
  obtain ⟨hs, hstop⟩ := AddressRange.mk.inj hr
  have hpos := T.sizeof_pos
  have hsize : (UInt64.ofNat T.sizeof).toNat = T.sizeof := by
    rw [UInt64.toNat_ofNat', Nat.mod_eq_of_lt T.sizeof_lt]
  have hle : a ≤ T.add a n := by
    have h := T.add_le_add (p := a) hn
    rwa [ElementType.add_zero'] at h
  have hstart : (toUInt64 a).toNat = a.toNat := toUInt64_toNat ha (by omega)
  have hend : (toUInt64 (T.add a n)).toNat = a.toNat + n.toNat * T.sizeof := by
    rw [toUInt64_toNat (by omega) hlt]
    have hmul : (n.toNat * T.sizeof : ℕ) = n * T.sizeof := by
      rw [Nat.cast_mul, Int.toNat_of_nonneg hn]
    simp only [ElementType.add] at hle hlt ⊢
    omega
  have hdiff : (d.vaddrEnd - d.vaddrStart).toNat = n.toNat * T.sizeof := by
    rw [hs, hstop, UInt64.toNat_sub_of_le, hstart, hend, Nat.add_sub_cancel_left]
    rw [UInt64.le_iff_toNat_le, hstart, hend]
    exact Nat.le_add_right _ _
  have hbound := UInt64.toNat_lt (d.vaddrEnd - d.vaddrStart)
  constructor
  · intro h0
    rw [he] at h0
    rw [h0] at hsize
    simp only [UInt64.toNat_zero] at hsize
    omega
  · apply UInt64.toNat_inj.mp
    rw [UInt64.toNat_mul, UInt64.toNat_div, hdiff, he, hsize, Nat.mul_div_cancel _ hpos]
    rw [hdiff] at hbound
    exact Nat.mod_eq_of_lt hbound

theorem Store.ShowsElements.whole (h : s.ShowsElements p) : (s.desc p).WholeElements := by
  obtain ⟨T, a, n, hf, hr, he⟩ := h
  exact hf.whole hr he

theorem Store.shows_allocDescribed (s : Store) (start stop size : UInt64) :
    (s.allocDescribed start stop size).Shows s.next ⟨start, stop⟩ size := by
  rw [Shows, allocDescribed_desc, if_pos rfl]
  exact ⟨rfl, rfl⟩

/-- The descriptor of a vector that starts empty shows no range and no element size, and nothing sets
them later. -/
structure Shown (s : Store) (c : ContainerConstructor) (v : LiveContainer) (t : Store) : Prop where
  keeps : s.KeepsRanges t
  empty : ∀ T, c = .pvectorDefault T → ∀ p ∈ v.descriptors, (t.desc p).elementSize = 0
  elements : c.Valid → (∀ T, c ≠ .pvectorDefault T) → ∀ p ∈ v.descriptors, t.ShowsElements p

theorem Shown.allocated {T : ElementType} {n : ℕ} {new : ℤ} (hc : c.Valid → PVector.Allocated T n new)
    (hne : ∀ T, c ≠ .pvectorDefault T) (hv : v.descriptors = [s.next]) :
    Shown s c v (s.allocDescribed (toUInt64 new) (toUInt64 (T.add new n)) (UInt64.ofNat T.sizeof)) := by
  constructor
  · exact keepsRanges_allocDescribed s _ _ _
  · intro T he
    exact absurd he (hne T)
  · intro hvalid _ p hp
    obtain ⟨hpos, hlt⟩ := hc hvalid
    rw [hv, List.mem_singleton] at hp
    subst hp
    exact ⟨T, new, n, ⟨hpos.le, Int.natCast_nonneg n, hlt⟩, s.shows_allocDescribed _ _ _⟩

namespace WellFormed

variable {numNodes : ℕ} {index neighs : ℤ} {mem : Memory} {T : ElementType}

theorem fits_index (h : WellFormed mem T numNodes index neighs) :
    pointerType.Fits index (numNodes + 1) :=
  ⟨h.index_nonneg, by omega, h.index_lt⟩

theorem fits_neighbors (h : WellFormed mem T numNodes index neighs) {n : ℤ} (hn : 0 ≤ n)
    (hle : n ≤ T.sub (mem.entry index numNodes) neighs) : T.Fits neighs n := by
  refine ⟨h.neighs_nonneg, hn, lt_of_le_of_lt ?_ h.neighs_lt⟩
  rw [h.entry_eq le_rfl]
  exact T.add_le_add hle

end WellFormed

namespace CSRGraph

structure Fits (g : CSRGraph) : Prop where
  outIndex : pointerType.Fits g.outIndex (g.numNodes + 1)
  inIndex : pointerType.Fits g.inIndex (g.numNodes + 1)
  outNeighbors : g.destType.Fits g.outNeighbors g.numEdges
  inNeighbors : g.destType.Fits g.inNeighbors g.numEdges

variable {g : CSRGraph} {numNodes : ℕ} {mem : Memory}

theorem fits_of_wellFormed (hn : g.numNodes = numNodes)
    (hout : WellFormed mem g.destType numNodes g.outIndex g.outNeighbors)
    (hin : WellFormed mem g.destType numNodes g.inIndex g.inNeighbors) (h0 : 0 ≤ g.numEdges)
    (hle : g.numEdges ≤ g.destType.sub (mem.entry g.outIndex numNodes) g.outNeighbors)
    (hle' : g.numEdges ≤ g.destType.sub (mem.entry g.inIndex numNodes) g.inNeighbors) : g.Fits := by
  constructor
  · rw [hn]
    exact hout.fits_index
  · rw [hn]
    exact hin.fits_index
  · exact hout.fits_neighbors h0 hle
  · exact hin.fits_neighbors h0 hle'

theorem Fits.showsElements (hg : g.Fits) {s : Store} {p q : ℕ} (h : g.ShownAt s p) (hq : p ≤ q)
    (hq' : q < p + 4) : s.ShowsElements q := by
  have hindex : ∀ index : ℤ, g.indexAddressRange index =
      ⟨toUInt64 index, toUInt64 (pointerType.add index (g.numNodes + 1))⟩ := by
    intro index
    rw [indexAddressRange, ElementType.add_add]
  obtain rfl | rfl | rfl | rfl : q = p ∨ q = p + 1 ∨ q = p + 2 ∨ q = p + 3 := by omega
  · refine ⟨pointerType, g.inIndex, g.numNodes + 1, hg.inIndex, ?_⟩
    rw [← hindex]
    exact h.inIndex
  · refine ⟨pointerType, g.outIndex, g.numNodes + 1, hg.outIndex, ?_⟩
    rw [← hindex]
    exact h.outIndex
  · exact ⟨g.destType, g.inNeighbors, g.numEdges, hg.inNeighbors, h.inNeighbors⟩
  · exact ⟨g.destType, g.outNeighbors, g.numEdges, hg.outNeighbors, h.outNeighbors⟩

end CSRGraph

theorem Shown.graph {g : CSRGraph} (hc : c.Valid → g.Fits) (hne : ∀ T, c ≠ .pvectorDefault T) :
    Shown s c (.csrGraph (g.withDescriptors s.next)) (g.constructedStore s) := by
  constructor
  · exact keepsRanges_constructedStore g s
  · intro T he
    exact absurd he (hne T)
  · intro hvalid _ p hp
    have hfresh := (Fresh.graph g s).fresh p hp
    rw [CSRGraph.constructedStore_next] at hfresh
    have hg := hc hvalid
    have hfits : (g.withDescriptors s.next).Fits :=
      ⟨hg.outIndex, hg.inIndex, hg.outNeighbors, hg.inNeighbors⟩
    exact hfits.showsElements (CSRGraph.shownAt_constructedStore g s) hfresh.1 hfresh.2

theorem construct_shown (h : run c.construct s = (.ok v, t)) : Shown s c v t := by
  cases c with
  | pvectorDefault T =>
    cases h
    refine ⟨keepsRanges_alloc s, ?_, fun _ hne => absurd rfl (hne T)⟩
    intro _ _ p hp
    obtain rfl : p = s.next := by
      simpa [LiveContainer.descriptors, PVector.getArrayDescriptor, eq_comm] using hp
    rw [alloc_desc]
    rfl
  | pvectorSized T n new =>
    cases h
    exact .allocated (fun hc => hc) (by simp) rfl
  | pvectorFilled T n new =>
    cases h
    exact .allocated (fun hc => hc) (by simp) rfl
  | pvectorCopied T b e new =>
    cases h
    exact .allocated (fun hc => hc) (by simp) rfl
  | graphDefault T =>
    cases h
    have hnil : LiveContainer.descriptors (.csrGraph (CSRGraph.default T)) = [] := rfl
    refine ⟨.refl s, ?_, ?_⟩
    · simp [hnil]
    · simp [hnil]
  | graphUndirected mem T n index neighs =>
    obtain ⟨rfl, rfl⟩ := constructed_graph h
    apply Shown.graph _ (by simp)
    rintro ⟨numNodes, rfl, hout, hin, -⟩
    have hnonneg := hout.entries_nonneg
    have hhalf := hout.half_entries
    simp only [CSRArrays.outIndex, CSRArrays.outNeighs] at hnonneg hhalf
    rw [hhalf]
    apply CSRGraph.fits_of_wellFormed rfl hout hin
    all_goals
      simp only
      omega
  | graphDirected mem T n outIndex outNeighs inIndex inNeighs =>
    obtain ⟨rfl, rfl⟩ := constructed_graph h
    apply Shown.graph _ (by simp)
    rintro ⟨numNodes, rfl, hout, hin, htotal⟩
    have hfirst : mem.entry outIndex 0 = outNeighs := hout.first
    rw [hfirst]
    apply CSRGraph.fits_of_wellFormed rfl hout hin
    · exact hout.entries_nonneg
    · exact le_rfl
    · exact (congrArg (· / (T.sizeof : ℤ)) htotal).le
  | queueSized T n new =>
    cases h
    exact .allocated (fun hc => hc) (by simp) rfl

theorem Store.Use.keepsRanges (h : Use s t) : s.KeepsRanges t := by
  cases h with
  | construct h => exact (construct_shown h).keeps
  | getArrayId p => exact keepsRanges_withId _ _
  | indexedBy p q => exact keepsRanges_linked _ _ _
  | setName p name => exact keepsRanges_modify _ _ (fun _ => rfl) fun _ => rfl
  | setAccessType p a => exact keepsRanges_modify _ _ (fun _ => rfl) fun _ => rfl
  | setAddressingMode p m => exact keepsRanges_modify _ _ (fun _ => rfl) fun _ => rfl

theorem pvector_descriptors {v u : PVector} (h : u.arrayDescriptor = v.arrayDescriptor) :
    (LiveContainer.pvector u).descriptors = (LiveContainer.pvector v).descriptors :=
  congrArg Option.toList h

theorem HandsOut.shown (h : HandsOut c s v) : ∀ p ∈ v.descriptors, p < s.next ∧
    (∀ T, c = .pvectorDefault T → (s.desc p).elementSize = 0) ∧
    ((∀ T, c ≠ .pvectorDefault T) → s.ShowsElements p) := by
  induction h with
  | construct hc h =>
    intro p hp
    have hshown := construct_shown h
    refine ⟨((construct_fresh h).fresh p hp).2, ?_, ?_⟩
    · intro T he
      exact hshown.empty T he p hp
    · intro hne
      exact hshown.elements hc hne p hp
  | reserve h n new ih =>
    rw [pvector_descriptors PVector.reserve_arrayDescriptor]
    exact ih
  | resize h n new ih =>
    rw [pvector_descriptors PVector.resize_arrayDescriptor]
    exact ih
  | pushBack h new ih =>
    rw [pvector_descriptors PVector.pushBack_arrayDescriptor]
    exact ih
  | clear h ih => exact ih
  | later h hu ih =>
    intro p hp
    obtain ⟨hlt, hzero, helems⟩ := ih p hp
    have hk := hu.keepsRanges
    refine ⟨hlt.trans_le hk.next_le, ?_, ?_⟩
    · intro T he
      rw [hk.elementSize p hlt]
      exact hzero T he
    · intro hne
      obtain ⟨T, a, n, hf, hshows⟩ := helems hne
      exact ⟨T, a, n, hf, hshows.keeps hk hlt⟩

namespace PickleJob

variable {kernelName : List UInt8} {added : List Ptr} {job : PickleJob} {bytes : List UInt8}

theorem readable_iff (hb : Built kernelName added job s) (hw : s.nextID ≤ 2 ^ 64)
    (hf : s.FromContainers added) (h : run job.getJobDescriptor s = (.ok bytes, t)) :
    job.Readable added bytes t ↔
      ∀ p ∈ added, ∀ T v, HandsOut (.pvectorDefault T) s v → p ∉ v.descriptors := by
  rw [readable_iff_wholeElements hb (hb.assigned hw) h]
  constructor
  · intro hall p hp T v hv hmem
    exact (hall p hp).size_ne ((hv.shown p hmem).2.1 T rfl)
  · intro hall p hp
    obtain ⟨c, v, hv, hmem⟩ := hf p hp
    have hne : ∀ T, c ≠ .pvectorDefault T := by
      rintro T rfl
      exact hall p hp T v hv hmem
    exact ((hv.shown p hmem).2.2 hne).whole

theorem fromContainers_linkedJob : linkedStore.FromContainers [0, 1] := by
  have hvector : HandsOut (.pvectorSized intType 4 4096) (init.allocDescribed 4096 4112 4)
      (.pvector ⟨intType, 4096, 4112, 4112, some 0⟩) :=
    .construct (s := init) (show PVector.Allocated intType 4 4096 by decide) rfl
  have hqueue : HandsOut (.queueSized pointerType 2 8192)
      ((init.allocDescribed 4096 4112 4).allocDescribed 8192 8208 8)
      (.slidingQueue ⟨pointerType, 8192, 2, some 1⟩) :=
    .construct (s := init.allocDescribed 4096 4112 4)
      (show PVector.Allocated pointerType 2 8192 by decide) rfl
  have hlater : ∀ c v, HandsOut c ((init.allocDescribed 4096 4112 4).allocDescribed 8192 8208 8) v →
      HandsOut c linkedStore v := fun c v h =>
    (((h.later (.indexedBy _ 0 1)).later (.setAccessType _ 0 .ranged)).later
      (.getArrayId _ 0)).later (.getArrayId _ 1)
  intro p hp
  rcases List.mem_pair.mp hp with rfl | rfl
  · exact ⟨_, _, hlater _ _ (hvector.later (.construct (c := .queueSized pointerType 2 8192) rfl)),
      List.mem_singleton_self 0⟩
  · exact ⟨_, _, hlater _ _ hqueue, List.mem_singleton_self 1⟩

theorem readable_iff_linkedJob :
    linkedJob.Readable [0, 1] (serialize [7] linkedRecords) linkedStore ↔
      ∀ p ∈ [0, 1], ∀ T v, HandsOut (.pvectorDefault T) linkedStore v → p ∉ v.descriptors :=
  readable_iff built_linkedJob (by decide) fromContainers_linkedJob run_linkedJob

def emptyVectorJob : PickleJob := (new [7]).withArray 1 0

def emptyVectorStore : Store := init.alloc.withId 0

theorem not_readable :
    ¬ ∀ (kernelName : List UInt8) (added : List Ptr) (job : PickleJob) (s t : Store)
      (bytes : List UInt8), Built kernelName added job s → s.nextID ≤ 2 ^ 64 →
      s.FromContainers added → run job.getJobDescriptor s = (.ok bytes, t) →
      job.Readable added bytes t := by
  intro hall
  have hb : Built [7] [0] emptyVectorJob emptyVectorStore :=
    (Built.new (.single (.newDescriptor init))).withArray (p := 0) Nat.one_pos
  have hf : emptyVectorStore.FromContainers [0] := by
    have hvector : HandsOut (.pvectorDefault intType) emptyVectorStore
        (.pvector ⟨intType, 0, 0, 0, some 0⟩) :=
      .later (.construct (s := init) trivial rfl) (.getArrayId init.alloc 0)
    intro p hp
    exact ⟨_, _, hvector, hp⟩
  have hr := hall _ _ _ _ _ _ hb (by decide) hf rfl
  obtain ⟨t, ht, -⟩ := hr.tuple 0 (by decide)
  exact PickleArrayDescriptor.getTuple_of_zero rfl ht

end PickleJob

end PickleDevice
