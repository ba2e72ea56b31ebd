import PickleDevice.CSRGraph
import Mathlib.Tactic.Linarith
import Mathlib.Tactic.Ring

namespace PickleDevice

open StateEffect

namespace PickleArrayDescriptor

def addressRange (d : PickleArrayDescriptor) : AddressRange := ⟨d.vaddrStart, d.vaddrEnd⟩

def Covers (d : PickleArrayDescriptor) (a b : ℤ) : Prop :=
  (d.vaddrStart.toNat : ℤ) = a ∧ (d.vaddrEnd.toNat : ℤ) = b

def Inside (d : PickleArrayDescriptor) (a : ℤ) (size : ℕ) : Prop :=
  (d.vaddrStart.toNat : ℤ) ≤ a ∧ a + size ≤ d.vaddrEnd.toNat

theorem Covers.inside {d : PickleArrayDescriptor} {a b x : ℤ} {size : ℕ} (h : d.Covers a b)
    (ha : a ≤ x) (hb : x + size ≤ b) : d.Inside x size := ⟨h.1.trans_le ha, hb.trans_eq h.2.symm⟩

theorem covers_iff {d : PickleArrayDescriptor} {a b b' : ℤ}
    (hd : d.addressRange = ⟨toUInt64 a, toUInt64 b⟩) (ha : 0 ≤ a) (ha' : a < 2 ^ 64) (hb : 0 ≤ b)
    (hb' : b < 2 ^ 64) : d.Covers a b' ↔ b = b' := by
  obtain ⟨hs, he⟩ := AddressRange.mk.inj hd
  rw [Covers, hs, he, toUInt64_toNat ha ha', toUInt64_toNat hb hb']
  omega

end PickleArrayDescriptor

/-- One direction of a compressed sparse row graph: an index of pointers into the neighbors that
never decrease and begin at the first neighbor. -/
structure WellFormed (mem : Memory) (T : ElementType) (numNodes : ℕ) (index neighs : ℤ) : Prop where
  first : mem.entry index 0 = neighs
  mono : ∀ i : ℕ, i < numNodes → mem.entry index i ≤ mem.entry index (i + 1)
  aligned : ∀ i : ℕ, i ≤ numNodes → (T.sizeof : ℤ) ∣ mem.entry index i - neighs
  index_nonneg : 0 ≤ index
  index_lt : pointerType.add index (numNodes + 1) < 2 ^ 64
  neighs_nonneg : 0 ≤ neighs
  neighs_lt : mem.entry index numNodes < 2 ^ 64

namespace WellFormed

variable {mem : Memory} {T : ElementType} {numNodes : ℕ} {index neighs : ℤ}

def offset (mem : Memory) (T : ElementType) (index neighs : ℤ) (i : ℕ) : ℤ :=
  T.sub (mem.entry index i) neighs

theorem entry_eq (h : WellFormed mem T numNodes index neighs) {i : ℕ} (hi : i ≤ numNodes) :
    mem.entry index i = T.add neighs (offset mem T index neighs i) := by
  have hdvd := Int.ediv_mul_cancel (h.aligned i hi)
  simp only [offset, ElementType.add, ElementType.sub, hdvd]
  omega

theorem entry_le (h : WellFormed mem T numNodes index neighs) {i j : ℕ} (hij : i ≤ j)
    (hj : j ≤ numNodes) : mem.entry index i ≤ mem.entry index j := by
  induction j, hij using Nat.le_induction with
  | base => exact le_rfl
  | succ j hij ih => exact (ih (by omega)).trans (h.mono j (by omega))

theorem neighs_le (h : WellFormed mem T numNodes index neighs) {i : ℕ} (hi : i ≤ numNodes) :
    neighs ≤ mem.entry index i := by
  have h0 := h.entry_le (Nat.zero_le i) hi
  rwa [Int.natCast_zero, h.first] at h0

theorem offset_nonneg (h : WellFormed mem T numNodes index neighs) {i : ℕ} (hi : i ≤ numNodes) :
    0 ≤ offset mem T index neighs i := by
  have hle := h.neighs_le hi
  have hpos := T.sizeof_pos'
  exact Int.ediv_nonneg (by omega) (by omega)

theorem entries_nonneg (h : WellFormed mem T numNodes index neighs) :
    0 ≤ T.sub (mem.entry index numNodes) neighs := h.offset_nonneg le_rfl

theorem half_entries (h : WellFormed mem T numNodes index neighs) :
    (T.sub (mem.entry index numNodes) (mem.entry index 0)).tdiv 2 =
      T.sub (mem.entry index numNodes) neighs / 2 := by
  rw [h.first, Int.tdiv_eq_ediv_of_nonneg h.entries_nonneg]

theorem degree (h : WellFormed mem T numNodes index neighs) {v : ℕ} (hv : v < numNodes) :
    ∃ m : ℕ, m < 2 ^ 64 ∧ mem.entry index (v + 1) = T.add (mem.entry index v) m := by
  have he := h.entry_eq hv.le
  have he' := h.entry_eq (i := v + 1) hv
  have hle := h.mono v hv
  have hlt := (h.entry_le (Nat.succ_le_of_lt hv) le_rfl).trans_lt h.neighs_lt
  have hnonneg := h.neighs_nonneg.trans (h.neighs_le hv.le)
  have hpos := T.sizeof_pos'
  rw [Nat.cast_add, Nat.cast_one] at he'
  rw [Nat.succ_eq_add_one, Nat.cast_add, Nat.cast_one] at hlt
  generalize offset mem T index neighs v = x at he
  generalize offset mem T index neighs (v + 1) = y at he'
  have hm : mem.entry index (v + 1) - mem.entry index v = (y - x) * T.sizeof := by
    rw [he, he']
    simp only [ElementType.add]
    ring
  have hxy : 0 ≤ y - x := by nlinarith
  refine ⟨(y - x).toNat, ?_, ?_⟩
  · nlinarith [Int.toNat_of_nonneg hxy]
  · rw [ElementType.add, Int.toNat_of_nonneg hxy]
    omega

theorem visited_inside (h : WellFormed mem T numNodes index neighs) {v : ℕ} (hv : v < numNodes)
    (startOffset : ℕ) {a : ℤ}
    (ha : a ∈ (Neighborhood.new mem T v index startOffset).visited mem T) :
    neighs ≤ a ∧ a + T.sizeof ≤ mem.entry index numNodes := by
  obtain ⟨m, hm, he⟩ := h.degree hv
  have hfirst := h.neighs_le hv.le
  have hlast := h.entry_le (i := v + 1) hv le_rfl
  have hpos := T.sizeof_pos'
  rw [Nat.cast_add, Nat.cast_one, he] at hlast
  have hmax : (toUInt64 (T.sub (T.add (mem.entry index v) m) (mem.entry index v))).toNat = m := by
    rw [ElementType.sub_add, toUInt64_toNat (by omega) (by omega), Int.toNat_natCast]
  simp only [Neighborhood.visited, Neighborhood.new, Neighborhood.begin', Neighborhood.end', he,
    Int.natCast_zero, ElementType.add_zero', hmax, List.mem_map, List.mem_range] at ha
  obtain ⟨k, hk, rfl⟩ := ha
  generalize hoff : min startOffset m = off at hk ⊢
  have hle : off ≤ m := by omega
  have hsub : T.sub (T.add (mem.entry index v) m) (T.add (mem.entry index v) off) = m - off := by
    have hadd : T.add (mem.entry index v) m = T.add (T.add (mem.entry index v) off) (m - off) := by
      rw [ElementType.add_add]
      congr 1
      omega
    rw [hadd, ElementType.sub_add]
  have hkm : off + k + 1 ≤ m := by omega
  have hin : T.add (mem.entry index v) (off + k + 1 : ℕ) ≤ T.add (mem.entry index v) m :=
    T.add_le_add (by omega)
  have hout : T.add (mem.entry index v) (0 : ℕ) ≤ T.add (mem.entry index v) (off + k : ℕ) :=
    T.add_le_add (by omega)
  rw [ElementType.add_add]
  simp only [ElementType.add, Nat.cast_add, Nat.cast_one, Nat.cast_zero, add_mul, one_mul,
    zero_mul] at *
  omega

end WellFormed

/-- The descriptors `di` and `dn` cover one direction of a graph: exactly its arrays, and so every
element and every index entry a walk over the neighbors `neigh v k` of a vertex reads. -/
structure SideCovered (mem : Memory) (T : ElementType) (numNodes : ℕ) (index neighs : ℤ)
    (neigh : ℤ → ℕ → Neighborhood) (di dn : PickleArrayDescriptor) : Prop where
  indexRange : di.Covers index (pointerType.add index (numNodes + 1))
  neighborsRange : dn.Covers neighs (mem.entry index numNodes)
  visited : ∀ v : ℕ, v < numNodes → ∀ startOffset, ∀ a ∈ (neigh v startOffset).visited mem T,
    dn.Inside a T.sizeof
  entries : ∀ v : ℕ, v < numNodes → di.Inside (pointerType.add index v) pointerType.sizeof ∧
    di.Inside (pointerType.add index (v + 1)) pointerType.sizeof

theorem sideCovered_iff {mem : Memory} {T : ElementType} {numNodes : ℕ} {index neighs numEdges : ℤ}
    {di dn : PickleArrayDescriptor} (h : WellFormed mem T numNodes index neighs)
    (h0 : 0 ≤ numEdges) (hle : numEdges ≤ T.sub (mem.entry index numNodes) neighs)
    (hdi : di.addressRange =
      ⟨toUInt64 index, toUInt64 (pointerType.add (pointerType.add index numNodes) 1)⟩)
    (hdn : dn.addressRange = ⟨toUInt64 neighs, toUInt64 (T.add neighs numEdges)⟩) :
    SideCovered mem T numNodes index neighs (fun v k => .new mem T v index k) di dn ↔
      numEdges = T.sub (mem.entry index numNodes) neighs := by
  have hentry : mem.entry index numNodes = T.add neighs (T.sub (mem.entry index numNodes) neighs) :=
    h.entry_eq le_rfl
  have hn0 := h.neighs_nonneg
  have hnlt := h.neighs_lt
  have hnle := h.neighs_le le_rfl
  have hend0 : neighs ≤ T.add neighs numEdges := by
    have := T.add_le_add (p := neighs) h0
    rwa [ElementType.add_zero'] at this
  have hend : T.add neighs numEdges ≤ mem.entry index numNodes := by
    rw [hentry]
    exact T.add_le_add hle
  have hneighs : dn.Covers neighs (mem.entry index numNodes) ↔
      numEdges = T.sub (mem.entry index numNodes) neighs := by
    rw [PickleArrayDescriptor.covers_iff hdn hn0 (by omega) (by omega) (by omega)]
    constructor
    · intro he
      rw [hentry] at he
      exact T.add_inj he
    · intro he
      rw [hentry, he]
  constructor
  · intro hc
    exact hneighs.mp hc.neighborsRange
  · intro he
    have hi0 := h.index_nonneg
    have hilt := h.index_lt
    rw [ElementType.add_add] at hdi
    have hmono : pointerType.add index 0 ≤ pointerType.add index (numNodes + 1) :=
      pointerType.add_le_add (by omega)
    rw [ElementType.add_zero'] at hmono
    have hindex : di.Covers index (pointerType.add index (numNodes + 1)) :=
      (PickleArrayDescriptor.covers_iff hdi hi0 (by omega) (by omega) hilt).mpr rfl
    refine ⟨hindex, hneighs.mpr he, ?_, ?_⟩
    · intro v hv k a ha
      obtain ⟨hlo, hhi⟩ := h.visited_inside hv k ha
      exact (hneighs.mpr he).inside hlo hhi
    · intro v hv
      simp only [ElementType.add] at hindex ⊢
      constructor <;> apply hindex.inside <;> simp only [pointerType] <;> omega

inductive CSRArrays
  | undirected (index neighs : ℤ)
  | directed (outIndex outNeighs inIndex inNeighs : ℤ)

namespace CSRArrays

def construct (mem : Memory) (T : ElementType) (numNodes : ℕ) : CSRArrays → Action CSRGraph
  | undirected index neighs => CSRGraph.undirected mem T numNodes index neighs
  | directed outIndex outNeighs inIndex inNeighs =>
    CSRGraph.fromDirected mem T numNodes outIndex outNeighs inIndex inNeighs

def outIndex : CSRArrays → ℤ
  | undirected index _ => index
  | directed outIndex _ _ _ => outIndex

def outNeighs : CSRArrays → ℤ
  | undirected _ neighs => neighs
  | directed _ outNeighs _ _ => outNeighs

def inIndex : CSRArrays → ℤ
  | undirected index _ => index
  | directed _ _ inIndex _ => inIndex

def inNeighs : CSRArrays → ℤ
  | undirected _ neighs => neighs
  | directed _ _ _ inNeighs => inNeighs

/-- What a builder of graphs guarantees of the arrays. -/
structure WellFormed (mem : Memory) (T : ElementType) (numNodes : ℕ) (arrays : CSRArrays) : Prop where
  out : PickleDevice.WellFormed mem T numNodes arrays.outIndex arrays.outNeighs
  in' : PickleDevice.WellFormed mem T numNodes arrays.inIndex arrays.inNeighs
  total : mem.entry arrays.outIndex numNodes - arrays.outNeighs =
    mem.entry arrays.inIndex numNodes - arrays.inNeighs

end CSRArrays

namespace CSRGraph

def Covered (g : CSRGraph) (mem : Memory) (numNodes : ℕ) (s : Store) : Prop :=
  ∃ outIndex outNeighbors inIndex inNeighbors,
    g.getOutIndexArrayDescriptor = some outIndex ∧
    g.getOutNeighborsArrayDescriptor = some outNeighbors ∧
    g.getInIndexArrayDescriptor = some inIndex ∧
    g.getInNeighborsArrayDescriptor = some inNeighbors ∧
    SideCovered mem g.destType numNodes g.outIndex g.outNeighbors (g.outNeigh mem)
      (s.desc outIndex) (s.desc outNeighbors) ∧
    SideCovered mem g.destType numNodes g.inIndex g.inNeighbors (g.inNeigh mem)
      (s.desc inIndex) (s.desc inNeighbors)

theorem constructedStore_range (g : CSRGraph) (s : Store) (q : ℕ) :
    ((g.constructedStore s).desc q).addressRange = ((g.describedStore s).desc q).addressRange := by
  rw [constructedStore_desc]
  rfl

theorem constructedStore_ranges (g : CSRGraph) (s : Store) :
    ((g.constructedStore s).desc s.next).addressRange = g.getInIndexAddressRange ∧
    ((g.constructedStore s).desc (s.next + 1)).addressRange = g.getOutIndexAddressRange ∧
    ((g.constructedStore s).desc (s.next + 2)).addressRange = g.getInNeighborsAddressRange ∧
    ((g.constructedStore s).desc (s.next + 3)).addressRange = g.getOutNeighborsAddressRange := by
  simp only [constructedStore_range, describedStore, Store.allocDescribed_desc,
    Store.allocDescribed_next, Nat.add_assoc]
  simp [PickleArrayDescriptor.addressRange, PickleArrayDescriptor.setRange]

theorem covered_iff (g : CSRGraph) {mem : Memory} {numNodes : ℕ} (s : Store)
    (hn : g.numNodes = numNodes) (hout : WellFormed mem g.destType numNodes g.outIndex g.outNeighbors)
    (hin : WellFormed mem g.destType numNodes g.inIndex g.inNeighbors)
    (htotal : g.destType.sub (mem.entry g.outIndex numNodes) g.outNeighbors =
      g.destType.sub (mem.entry g.inIndex numNodes) g.inNeighbors)
    (h0 : 0 ≤ g.numEdges)
    (hle : g.numEdges ≤ g.destType.sub (mem.entry g.outIndex numNodes) g.outNeighbors) :
    (g.withDescriptors s.next).Covered mem numNodes (g.constructedStore s) ↔
      g.numEdges = g.destType.sub (mem.entry g.outIndex numNodes) g.outNeighbors := by
  obtain ⟨hii, hoi, hin', hon⟩ := constructedStore_ranges g s
  simp only [getInIndexAddressRange, getOutIndexAddressRange, getInNeighborsAddressRange,
    getOutNeighborsAddressRange, indexAddressRange, neighborsAddressRange, hn] at hii hoi hin' hon
  have hsout := sideCovered_iff hout h0 hle hoi hon
  have hsin := sideCovered_iff hin h0 (hle.trans_eq htotal) hii hin'
  constructor
  · rintro ⟨_, _, _, _, ho, hon', -, -, hcov, -⟩
    cases ho
    cases hon'
    exact hsout.mp hcov
  · intro he
    exact ⟨_, _, _, _, rfl, rfl, rfl, rfl, hsout.mpr he, hsin.mpr (he.trans htotal)⟩

theorem construct_covered (mem : Memory) (g : CSRGraph) (numNodes : ℕ) (s : Store) :
    (∃ g' t, run g.constructArrayDescriptors s = (.ok g', t) ∧ g'.Covered mem numNodes t) ↔
      (g.withDescriptors s.next).Covered mem numNodes (g.constructedStore s) := by
  rw [run_constructArrayDescriptors]
  constructor
  · rintro ⟨g', t, h, hc⟩
    cases h
    exact hc
  · intro hc
    exact ⟨_, _, rfl, hc⟩

/-- The descriptors of a graph cover its arrays exactly when it is directed or stores no neighbor:
the range is computed from `num_edges`, which counts the two entries of an undirected edge once. -/
theorem construct_covered_iff {mem : Memory} {T : ElementType} {numNodes : ℕ} {arrays : CSRArrays}
    (h : arrays.WellFormed mem T numNodes) (s : Store) :
    (∃ g t, run (arrays.construct mem T numNodes) s = (.ok g, t) ∧ g.Covered mem numNodes t) ↔
      ∀ index neighs, arrays = .undirected index neighs → mem.entry index numNodes = neighs := by
  obtain ⟨hout, hin, htotal⟩ := h
  have hentry := hout.entry_eq le_rfl
  have hsub := hout.entries_nonneg
  cases arrays with
  | undirected index neighs =>
    simp only [CSRArrays.outIndex, CSRArrays.outNeighs, CSRArrays.inIndex, CSRArrays.inNeighs] at *
    rw [CSRArrays.construct, CSRGraph.undirected, construct_covered, hout.half_entries]
    have hiff := covered_iff ⟨T, false, numNodes, T.sub (mem.entry index numNodes) neighs / 2, index,
      neighs, index, neighs, none, none, none, none⟩ s rfl hout hin rfl (by simp only; omega)
      (by simp only; omega)
    rw [hiff]
    constructor
    · rintro he index' neighs' harr
      cases harr
      have hzero : WellFormed.offset mem T index neighs numNodes = 0 := by
        have hhalf : T.sub (mem.entry index numNodes) neighs / 2 =
            T.sub (mem.entry index numNodes) neighs := he
        rw [WellFormed.offset]
        omega
      rw [hentry, hzero, ElementType.add_zero']
    · intro he
      simp [he index neighs rfl]
  | directed outIndex outNeighs inIndex inNeighs =>
    simp only [CSRArrays.outIndex, CSRArrays.outNeighs, CSRArrays.inIndex, CSRArrays.inNeighs] at *
    rw [CSRArrays.construct, CSRGraph.fromDirected, construct_covered]
    simp only [hout.first]
    have hiff := covered_iff ⟨T, true, numNodes, T.sub (mem.entry outIndex numNodes) outNeighs, outIndex,
      outNeighs, inIndex, inNeighs, none, none, none, none⟩ s rfl hout hin
      (congrArg (· / (T.sizeof : ℤ)) htotal) hsub le_rfl
    exact ⟨fun _ _ _ hc => CSRArrays.noConfusion hc, fun _ => hiff.mpr rfl⟩

def loopMemory : Memory :=
  ⟨fun a => if a = 4096 then 8192 else if a = 4104 then 8200 else if a = 12288 then 16384 else 16392⟩

theorem wellFormed_loopMemory_of_dvd {T : ElementType} (hT : (T.sizeof : ℤ) ∣ 8) {index neighs : ℤ}
    (h : index = 4096 ∧ neighs = 8192 ∨ index = 12288 ∧ neighs = 16384) :
    WellFormed loopMemory T 1 index neighs := by
  rcases h with ⟨rfl, rfl⟩ | ⟨rfl, rfl⟩
  all_goals
    refine ⟨by decide, ?_, ?_, by decide, by decide, by decide, by decide⟩
    · intro i hi
      obtain rfl : i = 0 := by omega
      decide
    · intro i hi
      obtain rfl | rfl : i = 0 ∨ i = 1 := by omega
      · exact dvd_zero _
      · exact hT

theorem wellFormed_loopMemory {index neighs : ℤ}
    (h : index = 4096 ∧ neighs = 8192 ∨ index = 12288 ∧ neighs = 16384) :
    WellFormed loopMemory intType 1 index neighs := wellFormed_loopMemory_of_dvd (by decide) h

theorem construct_covered_iff_loopMemory :
    (∃ g t, run ((CSRArrays.directed 4096 8192 12288 16384).construct loopMemory intType 1) .init =
      (.ok g, t) ∧ g.Covered loopMemory 1 t) ↔
      ∀ index neighs, CSRArrays.directed 4096 8192 12288 16384 = .undirected index neighs →
        loopMemory.entry index 1 = neighs := by
  have hwf : (CSRArrays.directed 4096 8192 12288 16384).WellFormed loopMemory intType 1 :=
    ⟨wellFormed_loopMemory (by decide), wellFormed_loopMemory (by decide), by decide⟩
  exact construct_covered_iff hwf .init

theorem not_construct_covered :
    ¬ ∀ (mem : Memory) (T : ElementType) (numNodes : ℕ) (arrays : CSRArrays) (s : Store),
      arrays.WellFormed mem T numNodes →
      ∃ g t, run (arrays.construct mem T numNodes) s = (.ok g, t) ∧ g.Covered mem numNodes t := by
  intro hall
  have hwf := wellFormed_loopMemory (Or.inl ⟨rfl, rfl⟩)
  have hcov := hall loopMemory intType 1 (.undirected 4096 8192) .init ⟨hwf, hwf, rfl⟩
  rw [CSRArrays.construct, CSRGraph.undirected, construct_covered] at hcov
  obtain ⟨_, _, _, _, -, hn, -, -, hside, -⟩ := hcov
  cases hn
  have hend := hside.neighborsRange.2
  revert hend
  decide

end CSRGraph

end PickleDevice
