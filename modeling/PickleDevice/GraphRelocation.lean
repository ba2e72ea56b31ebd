import PickleDevice.GraphFiles
import PickleDevice.GraphWalks

/-!
A graph written out as offsets and built again elsewhere: `VertexOffsets` and
`GenIndex`.
-/

namespace PickleDevice

open StateEffect Segments

def Memory.storePtr (mem : Memory) (a p : ℤ) : Memory := ⟨Function.update mem.loadPtr a p⟩

namespace CSRGraph

def vertexOffsets (g : CSRGraph) (mem : Memory) (inGraph : Bool) : Option (List ℤ) :=
  if g.numNodes + 1 < 0 then none else do
    let ns ← intRange (g.numNodes + 1)
    let index := if inGraph then g.inIndex else g.outIndex
    return ns.map fun n : ℕ => g.destType.sub (mem.entry index n) (mem.entry index 0)

def genEntry (T : ElementType) (offsets : List ℤ) (neighs index : ℤ) (mem : Memory) (n : ℕ) :
    Memory :=
  mem.storePtr (pointerType.add index n) (T.add neighs (offsets.getD n 0))

/-- `GenIndex(offsets, neighs)`, where `new DestID_*[length]` answers `index` and the threads take the
rounds of the parallel loop in the order `order`. A negative length throws. -/
def genIndex (T : ElementType) (mem : Memory) (offsets : List ℤ) (neighs index : ℤ)
    (order : List ℕ) : Option Memory :=
  if toInt32 offsets.length < 0 then none
  else some (order.foldl (genEntry T offsets neighs index) mem)

def Rounds (offsets : List ℤ) (order : List ℕ) : Prop :=
  order.Perm (List.range (toInt32 offsets.length).toNat)

section GenIndex

variable {T : ElementType} {mem mem' : Memory} {offsets : List ℤ} {neighs index a : ℤ}
  {order : List ℕ} {n : ℕ}

theorem foldl_genEntry_of_ne (h : ∀ n ∈ order, a ≠ pointerType.add index n) :
    (order.foldl (genEntry T offsets neighs index) mem).loadPtr a = mem.loadPtr a := by
  induction order generalizing mem with
  | nil => rfl
  | cons n order ih =>
    rw [List.foldl_cons, ih fun m hm => h m (List.mem_cons_of_mem _ hm)]
    exact Function.update_of_ne (h n List.mem_cons_self) _ _

theorem foldl_genEntry (h : n ∈ order) :
    (order.foldl (genEntry T offsets neighs index) mem).entry index n =
      T.add neighs (offsets.getD n 0) := by
  induction order generalizing mem with
  | nil => cases h
  | cons m order ih =>
    rw [List.foldl_cons]
    by_cases hmem : n ∈ order
    · exact ih hmem
    -- the last round at this entry
    rw [Memory.entry, foldl_genEntry_of_ne]
    · obtain rfl : n = m := (List.mem_cons.mp h).resolve_right hmem
      exact Function.update_self _ _ _
    · rintro k hk heq
      have hnk := Int.ofNat.inj (pointerType.add_inj heq)
      exact hmem (hnk ▸ hk)

theorem genIndex_spec (hlen : offsets.length < 2 ^ 31) (ho : Rounds offsets order) :
    ∃ mem', genIndex T mem offsets neighs index order = some mem' ∧
      (∀ i < offsets.length, mem'.entry index i = T.add neighs (offsets.getD i 0)) ∧
      ∀ a, (∀ i < offsets.length, a ≠ pointerType.add index i) → mem'.loadPtr a = mem.loadPtr a := by
  have hsize : toInt32 offsets.length = offsets.length := toInt32_of_lt (by omega) (by omega)
  have hmem : ∀ i, i ∈ order ↔ i < offsets.length := by
    intro i
    rw [ho.mem_iff, hsize, List.mem_range, Int.toNat_natCast]
  refine ⟨_, if_neg (by omega), ?_, ?_⟩
  · intro i hi
    exact foldl_genEntry ((hmem i).mpr hi)
  · intro a ha
    apply foldl_genEntry_of_ne
    intro n hn
    exact ha n ((hmem n).mp hn)

/-- `NodeID_ length = offsets.size()` keeps 32 bits of it. -/
theorem genIndex_complete_iff (T : ElementType) (offsets : List ℤ) (neighs index : ℤ) :
    (∀ mem order, Rounds offsets order → ∃ mem',
      genIndex T mem offsets neighs index order = some mem' ∧
        ∀ i < offsets.length, mem'.entry index i = T.add neighs (offsets.getD i 0)) ↔
      offsets.length < 2 ^ 31 := by
  constructor
  · intro h
    by_contra hlen
    have hlt := toInt32_lt offsets.length
    generalize hn : (toInt32 offsets.length).toNat = n
    -- a memory in which the first entry not written holds something else
    obtain ⟨mem', hgen, hall⟩ := h ⟨fun _ => T.add neighs (offsets.getD n 0) + 1⟩
      (List.range (toInt32 offsets.length).toNat) (.refl _)
    have hentry := hall n (by omega)
    rw [genIndex] at hgen
    split_ifs at hgen with hneg
    rw [← Option.some.inj hgen, Memory.entry, foldl_genEntry_of_ne] at hentry
    · simp at hentry
    · rintro k hk heq
      have hnk := Int.ofNat.inj (pointerType.add_inj heq)
      rw [hn, List.mem_range] at hk
      omega
  · intro hlen mem order ho
    obtain ⟨mem', hgen, hall, -⟩ := genIndex_spec hlen ho
    exact ⟨mem', hgen, hall⟩

end GenIndex

end CSRGraph

def Relocated (T : ElementType) (numNodes : ℕ) (mem : Memory) (index neighs : ℤ) (mem' : Memory)
    (index' neighs' : ℤ) : Prop :=
  ∀ i ≤ numNodes, mem'.entry index' i = T.add neighs' (WellFormed.offset mem T index neighs i)

structure Room (T : ElementType) (numNodes : ℕ) (entries index neighs : ℤ) : Prop where
  index_nonneg : 0 ≤ index
  index_lt : pointerType.add index (numNodes + 1) < 2 ^ 64
  neighs_nonneg : 0 ≤ neighs
  neighs_lt : T.add neighs entries < 2 ^ 64

def relocate (T : ElementType) (neighs neighs' a : ℤ) : ℤ := T.add neighs' (T.sub a neighs)

namespace Relocated

variable {T : ElementType} {numNodes : ℕ} {mem mem' : Memory} {index neighs index' neighs' : ℤ}

theorem offset_eq (hr : Relocated T numNodes mem index neighs mem' index' neighs') {i : ℕ}
    (hi : i ≤ numNodes) :
    WellFormed.offset mem' T index' neighs' i = WellFormed.offset mem T index neighs i := by
  rw [WellFormed.offset, hr i hi, ElementType.sub_add]

theorem first (hr : Relocated T numNodes mem index neighs mem' index' neighs')
    (h : WellFormed mem T numNodes index neighs) : mem'.entry index' 0 = neighs' := by
  have hzero : mem.entry index (0 : ℕ) = neighs := h.first
  have hfirst := hr 0 (Nat.zero_le _)
  rwa [WellFormed.offset, hzero, ElementType.sub_self', ElementType.add_zero'] at hfirst

theorem wellFormed (hr : Relocated T numNodes mem index neighs mem' index' neighs')
    (h : WellFormed mem T numNodes index neighs)
    (hroom : Room T numNodes (WellFormed.offset mem T index neighs numNodes) index' neighs') :
    WellFormed mem' T numNodes index' neighs' := by
  constructor
  · exact hr.first h
  · intro i hi
    have hle := h.mono i hi
    have hsucc := hr (i + 1) hi
    rw [Nat.cast_add, Nat.cast_one] at hsucc
    rw [hr i hi.le, hsucc]
    apply ElementType.add_le_add
    rw [WellFormed.offset, WellFormed.offset, Nat.cast_add, Nat.cast_one]
    apply Int.ediv_le_ediv T.sizeof_pos'
    omega
  · intro i hi
    rw [hr i hi, ElementType.add]
    exact ⟨_, by rw [add_sub_cancel_left, mul_comm]⟩
  · exact hroom.index_nonneg
  · exact hroom.index_lt
  · exact hroom.neighs_nonneg
  · rw [hr numNodes le_rfl]
    exact hroom.neighs_lt

theorem visited (hr : Relocated T numNodes mem index neighs mem' index' neighs')
    (h : WellFormed mem T numNodes index neighs) (h' : WellFormed mem' T numNodes index' neighs')
    {v : ℕ} (hv : v < numNodes) (k : ℕ) :
    (Neighborhood.new mem' T v index' k).visited mem' T =
      ((Neighborhood.new mem T v index k).visited mem T).map (relocate T neighs neighs') := by
  obtain ⟨m, -, hvis⟩ := h.visited_eq hv
  obtain ⟨m', -, hvis'⟩ := h'.visited_eq hv
  have hm : m' = m := by
    have hsucc := h.offset_succ hv
    have hsucc' := h'.offset_succ hv
    rw [hvis, List.length_map, List.drop_zero, List.length_range] at hsucc
    rw [hvis', List.length_map, List.drop_zero, List.length_range,
      hr.offset_eq (i := v + 1) hv, hr.offset_eq hv.le] at hsucc'
    omega
  rw [hvis, hvis', hm, List.map_map]
  apply List.map_congr_left
  intro i _
  rw [Function.comp_apply, relocate, h.entry_eq hv.le, hr v hv.le, ElementType.add_add,
    ElementType.add_add, ElementType.sub_add]

end Relocated

section Loops

variable {entry entry' : ℤ → Option String} {f : ℤ → ℤ}

theorem writeNeighbors_map {ns : List ℤ} (gfile : String) (h : ∀ n ∈ ns, entry' (f n) = entry n) :
    writeNeighbors entry' (ns.map f) gfile = writeNeighbors entry ns gfile := by
  induction ns generalizing gfile with
  | nil => rfl
  | cons n ns ih =>
    rw [List.map_cons, writeNeighbors, writeNeighbors, h n List.mem_cons_self]
    congr 1
    funext text
    exact ih _ fun m hm => h m (List.mem_cons_of_mem _ hm)

theorem writeNodes_map {visited visited' : ℕ → List ℤ} {is : List ℕ} (gfile : String)
    (hvisited : ∀ i ∈ is, visited' i = (visited i).map f)
    (h : ∀ i ∈ is, ∀ n ∈ visited i, entry' (f n) = entry n) :
    writeNodes entry' visited' is gfile = writeNodes entry visited is gfile := by
  induction is generalizing gfile with
  | nil => rfl
  | cons i is ih =>
    rw [writeNodes, writeNodes, hvisited i List.mem_cons_self,
      writeNeighbors_map gfile (h i List.mem_cons_self)]
    congr 1
    funext text
    apply ih
    · exact fun j hj => hvisited j (List.mem_cons_of_mem _ hj)
    · exact fun j hj => h j (List.mem_cons_of_mem _ hj)

end Loops

structure SameGraph (numNodes : ℕ) (g : CSRGraph) (mem : Memory) (g' : CSRGraph) (mem' : Memory) :
    Prop where
  destType : g'.destType = g.destType
  directed : g'.directed = g.directed
  nodes : g'.numNodes = g.numNodes
  edges : g'.numEdges = g.numEdges
  offsets : ∀ inGraph, g'.vertexOffsets mem' inGraph = g.vertexOffsets mem inGraph
  out : ∀ v < numNodes, ∀ k, (g'.outNeigh mem' v k).visited mem' g'.destType =
    ((g.outNeigh mem v k).visited mem g.destType).map
      (relocate g.destType g.outNeighbors g'.outNeighbors)
  in' : ∀ v < numNodes, ∀ k, (g'.inNeigh mem' v k).visited mem' g'.destType =
    ((g.inNeigh mem v k).visited mem g.destType).map
      (relocate g.destType g.inNeighbors g'.inNeighbors)

inductive Elements.Copied (entries : ℕ) (neighs neighs' : ℤ) : Elements → Elements → Prop
  | weighted {load load' : ℤ → NodeWeight}
      (h : ∀ i < entries, load' (nodeWeightType.add neighs' i) = load (nodeWeightType.add neighs i)) :
      Copied entries neighs neighs' (.weighted load) (.weighted load')
  | unweighted {load load' : ℤ → ℤ}
      (h : ∀ i < entries, load' (intType.add neighs' i) = load (intType.add neighs i)) :
      Copied entries neighs neighs' (.unweighted load) (.unweighted load')

theorem SameGraph.writeGraphWith_eq {numNodes : ℕ} {g g' : CSRGraph} {mem mem' : Memory} {flag : String}
    {entry entry' : ℤ → Option String} (h : SameGraph numNodes g mem g' mem')
    (hn : g.numNodes = numNodes)
    (he : ∀ v < numNodes, ∀ a ∈ (g.outNeigh mem v 0).visited mem g.destType,
      entry' (relocate g.destType g.outNeighbors g'.outNeighbors a) = entry a) :
    g'.writeGraphWith mem' flag entry' = g.writeGraphWith mem flag entry := by
  rw [CSRGraph.writeGraphWith, CSRGraph.writeGraphWith, h.nodes, h.edges]
  cases hr : intRange g.numNodes with
  | none => rfl
  | some is =>
    have hlt : ∀ i ∈ is, i < numNodes := by
      intro i hi
      rw [intRange] at hr
      split_ifs at hr
      cases hr
      rw [List.mem_range] at hi
      omega
    exact writeNodes_map _ (fun i hi => h.out i (hlt i hi) 0) fun i hi => he i (hlt i hi)

theorem SameGraph.writeGraph_eq {numNodes entries : ℕ} {g g' : CSRGraph} {mem mem' : Memory}
    {elements elements' : Elements} (h : SameGraph numNodes g mem g' mem') (hn : g.numNodes = numNodes)
    (hT : g.destType = elements.destType)
    (hwf : WellFormed mem g.destType numNodes g.outIndex g.outNeighbors)
    (hentries : (entries : ℤ) = g.destType.sub (mem.entry g.outIndex numNodes) g.outNeighbors)
    (hcopied : elements.Copied entries g.outNeighbors g'.outNeighbors elements') :
    g'.writeGraph mem' elements' = g.writeGraph mem elements := by
  -- what a loop over the neighbors of a vertex reads stands in the array
  have hread : ∀ v < numNodes, ∀ a ∈ (g.outNeigh mem v 0).visited mem g.destType,
      ∃ i < entries, a = g.destType.add g.outNeighbors i := by
    intro v hv a ha
    have hjoined := hwf.visited_joined le_rfl
    have hin : a ∈ joined (fun v : ℕ =>
        (Neighborhood.new mem g.destType v g.outIndex 0).visited mem g.destType) numNodes :=
      List.mem_flatMap.mpr ⟨v, List.mem_range.mpr hv, ha⟩
    rw [hjoined, WellFormed.offset, ← hentries] at hin
    obtain ⟨i, hi, rfl⟩ := List.mem_map.mp hin
    exact ⟨i, List.mem_range.mp hi, rfl⟩
  cases hcopied with
  | weighted hload =>
    apply h.writeGraphWith_eq hn
    intro v hv a ha
    obtain ⟨i, hi, rfl⟩ := hread v hv a ha
    have hsame := hload i hi
    rw [relocate, ElementType.sub_add, hT]
    simp only [Elements.destType, hsame]
  | unweighted hload =>
    apply h.writeGraphWith_eq hn
    intro v hv a ha
    obtain ⟨i, hi, rfl⟩ := hread v hv a ha
    have hsame := hload i hi
    rw [relocate, ElementType.sub_add, hT]
    simp only [Elements.destType, hsame]

def offsetsOf (T : ElementType) (numNodes : ℕ) (mem : Memory) (index neighs : ℤ) : List ℤ :=
  (List.range (numNodes + 1)).map (WellFormed.offset mem T index neighs)

section Offsets

variable {T : ElementType} {numNodes : ℕ} {mem m : Memory} {index neighs : ℤ} {g : CSRGraph}

theorem CSRGraph.vertexOffsets_eq (hn : g.numNodes = numNodes) (hlt : numNodes + 1 < 2 ^ 31)
    (inGraph : Bool) (hindex : (if inGraph then g.inIndex else g.outIndex) = index)
    (hfirst : mem.entry index 0 = neighs) :
    g.vertexOffsets mem inGraph = some (offsetsOf g.destType numNodes mem index neighs) := by
  have hnat : ((numNodes : ℤ) + 1).toNat = numNodes + 1 := by omega
  subst hindex hfirst
  rw [vertexOffsets, hn, if_neg (by omega), intRange, if_pos (by omega), hnat]
  rfl

theorem CSRGraph.genIndex_relocated {order : List ℕ} (hlt : numNodes + 1 < 2 ^ 31)
    (ho : Rounds (offsetsOf T numNodes mem index neighs) order) (index' neighs' : ℤ) :
    ∃ m', genIndex T m (offsetsOf T numNodes mem index neighs) neighs' index' order = some m' ∧
      Relocated T numNodes mem index neighs m' index' neighs' ∧
      ∀ a, (∀ i ≤ numNodes, a ≠ pointerType.add index' i) → m'.loadPtr a = m.loadPtr a := by
  have hlen : (offsetsOf T numNodes mem index neighs).length = numNodes + 1 := by simp [offsetsOf]
  obtain ⟨m', hgen, hall, hframe⟩ := genIndex_spec (hlen.trans_lt hlt) ho
  refine ⟨m', hgen, ?_, ?_⟩
  · intro i hi
    rw [hall i (by omega)]
    simp [offsetsOf, Nat.lt_succ_of_le hi]
  · intro a ha
    apply hframe
    intro i hi
    exact ha i (by omega)

end Offsets

namespace CSRArrays

def isDirected : CSRArrays → Bool
  | undirected _ _ => false
  | directed _ _ _ _ => true

structure Placed (T : ElementType) (numNodes : ℕ) (entries : ℤ) (arrays : CSRArrays) : Prop where
  out : Room T numNodes entries arrays.outIndex arrays.outNeighs
  in' : Room T numNodes entries arrays.inIndex arrays.inNeighs
  apart : arrays.isDirected → ∀ i ≤ numNodes, ∀ j ≤ numNodes,
    pointerType.add arrays.outIndex (i : ℕ) ≠ pointerType.add arrays.inIndex (j : ℕ)

/-- `GenIndex` has made the indexes: of a directed graph the one of outgoing edges first. -/
def Generated (T : ElementType) (mem mem' : Memory) (outOffsets inOffsets : List ℤ)
    (outOrder inOrder : List ℕ) : CSRArrays → Prop
  | undirected index neighs =>
    CSRGraph.genIndex T mem outOffsets neighs index outOrder = some mem'
  | directed outIndex outNeighs inIndex inNeighs => ∃ m,
    CSRGraph.genIndex T mem outOffsets outNeighs outIndex outOrder = some m ∧
      CSRGraph.genIndex T m inOffsets inNeighs inIndex inOrder = some mem'

variable {T : ElementType} {numNodes : ℕ} {mem : Memory} {arrays arrays' : CSRArrays}

theorem exists_generated (hkind : arrays'.isDirected = arrays.isDirected)
    (hlt : numNodes + 1 < 2 ^ 31) {entries : ℤ} (hplaced : arrays'.Placed T numNodes entries)
    {outOrder inOrder : List ℕ}
    (hout : CSRGraph.Rounds (offsetsOf T numNodes mem arrays.outIndex arrays.outNeighs) outOrder)
    (hin : CSRGraph.Rounds (offsetsOf T numNodes mem arrays.inIndex arrays.inNeighs) inOrder) :
    ∃ mem', arrays'.Generated T mem mem' (offsetsOf T numNodes mem arrays.outIndex arrays.outNeighs)
        (offsetsOf T numNodes mem arrays.inIndex arrays.inNeighs) outOrder inOrder ∧
      Relocated T numNodes mem arrays.outIndex arrays.outNeighs mem' arrays'.outIndex
        arrays'.outNeighs ∧
      Relocated T numNodes mem arrays.inIndex arrays.inNeighs mem' arrays'.inIndex
        arrays'.inNeighs := by
  cases arrays' with
  | undirected index' neighs' =>
    cases arrays with
    | directed _ _ _ _ => cases hkind
    | undirected index neighs =>
      obtain ⟨m, hgen, hr, -⟩ := CSRGraph.genIndex_relocated (m := mem) hlt hout index' neighs'
      exact ⟨m, hgen, hr, hr⟩
  | directed outIndex' outNeighs' inIndex' inNeighs' =>
    obtain ⟨m, hgen, hr, -⟩ := CSRGraph.genIndex_relocated (m := mem) hlt hout outIndex' outNeighs'
    obtain ⟨m', hgen', hr', hframe⟩ := CSRGraph.genIndex_relocated (m := m) hlt hin inIndex' inNeighs'
    refine ⟨m', ⟨m, hgen, hgen'⟩, ?_, hr'⟩
    -- the second index lies elsewhere
    intro i hi
    refine (hframe _ fun j hj => ?_).trans (hr i hi)
    exact hplaced.apart rfl i hi j hj

end CSRArrays

namespace CSRGraph

variable {T : ElementType} {numNodes : ℕ} {mem mem' : Memory} {arrays arrays' : CSRArrays}

theorem vertexOffsets_relocated {g g' : CSRGraph} {inGraph : Bool} {index neighs index' neighs' : ℤ}
    (hT : g'.destType = g.destType) (hn : g.numNodes = numNodes) (hn' : g'.numNodes = numNodes)
    (hlt : numNodes + 1 < 2 ^ 31) (hindex : (if inGraph then g.inIndex else g.outIndex) = index)
    (hindex' : (if inGraph then g'.inIndex else g'.outIndex) = index')
    (hfirst : mem.entry index 0 = neighs) (hfirst' : mem'.entry index' 0 = neighs')
    (hr : Relocated g.destType numNodes mem index neighs mem' index' neighs') :
    g'.vertexOffsets mem' inGraph = g.vertexOffsets mem inGraph := by
  rw [vertexOffsets_eq hn hlt inGraph hindex hfirst, vertexOffsets_eq hn' hlt inGraph hindex' hfirst',
    hT]
  congr 1
  apply List.map_congr_left
  intro i hi
  exact hr.offset_eq (Nat.lt_succ_iff.mp (List.mem_range.mp hi))

theorem sameGraph {g g' : CSRGraph} (hT : g'.destType = g.destType) (hd : g'.directed = g.directed)
    (hn : g.numNodes = numNodes) (hn' : g'.numNodes = numNodes) (he : g'.numEdges = g.numEdges)
    (hlt : numNodes + 1 < 2 ^ 31)
    (hout : WellFormed mem g.destType numNodes g.outIndex g.outNeighbors)
    (hout' : WellFormed mem' g.destType numNodes g'.outIndex g'.outNeighbors)
    (hrout : Relocated g.destType numNodes mem g.outIndex g.outNeighbors mem' g'.outIndex
      g'.outNeighbors)
    (hin : WellFormed mem g.destType numNodes g.inIndex g.inNeighbors)
    (hin' : WellFormed mem' g.destType numNodes g'.inIndex g'.inNeighbors)
    (hrin : Relocated g.destType numNodes mem g.inIndex g.inNeighbors mem' g'.inIndex
      g'.inNeighbors) : SameGraph numNodes g mem g' mem' := by
  constructor
  · exact hT
  · exact hd
  · exact hn'.trans hn.symm
  · exact he
  · intro inGraph
    cases inGraph with
    | false => exact vertexOffsets_relocated hT hn hn' hlt rfl rfl hout.first hout'.first hrout
    | true => exact vertexOffsets_relocated hT hn hn' hlt rfl rfl hin.first hin'.first hrin
  · intro v hv k
    rw [outNeigh, outNeigh, hT]
    exact hrout.visited hout hout' hv k
  · intro v hv k
    rw [inNeigh, inNeigh, hT]
    exact hrin.visited hin hin' hv k

theorem construct_sameGraph (hkind : arrays'.isDirected = arrays.isDirected)
    (h : arrays.WellFormed mem T numNodes) (h' : arrays'.WellFormed mem' T numNodes)
    (hlt : numNodes + 1 < 2 ^ 31)
    (hrout : Relocated T numNodes mem arrays.outIndex arrays.outNeighs mem' arrays'.outIndex
      arrays'.outNeighs)
    (hrin : Relocated T numNodes mem arrays.inIndex arrays.inNeighs mem' arrays'.inIndex
      arrays'.inNeighs) (s s' : Store) :
    ∃ g t g' t', run (arrays.construct mem T numNodes) s = (.ok g, t) ∧
      run (arrays'.construct mem' T numNodes) s' = (.ok g', t') ∧ g.destType = T ∧
      g.numNodes = numNodes ∧ g.outIndex = arrays.outIndex ∧ g.outNeighbors = arrays.outNeighs ∧
      g'.outNeighbors = arrays'.outNeighs ∧
      g.vertexOffsets mem false = some (offsetsOf T numNodes mem arrays.outIndex arrays.outNeighs) ∧
      g.vertexOffsets mem true = some (offsetsOf T numNodes mem arrays.inIndex arrays.inNeighs) ∧
      SameGraph numNodes g mem g' mem' := by
  obtain ⟨hout, hin, -⟩ := h
  obtain ⟨hout', hin', -⟩ := h'
  have hedges : T.sub (mem'.entry arrays'.outIndex numNodes) (mem'.entry arrays'.outIndex 0) =
      T.sub (mem.entry arrays.outIndex numNodes) (mem.entry arrays.outIndex 0) := by
    rw [hout'.first, hout.first]
    exact hrout.offset_eq le_rfl
  cases arrays with
  | undirected index neighs =>
    cases arrays' with
    | directed _ _ _ _ => cases hkind
    | undirected index' neighs' =>
      simp only [CSRArrays.outIndex, CSRArrays.outNeighs, CSRArrays.inIndex, CSRArrays.inNeighs] at *
      rw [CSRArrays.construct, CSRArrays.construct, CSRGraph.undirected, CSRGraph.undirected,
        run_constructArrayDescriptors, run_constructArrayDescriptors, hedges]
      refine ⟨_, _, _, _, rfl, rfl, rfl, rfl, rfl, rfl, rfl, ?_, ?_, ?_⟩
      · exact vertexOffsets_eq rfl hlt false rfl hout.first
      · exact vertexOffsets_eq rfl hlt true rfl hin.first
      · exact sameGraph rfl rfl rfl rfl rfl hlt hout hout' hrout hin hin' hrin
  | directed outIndex outNeighs inIndex inNeighs =>
    cases arrays' with
    | undirected _ _ => cases hkind
    | directed outIndex' outNeighs' inIndex' inNeighs' =>
      simp only [CSRArrays.outIndex, CSRArrays.outNeighs, CSRArrays.inIndex, CSRArrays.inNeighs] at *
      rw [CSRArrays.construct, CSRArrays.construct, CSRGraph.fromDirected, CSRGraph.fromDirected,
        run_constructArrayDescriptors, run_constructArrayDescriptors, hedges]
      refine ⟨_, _, _, _, rfl, rfl, rfl, rfl, rfl, rfl, rfl, ?_, ?_, ?_⟩
      · exact vertexOffsets_eq rfl hlt false rfl hout.first
      · exact vertexOffsets_eq rfl hlt true rfl hin.first
      · exact sameGraph rfl rfl rfl rfl rfl hlt hout hout' hrout hin hin' hrin

/-- A graph whose indexes are made by `GenIndex` from the `VertexOffsets` of another, anywhere and in
any order of its parallel rounds, reads as the other does. Where its arrays hold the same elements, so
does the file `WriteGraph` makes of it. -/
theorem generated_sameGraph (h : arrays.WellFormed mem T numNodes) (hlt : numNodes + 1 < 2 ^ 31)
    (hkind : arrays'.isDirected = arrays.isDirected) {entries : ℕ}
    (hentries : (entries : ℤ) = T.sub (mem.entry arrays.outIndex numNodes) arrays.outNeighs)
    (hplaced : arrays'.Placed T numNodes entries) {outOrder inOrder : List ℕ}
    (hout : outOrder.Perm (List.range (numNodes + 1))) (hin : inOrder.Perm (List.range (numNodes + 1)))
    (s s' : Store) :
    ∃ g t outOffsets inOffsets mem' g' t', run (arrays.construct mem T numNodes) s = (.ok g, t) ∧
      g.vertexOffsets mem false = some outOffsets ∧ g.vertexOffsets mem true = some inOffsets ∧
      arrays'.Generated T mem mem' outOffsets inOffsets outOrder inOrder ∧
      run (arrays'.construct mem' T numNodes) s' = (.ok g', t') ∧
      SameGraph numNodes g mem g' mem' ∧
      ∀ elements elements', T = elements.destType →
        elements.Copied entries g.outNeighbors g'.outNeighbors elements' →
          g'.writeGraph mem' elements' = g.writeGraph mem elements := by
  have hrounds : ∀ {index neighs : ℤ} {order : List ℕ}, order.Perm (List.range (numNodes + 1)) →
      Rounds (offsetsOf T numNodes mem index neighs) order := by
    intro index neighs order ho
    have hsize : (toInt32 (offsetsOf T numNodes mem index neighs).length).toNat = numNodes + 1 := by
      rw [offsetsOf, List.length_map, List.length_range, toInt32_of_lt (by omega) (by omega)]
      rfl
    rw [Rounds, hsize]
    exact ho
  obtain ⟨mem', hgen, hrout, hrin⟩ :=
    CSRArrays.exists_generated hkind hlt hplaced (hrounds hout) (hrounds hin)
  have hsize : (entries : ℤ) = WellFormed.offset mem T arrays.outIndex arrays.outNeighs numNodes :=
    hentries
  have htotal : WellFormed.offset mem T arrays.inIndex arrays.inNeighs numNodes =
      WellFormed.offset mem T arrays.outIndex arrays.outNeighs numNodes :=
    congrArg (· / (T.sizeof : ℤ)) h.total.symm
  have h' : arrays'.WellFormed mem' T numNodes := by
    constructor
    · exact hrout.wellFormed h.out (hsize ▸ hplaced.out)
    · apply hrin.wellFormed h.in'
      rw [htotal]
      exact hsize ▸ hplaced.in'
    · rw [hrout numNodes le_rfl, hrin numNodes le_rfl, htotal]
      simp only [ElementType.add, add_sub_cancel_left]
  obtain ⟨g, t, g', t', hrun, hrun', hT, hn, hindex, hneighs, -, hoff, hoff', hsame⟩ :=
    construct_sameGraph hkind h h' hlt hrout hrin s s'
  refine ⟨g, t, _, _, mem', g', t', hrun, hoff, hoff', hgen, hrun', hsame, ?_⟩
  intro elements elements' htype hcopied
  apply hsame.writeGraph_eq hn (hT.trans htype)
  · rw [hT, hindex, hneighs]
    exact h.out
  · rw [hT, hindex, hneighs]
    exact hentries
  · exact hcopied

theorem generated_sameGraph_loopMemory :
    ∃ g t outOffsets inOffsets mem' g' t',
      run ((CSRArrays.directed 4096 8192 12288 16384).construct loopMemory intType 1) .init =
        (.ok g, t) ∧
      g.vertexOffsets loopMemory false = some outOffsets ∧
      g.vertexOffsets loopMemory true = some inOffsets ∧
      (CSRArrays.directed 20480 24576 28672 32768).Generated intType loopMemory mem' outOffsets inOffsets
        [1, 0] [0, 1] ∧
      run ((CSRArrays.directed 20480 24576 28672 32768).construct mem' intType 1) .init =
        (.ok g', t') ∧
      SameGraph 1 g loopMemory g' mem' ∧
      ∀ elements elements', intType = elements.destType →
        elements.Copied 2 g.outNeighbors g'.outNeighbors elements' →
          g'.writeGraph mem' elements' = g.writeGraph loopMemory elements := by
  have hwf : (CSRArrays.directed 4096 8192 12288 16384).WellFormed loopMemory intType 1 :=
    ⟨wellFormed_loopMemory (by decide), wellFormed_loopMemory (by decide), by decide⟩
  have hplaced : (CSRArrays.directed 20480 24576 28672 32768).Placed intType 1 (2 : ℕ) := by
    refine ⟨⟨by decide, by decide, by decide, by decide⟩,
      ⟨by decide, by decide, by decide, by decide⟩, fun _ i hi j hj => ?_⟩
    simp only [CSRArrays.outIndex, CSRArrays.inIndex, ElementType.add, pointerType]
    omega
  have hentries : ((2 : ℕ) : ℤ) = intType.sub
      (loopMemory.entry (CSRArrays.directed 4096 8192 12288 16384).outIndex (1 : ℕ))
      (CSRArrays.directed 4096 8192 12288 16384).outNeighs := by decide
  have hlt : 1 + 1 < 2 ^ 31 := by decide
  have hkind : (CSRArrays.directed 20480 24576 28672 32768).isDirected =
      (CSRArrays.directed 4096 8192 12288 16384).isDirected := rfl
  have hout : [1, 0].Perm (List.range (1 + 1)) := by decide
  have hin : [0, 1].Perm (List.range (1 + 1)) := by decide
  exact generated_sameGraph hwf hlt hkind hentries hplaced hout hin .init .init

end CSRGraph

end PickleDevice
