import PickleDevice.GraphRanges
import PickleDevice.Library.Segments

namespace PickleDevice

open StateEffect Segments

/-- A file: a line with a message and a count, and one line for each entry. -/
structure Dump (α : Type) where
  msg : String
  announced : ℤ
  entries : List α

/-- `++count` of an `int`. Signed overflow is undefined: `none`. -/
def increment (count : ℤ) : Option ℤ := if count < 2 ^ 31 - 1 then some (count + 1) else none

/-- The values of `i` in `for (auto i = 0; i < n; ++i)`, where `i` is an `int` and `n` an `int64_t`. -/
def intRange (n : ℤ) : Option (List ℕ) := if n < 2 ^ 31 then some (List.range n.toNat) else none

section Loops

variable {α : Type}

def writeEntries (element : ℤ → α) : List ℤ → List α × ℤ → Option (List α × ℤ)
  | [], state => some state
  | n :: ns, (entries, count) => do
    let count ← increment count
    writeEntries element ns (entries ++ [element n], count)

def writeNeighborhoods (element : ℤ → α) (visited : ℕ → List ℤ) :
    List ℕ → List α × ℤ → Option (List α × ℤ)
  | [], state => some state
  | i :: is, state => do
    let state ← writeEntries element (visited i) state
    writeNeighborhoods element visited is state

end Loops

namespace CSRGraph

variable {α : Type}

def writeIndex (g : CSRGraph) (mem : Memory) (index baseAddr : ℤ) (msg : String) :
    Option (Dump ℤ) := do
  let is ← intRange (g.numNodes + 1)
  return ⟨msg, g.numNodes + 1, is.map fun i : ℕ => g.destType.sub (mem.entry index i) baseAddr⟩

def writeOutIndex (g : CSRGraph) (mem : Memory) (msg : String) : Option (Dump ℤ) :=
  g.writeIndex mem g.outIndex g.outNeighbors msg

def writeInIndex (g : CSRGraph) (mem : Memory) (msg : String) : Option (Dump ℤ) :=
  g.writeIndex mem g.inIndex g.inNeighbors msg

/-- The body of the two functions that write neighbors, named `name`: the file, and the lines printed.
What an element at an address is written as is `element`. -/
def writeNeigh (g : CSRGraph) (mem : Memory) (element : ℤ → α) (neigh : ℤ → ℕ → Neighborhood)
    (name msg : String) : Option (Dump α × List String) := do
  let is ← intRange g.numNodes
  let (entries, count) ←
    writeNeighborhoods element (fun i => (neigh i 0).visited mem g.destType) is ([], 0)
  let warning := name ++ " found wrong number of edges. " ++ toString count ++ " instead of " ++
    toString g.numEdges
  return (⟨msg, g.numEdges, entries⟩, if count ≠ g.numEdges then [warning] else [])

def writeOutNeigh (g : CSRGraph) (mem : Memory) (element : ℤ → α) (msg : String) :
    Option (Dump α × List String) :=
  g.writeNeigh mem element (g.outNeigh mem) "WriteOutNeigh" msg

def writeInNeigh (g : CSRGraph) (mem : Memory) (element : ℤ → α) (msg : String) :
    Option (Dump α × List String) :=
  g.writeNeigh mem element (g.inNeigh mem) "WriteInNeigh" msg

end CSRGraph

def Dump.neighbors {α : Type} (entries : Dump α) (offsets : Dump ℤ) (v : ℕ) : List α :=
  slice entries.entries (offsets.entries.getD v 0).toNat (offsets.entries.getD (v + 1) 0).toNat

def ReadsBack {α : Type} (offsets : Option (Dump ℤ)) (entries : Option (Dump α × List String))
    (numNodes : ℕ) (visited : ℕ → List α) : Prop :=
  ∃ di dn printed, offsets = some di ∧ entries = some (dn, printed) ∧
    di.announced = numNodes + 1 ∧ di.entries.length = numNodes + 1 ∧
    dn.announced = dn.entries.length ∧ (∀ v < numNodes, dn.neighbors di v = visited v) ∧
    printed = []

section Loops

variable {α : Type} {element : ℤ → α} {entries : List α} {count : ℤ}

theorem writeEntries_eq (ns : List ℤ) (h : count < 2 ^ 31) :
    writeEntries element ns (entries, count) = if count + ns.length < 2 ^ 31 then
      some (entries ++ ns.map element, count + ns.length) else none := by
  induction ns generalizing entries count with
  | nil => simpa [writeEntries] using h
  | cons n ns ih =>
    rw [writeEntries, increment]
    by_cases hc : count < 2 ^ 31 - 1
    · rw [if_pos hc, Option.bind_eq_bind, Option.bind_some, ih (by omega)]
      have hlen : count + 1 + (ns.length : ℤ) = count + ((n :: ns).length : ℤ) := by
        rw [List.length_cons]
        omega
      rw [hlen, List.map_cons, List.append_assoc]
      rfl
    · rw [if_neg hc, if_neg]
      · rfl
      · rw [List.length_cons]
        omega

theorem writeNeighborhoods_eq (visited : ℕ → List ℤ) (is : List ℕ) (h : count < 2 ^ 31) :
    writeNeighborhoods element visited is (entries, count) =
      if count + (is.flatMap visited).length < 2 ^ 31 then
        some (entries ++ (is.flatMap visited).map element, count + (is.flatMap visited).length)
      else none := by
  induction is generalizing entries count with
  | nil => simpa [writeNeighborhoods] using h
  | cons i is ih =>
    rw [writeNeighborhoods, writeEntries_eq _ h]
    have hlen : count + ((visited i).length : ℤ) + ((is.flatMap visited).length : ℤ) =
        count + (((i :: is).flatMap visited).length : ℤ) := by
      rw [List.flatMap_cons, List.length_append]
      omega
    by_cases hc : count + ((visited i).length : ℤ) < 2 ^ 31
    · rw [if_pos hc, Option.bind_eq_bind, Option.bind_some, ih hc, hlen, List.flatMap_cons,
        List.map_append, List.append_assoc]
    · rw [if_neg hc, if_neg]
      · rfl
      · omega

end Loops

namespace WellFormed

variable {mem : Memory} {T : ElementType} {numNodes : ℕ} {index neighs : ℤ}

theorem offset_succ (h : WellFormed mem T numNodes index neighs) {v : ℕ} (hv : v < numNodes) :
    (offset mem T index neighs (v + 1)).toNat = (offset mem T index neighs v).toNat +
      ((Neighborhood.new mem T v index 0).visited mem T).length := by
  obtain ⟨m, -, hm⟩ := h.degree hv
  have hlen : ((Neighborhood.new mem T v index 0).visited mem T).length = m := by
    simp only [Neighborhood.visited, Neighborhood.new, Neighborhood.begin', Neighborhood.end',
      Nat.zero_min, Int.natCast_zero, ElementType.add_zero', List.length_map, List.length_range, hm,
      ElementType.sub_add, Int.toNat_natCast]
  have hnext := h.entry_eq (i := v + 1) hv
  rw [Nat.cast_add, Nat.cast_one, hm, h.entry_eq hv.le, ElementType.add_add] at hnext
  have hoff := T.add_inj hnext
  have hnonneg := h.offset_nonneg hv.le
  omega

theorem length_joined (h : WellFormed mem T numNodes index neighs) {α : Type} {f : ℕ → List α}
    (hf : ∀ v < numNodes, (f v).length = ((Neighborhood.new mem T v index 0).visited mem T).length) :
    ∀ v ≤ numNodes, (joined f v).length = (offset mem T index neighs v).toNat := by
  apply joined_length (o := fun v => (offset mem T index neighs v).toNat)
  · have hfirst : mem.entry index (0 : ℕ) = neighs := h.first
    rw [offset, hfirst, ElementType.sub_self']
    rfl
  · intro v hv
    rw [h.offset_succ hv, hf v hv]

end WellFormed

namespace CSRGraph

variable {α : Type} {g : CSRGraph} {mem : Memory} {numNodes : ℕ} {index neighs : ℤ}

theorem writeIndex_eq (hn : g.numNodes = numNodes) (hlt : numNodes < 2 ^ 31 - 1) (msg : String) :
    g.writeIndex mem index neighs msg = some ⟨msg, numNodes + 1,
      (List.range (numNodes + 1)).map (WellFormed.offset mem g.destType index neighs)⟩ := by
  have hnat : ((numNodes : ℤ) + 1).toNat = numNodes + 1 := by omega
  rw [writeIndex, intRange, hn, if_pos (by omega), hnat]
  rfl

theorem writeNeigh_eq (hn : g.numNodes = numNodes) (hlt : numNodes < 2 ^ 31 - 1)
    (element : ℤ → α) (neigh : ℤ → ℕ → Neighborhood) (name msg : String) {entries : List α}
    (he : joined (fun i : ℕ => ((neigh i 0).visited mem g.destType).map element) numNodes = entries) :
    g.writeNeigh mem element neigh name msg = if (entries.length : ℤ) < 2 ^ 31 then
      some (⟨msg, g.numEdges, entries⟩, if (entries.length : ℤ) ≠ g.numEdges then
        [name ++ " found wrong number of edges. " ++ toString (entries.length : ℤ) ++
          " instead of " ++ toString g.numEdges] else [])
      else none := by
  have hmap : ((List.range numNodes).flatMap fun i : ℕ =>
      (neigh i 0).visited mem g.destType).map element = entries := by
    rw [← he, joined, List.map_flatMap]
  have hlen : ((List.range numNodes).flatMap fun i : ℕ =>
      (neigh i 0).visited mem g.destType).length = entries.length := by
    rw [← hmap, List.length_map]
  rw [writeNeigh, intRange, hn, if_pos (by omega), Int.toNat_natCast, Option.bind_eq_bind,
    Option.bind_some, writeNeighborhoods_eq _ _ (by omega), hmap, hlen, List.nil_append, zero_add]
  by_cases hc : (entries.length : ℤ) < 2 ^ 31
  · rw [if_pos hc, if_pos hc]
    rfl
  · rw [if_neg hc, if_neg hc]
    rfl

theorem readsBack_iff (hn : g.numNodes = numNodes) (hlt : numNodes < 2 ^ 31 - 1)
    (h : WellFormed mem g.destType numNodes index neighs) (element : ℤ → α)
    (neigh : ℤ → ℕ → Neighborhood) (hneigh : ∀ v k, neigh v k = .new mem g.destType v index k)
    (name msg msg' : String) :
    ReadsBack (g.writeIndex mem index neighs msg) (g.writeNeigh mem element neigh name msg')
        numNodes (fun v => ((neigh v 0).visited mem g.destType).map element) ↔
      g.numEdges = g.destType.sub (mem.entry index numNodes) neighs ∧ g.numEdges < 2 ^ 31 := by
  generalize hf : (fun i : ℕ => ((neigh i 0).visited mem g.destType).map element) = f
  have hlen : ∀ v ≤ numNodes, (joined f v).length =
      (WellFormed.offset mem g.destType index neighs v).toNat := by
    apply h.length_joined
    intro v _
    rw [← hf, List.length_map, hneigh]
  have htotal : ((joined f numNodes).length : ℤ) =
      g.destType.sub (mem.entry index numNodes) neighs := by
    rw [hlen numNodes le_rfl, Int.toNat_of_nonneg (h.offset_nonneg le_rfl)]
    rfl
  rw [writeIndex_eq hn hlt, writeNeigh_eq hn hlt element neigh name msg' (congrArg (joined · _) hf),
    ← htotal]
  constructor
  · rintro ⟨di, dn, printed, -, hdn, -, -, hcount, -, -⟩
    by_cases hsmall : ((joined f numNodes).length : ℤ) < 2 ^ 31
    · rw [if_pos hsmall] at hdn
      cases hdn
      have hedges : g.numEdges = (joined f numNodes).length := hcount
      exact ⟨hedges, hedges ▸ hsmall⟩
    · rw [if_neg hsmall] at hdn
      cases hdn
  · rintro ⟨hedges, hsmall⟩
    rw [if_pos (by omega), if_neg (by omega)]
    refine ⟨_, _, _, rfl, rfl, rfl, ?_, hedges, ?_, rfl⟩
    · simp
    · intro v hv
      have hget : ∀ i ≤ numNodes, ((List.range (numNodes + 1)).map
          (WellFormed.offset mem g.destType index neighs)).getD i 0 =
            WellFormed.offset mem g.destType index neighs i := by
        intro i hi
        simp [Nat.lt_succ_of_le hi]
      rw [Dump.neighbors, hget v hv.le, hget (v + 1) hv, ← hlen v hv.le, ← hlen (v + 1) hv]
      exact slice_joined hv

def DumpReadsBack (g : CSRGraph) (mem : Memory) (element : ℤ → α) (msg msg' : String)
    (numNodes : ℕ) : Prop :=
  ReadsBack (g.writeOutIndex mem msg) (g.writeOutNeigh mem element msg') numNodes
      (fun v => ((g.outNeigh mem v 0).visited mem g.destType).map element) ∧
    ReadsBack (g.writeInIndex mem msg) (g.writeInNeigh mem element msg') numNodes
      (fun v => ((g.inNeigh mem v 0).visited mem g.destType).map element)

theorem construct_readsBack (g : CSRGraph) (mem : Memory) (element : ℤ → α) (msg msg' : String)
    (numNodes : ℕ) (s : Store) :
    (∃ g' t, run g.constructArrayDescriptors s = (.ok g', t) ∧
      g'.DumpReadsBack mem element msg msg' numNodes) ↔
        g.DumpReadsBack mem element msg msg' numNodes := by
  rw [run_constructArrayDescriptors]
  constructor
  · rintro ⟨g', t, h, hd⟩
    cases h
    exact hd
  · intro hd
    exact ⟨_, _, rfl, hd⟩

theorem dumpReadsBack_iff (g : CSRGraph) (hn : g.numNodes = numNodes) (hlt : numNodes < 2 ^ 31 - 1)
    (hout : WellFormed mem g.destType numNodes g.outIndex g.outNeighbors)
    (hin : WellFormed mem g.destType numNodes g.inIndex g.inNeighbors)
    (htotal : g.destType.sub (mem.entry g.outIndex numNodes) g.outNeighbors =
      g.destType.sub (mem.entry g.inIndex numNodes) g.inNeighbors)
    (element : ℤ → α) (msg msg' : String) :
    g.DumpReadsBack mem element msg msg' numNodes ↔
      g.numEdges = g.destType.sub (mem.entry g.outIndex numNodes) g.outNeighbors ∧
        g.numEdges < 2 ^ 31 := by
  have hiff := readsBack_iff hn hlt hout element (g.outNeigh mem) (fun _ _ => rfl) "WriteOutNeigh" msg
    msg'
  have hiff' := readsBack_iff hn hlt hin element (g.inNeigh mem) (fun _ _ => rfl) "WriteInNeigh" msg
    msg'
  rw [← htotal] at hiff'
  constructor
  · rintro ⟨h, -⟩
    exact hiff.mp h
  · intro h
    exact ⟨hiff.mpr h, hiff'.mpr h⟩

theorem construct_dumpReadsBack_iff {T : ElementType} {arrays : CSRArrays}
    (h : arrays.WellFormed mem T numNodes) (hlt : numNodes < 2 ^ 31 - 1) (s : Store)
    (element : ℤ → α) (msg msg' : String) :
    (∃ g t, run (arrays.construct mem T numNodes) s = (.ok g, t) ∧
      g.DumpReadsBack mem element msg msg' numNodes) ↔
        (∀ index neighs, arrays = .undirected index neighs → mem.entry index numNodes = neighs) ∧
          T.sub (mem.entry arrays.outIndex numNodes) arrays.outNeighs < 2 ^ 31 := by
  obtain ⟨hout, hin, htotal⟩ := h
  have hnonneg := hout.entries_nonneg
  have hentry := hout.entry_eq le_rfl
  cases arrays with
  | undirected index neighs =>
    simp only [CSRArrays.outIndex, CSRArrays.outNeighs, CSRArrays.inIndex, CSRArrays.inNeighs] at *
    rw [CSRArrays.construct, CSRGraph.undirected, construct_readsBack, hout.half_entries,
      dumpReadsBack_iff _ rfl hlt hout hin rfl]
    simp only
    constructor
    · rintro ⟨he, -⟩
      have hzero : T.sub (mem.entry index numNodes) neighs = 0 := by omega
      constructor
      · rintro _ _ ⟨⟩
        rw [hentry, WellFormed.offset, hzero, ElementType.add_zero']
      · omega
    · rintro ⟨he, -⟩
      have hzero : T.sub (mem.entry index numNodes) neighs = 0 := by
        rw [he index neighs rfl, ElementType.sub_self']
      omega
  | directed outIndex outNeighs inIndex inNeighs =>
    simp only [CSRArrays.outIndex, CSRArrays.outNeighs, CSRArrays.inIndex, CSRArrays.inNeighs] at *
    rw [CSRArrays.construct, CSRGraph.fromDirected, construct_readsBack]
    have hfirst : mem.entry outIndex 0 = outNeighs := hout.first
    have hcount : T.sub (mem.entry outIndex numNodes) outNeighs =
        T.sub (mem.entry inIndex numNodes) inNeighs := congrArg (· / (T.sizeof : ℤ)) htotal
    have hiff := dumpReadsBack_iff ⟨T, true, numNodes, T.sub (mem.entry outIndex numNodes) outNeighs,
      outIndex, outNeighs, inIndex, inNeighs, none, none, none, none⟩ rfl hlt hout hin hcount element
      msg msg'
    rw [hfirst, hiff]
    constructor
    · rintro ⟨-, hsmall⟩
      exact ⟨fun _ _ hc => CSRArrays.noConfusion hc, hsmall⟩
    · rintro ⟨-, hsmall⟩
      exact ⟨rfl, hsmall⟩

theorem construct_dumpReadsBack_iff_loopMemory :
    (∃ g t, run ((CSRArrays.directed 4096 8192 12288 16384).construct loopMemory intType 1) .init =
      (.ok g, t) ∧ g.DumpReadsBack loopMemory id "index" "neigh" 1) ↔
        (∀ index neighs, CSRArrays.directed 4096 8192 12288 16384 = .undirected index neighs →
          loopMemory.entry index 1 = neighs) ∧
            intType.sub (loopMemory.entry 4096 1) 8192 < 2 ^ 31 := by
  have hwf : (CSRArrays.directed 4096 8192 12288 16384).WellFormed loopMemory intType 1 :=
    ⟨wellFormed_loopMemory (by decide), wellFormed_loopMemory (by decide), by decide⟩
  exact construct_dumpReadsBack_iff hwf (by decide) .init id "index" "neigh"

theorem not_construct_dumpReadsBack :
    ¬ ∀ (mem : Memory) (T : ElementType) (numNodes : ℕ) (arrays : CSRArrays) (s : Store),
      arrays.WellFormed mem T numNodes → numNodes < 2 ^ 31 - 1 →
        ∃ g t, run (arrays.construct mem T numNodes) s = (.ok g, t) ∧
          g.DumpReadsBack mem id "index" "neigh" numNodes := by
  intro hall
  have hwf := wellFormed_loopMemory (Or.inl ⟨rfl, rfl⟩)
  have hdump := hall loopMemory intType 1 (.undirected 4096 8192) .init ⟨hwf, hwf, rfl⟩ (by decide)
  rw [CSRArrays.construct, CSRGraph.undirected, construct_readsBack] at hdump
  -- One edge is announced, and the two entries of its loop follow.
  obtain ⟨⟨di, dn, printed, -, hdn, -, -, hcount, -⟩, -⟩ := hdump
  cases hdn
  revert hcount
  decide

end CSRGraph

end PickleDevice
