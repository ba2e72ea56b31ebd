import Mathlib.Algebra.BigOperators.Ring.Finset
import PickleDevice.GraphDump

namespace PickleDevice

open StateEffect Segments

/-- An `int64_t` or a `size_t` as an `int`: its low 32 bits. -/
def toInt32 (n : ℤ) : ℤ := n.bmod (2 ^ 32)

structure Range where
  from' : ℤ
  to' : ℤ

/-- The loop compares with `!=` and so does not end before its end is met; there `++x` overflows. -/
def rangeLoop (x stop : ℤ) : Option (List ℤ) :=
  if x ≠ stop then
    match _h : increment x with
    | some next => (rangeLoop next stop).map (x :: ·)
    | none => none
  else some []
termination_by (2 ^ 31 - x).toNat
decreasing_by
  unfold increment at _h
  split at _h
  · cases _h
    omega
  · cases _h

def Range.values (r : Range) : Option (List ℤ) := rangeLoop r.from' r.to'

namespace CSRGraph

def vertices (g : CSRGraph) : Range := ⟨0, toInt32 g.numNodes⟩

def outDegree (g : CSRGraph) (mem : Memory) (v : ℤ) : ℤ :=
  g.destType.sub (mem.entry g.outIndex (v + 1)) (mem.entry g.outIndex v)

def inDegree (g : CSRGraph) (mem : Memory) (v : ℤ) : ℤ :=
  g.destType.sub (mem.entry g.inIndex (v + 1)) (mem.entry g.inIndex v)

/-- `for (u : g.vertices()) for (v : g.out_neigh(u))`, or the same with `in_neigh`: the addresses
read. -/
def walk (g : CSRGraph) (mem : Memory) (neigh : ℤ → ℕ → Neighborhood) : Option (List ℤ) :=
  g.vertices.values.map fun vs => vs.flatMap fun v => (neigh v 0).visited mem g.destType

end CSRGraph

theorem rangeLoop_of_le {x stop : ℤ} (hle : x ≤ stop) (hstop : stop < 2 ^ 31) :
    rangeLoop x stop = some ((List.range (stop - x).toNat).map fun i : ℕ => x + i) := by
  obtain ⟨n, hn⟩ := Int.eq_ofNat_of_zero_le (Int.sub_nonneg_of_le hle)
  induction n generalizing x with
  | zero =>
    have heq : x = stop := by omega
    rw [rangeLoop, if_neg (by simpa using heq), hn]
    rfl
  | succ n ih =>
    have hinc : increment x = some (x + 1) := if_pos (by omega)
    have hrest := ih (x := x + 1) (by omega) (by omega)
    rw [rangeLoop, if_pos (by omega)]
    split
    · next next h =>
      cases hinc.symm.trans h
      have hsize : (stop - x).toNat = (stop - (x + 1)).toNat + 1 := by omega
      rw [hrest, hsize, List.range_succ_eq_map]
      simp only [List.map_cons, List.map_map, Function.comp_def, Option.map_some]
      congr 2
      · omega
      · apply List.map_congr_left
        intro i _
        push_cast
        omega
    · next h => cases hinc.symm.trans h

theorem rangeLoop_of_lt {x stop : ℤ} (hlt : stop < x) (hx : x < 2 ^ 31) :
    rangeLoop x stop = none := by
  obtain ⟨n, hn⟩ := Int.eq_ofNat_of_zero_le (Int.sub_nonneg_of_le (Int.le_sub_one_of_lt hx))
  induction n generalizing x with
  | zero =>
    have hinc : increment x = none := if_neg (by omega)
    rw [rangeLoop, if_pos (by omega)]
    split
    · next h => cases hinc.symm.trans h
    · rfl
  | succ n ih =>
    have hinc : increment x = some (x + 1) := if_pos (by omega)
    have hrest := ih (x := x + 1) (by omega) (by omega) (by omega)
    rw [rangeLoop, if_pos (by omega)]
    split
    · next next h =>
      cases hinc.symm.trans h
      rw [hrest]
      rfl
    · rfl

theorem toInt32_lt (n : ℤ) : toInt32 n < 2 ^ 31 := by
  have h := Int.bmod_lt (x := n) (m := 2 ^ 32) (by decide)
  rw [toInt32]
  omega

theorem toInt32_of_lt {n : ℤ} (h0 : 0 ≤ n) (h : n < 2 ^ 31) : toInt32 n = n :=
  Int.bmod_eq_of_le (by omega) (by omega)

namespace CSRGraph

variable {g : CSRGraph} {mem : Memory}

theorem vertices_values : g.vertices.values = if 0 ≤ toInt32 g.numNodes then
    some ((List.range (toInt32 g.numNodes).toNat).map Nat.cast) else none := by
  have hlt := toInt32_lt g.numNodes
  rw [Range.values, vertices]
  split_ifs with h
  · rw [rangeLoop_of_le h hlt]
    simp
  · have hneg : toInt32 g.numNodes < 0 := by omega
    exact rangeLoop_of_lt hneg (by norm_num)

/-- Counting past `int` goes wrong in two ways: a count that wraps to a negative one is walked to the
overflow, one that wraps to a positive one loses vertices. -/
theorem vertices_values_iff (h : -1 ≤ g.numNodes) :
    g.vertices.values = some ((List.range g.numNodes.toNat).map Nat.cast) ↔
      0 ≤ g.numNodes ∧ g.numNodes < 2 ^ 31 := by
  rw [vertices_values]
  constructor
  · intro heq
    split_ifs at heq with h0
    have hlen := congrArg List.length (Option.some.inj heq)
    simp only [List.length_map, List.length_range] at hlen
    have hlt := toInt32_lt g.numNodes
    refine ⟨?_, by omega⟩
    by_contra hneg
    have hone : g.numNodes = -1 := by omega
    rw [hone] at h0
    revert h0
    decide
  · rintro ⟨h0, hlt⟩
    rw [toInt32_of_lt h0 hlt, if_pos h0]

end CSRGraph

namespace WellFormed

variable {mem : Memory} {T : ElementType} {numNodes : ℕ} {index neighs : ℤ} {v : ℕ}

theorem visited_eq (h : WellFormed mem T numNodes index neighs) (hv : v < numNodes) :
    ∃ m : ℕ, mem.entry index (v + 1) = T.add (mem.entry index v) m ∧
      ∀ k, (Neighborhood.new mem T v index k).visited mem T =
        ((List.range m).drop k).map fun i : ℕ => T.add (mem.entry index v) i := by
  obtain ⟨m, hm, he⟩ := h.degree hv
  refine ⟨m, he, fun k => ?_⟩
  have hmax : (toUInt64 (T.sub (T.add (mem.entry index v) m) (mem.entry index v))).toNat = m := by
    rw [ElementType.sub_add, toUInt64_toNat (by omega) (by omega), Int.toNat_natCast]
  have hadd : T.add (mem.entry index v) m =
      T.add (T.add (mem.entry index v) (min k m : ℕ)) (m - (min k m : ℕ)) := by
    rw [ElementType.add_add]
    congr 1
    omega
  simp only [Neighborhood.visited, Neighborhood.new, Neighborhood.begin', Neighborhood.end', he,
    Int.natCast_zero, ElementType.add_zero', hmax]
  rw [hadd, ElementType.sub_add]
  apply List.ext_getElem
  · simp only [List.length_map, List.length_range, List.length_drop]
    omega
  · intro i hi hi'
    simp only [List.length_map, List.length_range, List.length_drop] at hi hi'
    simp only [List.getElem_map, List.getElem_range, List.getElem_drop, ElementType.add_add]
    congr 1
    omega

theorem visited_drop (h : WellFormed mem T numNodes index neighs) (hv : v < numNodes) (k : ℕ) :
    (Neighborhood.new mem T v index k).visited mem T =
      ((Neighborhood.new mem T v index 0).visited mem T).drop k := by
  obtain ⟨m, -, hvis⟩ := h.visited_eq hv
  rw [hvis, hvis, List.drop_zero, List.map_drop]

theorem degree_eq (h : WellFormed mem T numNodes index neighs) (hv : v < numNodes) :
    T.sub (mem.entry index (v + 1)) (mem.entry index v) =
      ((Neighborhood.new mem T v index 0).visited mem T).length := by
  obtain ⟨m, he, hvis⟩ := h.visited_eq hv
  rw [he, ElementType.sub_add, hvis, List.length_map, List.drop_zero, List.length_range]

theorem visited_joined (h : WellFormed mem T numNodes index neighs) {n : ℕ} (hn : n ≤ numNodes) :
    joined (fun v : ℕ => (Neighborhood.new mem T v index 0).visited mem T) n =
      (List.range (offset mem T index neighs n).toNat).map fun i : ℕ => T.add neighs i := by
  induction n with
  | zero =>
    have hfirst : mem.entry index (0 : ℕ) = neighs := h.first
    rw [offset, hfirst, ElementType.sub_self']
    rfl
  | succ n ih =>
    obtain ⟨m, he, hvis⟩ := h.visited_eq hn
    have hsucc := h.offset_succ hn
    have hnonneg := h.offset_nonneg (Nat.le_of_succ_le hn)
    rw [hvis, List.length_map, List.drop_zero, List.length_range] at hsucc
    rw [joined_succ, ih (by omega), hsucc, List.range_add, List.map_append, hvis, List.drop_zero,
      List.map_map]
    congr 1
    apply List.map_congr_left
    intro i _
    rw [h.entry_eq (Nat.le_of_succ_le hn), ElementType.add_add, Function.comp_apply]
    congr 1
    omega

end WellFormed

theorem WellFormed.degree_sum {mem : Memory} {T : ElementType} {numNodes : ℕ} {index neighs : ℤ}
    (h : WellFormed mem T numNodes index neighs) :
    ((List.range numNodes).map fun v : ℕ =>
      T.sub (mem.entry index (v + 1)) (mem.entry index v)).sum = T.sub (mem.entry index numNodes) neighs := by
  have hlen := h.length_joined (fun _ _ => rfl) numNodes le_rfl
  have hdeg : (List.range numNodes).map (fun v : ℕ =>
      T.sub (mem.entry index (v + 1)) (mem.entry index v)) = (List.range numNodes).map
        fun v : ℕ => (((Neighborhood.new mem T v index 0).visited mem T).length : ℤ) := by
    apply List.map_congr_left
    intro v hv
    exact h.degree_eq (List.mem_range.mp hv)
  rw [joined, List.length_flatMap] at hlen
  rw [hdeg, ← Int.toNat_of_nonneg h.entries_nonneg, ← offset, ← hlen, Nat.cast_list_sum, List.map_map]
  rfl

structure ReadInOrder (g : CSRGraph) (mem : Memory) (neigh : ℤ → ℕ → Neighborhood) (degree : ℤ → ℤ)
    (neighs : ℤ) (numNodes entries : ℕ) : Prop where
  offsets : numNodes < 2 ^ 31 → ∀ v < numNodes, ∀ k,
    (neigh v k).visited mem g.destType = ((neigh v 0).visited mem g.destType).drop k
  degrees : numNodes < 2 ^ 31 → ∀ v < numNodes, degree v = ((neigh v 0).visited mem g.destType).length
  total : numNodes < 2 ^ 31 → ((List.range numNodes).map fun v : ℕ => degree v).sum = entries
  all : numNodes < 2 ^ 31 →
    g.walk mem neigh = some ((List.range entries).map fun i : ℕ => g.destType.add neighs i)

namespace CSRGraph

variable {g : CSRGraph} {mem : Memory} {numNodes : ℕ} {index neighs : ℤ}

theorem readInOrder (hn : g.numNodes = numNodes)
    (h : WellFormed mem g.destType numNodes index neighs) :
    ReadInOrder g mem (fun v k => .new mem g.destType v index k)
      (fun v => g.destType.sub (mem.entry index (v + 1)) (mem.entry index v)) neighs numNodes
      (g.destType.sub (mem.entry index numNodes) neighs).toNat := by
  constructor
  · exact fun _ v hv k => h.visited_drop hv k
  · exact fun _ v hv => h.degree_eq hv
  · intro _
    rw [h.degree_sum, Int.toNat_of_nonneg h.entries_nonneg]
  · intro hlt
    have hvs := (vertices_values_iff (g := g) (by omega)).mpr ⟨by omega, by omega⟩
    rw [hn, Int.toNat_natCast] at hvs
    rw [walk, hvs, Option.map_some, List.flatMap_map]
    exact congrArg some (h.visited_joined le_rfl)

theorem vertices_values_natCast (hn : g.numNodes = numNodes) :
    g.vertices.values = some ((List.range numNodes).map Nat.cast) ↔ numNodes < 2 ^ 31 := by
  have hiff := vertices_values_iff (g := g) (by omega)
  rw [hn, Int.toNat_natCast] at hiff
  rw [hiff]
  omega

/-- Of an undirected graph that stores an odd number of entries, `num_edges_directed` leaves out one. -/
theorem construct_readInOrder {T : ElementType} {arrays : CSRArrays}
    (h : arrays.WellFormed mem T numNodes) (s : Store) :
    ∃ g t entries, run (arrays.construct mem T numNodes) s = (.ok g, t) ∧
      ReadInOrder g mem (g.outNeigh mem) (g.outDegree mem) g.outNeighbors numNodes entries ∧
      ReadInOrder g mem (g.inNeigh mem) (g.inDegree mem) g.inNeighbors numNodes entries ∧
      (entries : ℤ) = g.numEdgesDirected + (if g.directed then 0 else (entries : ℤ) % 2) ∧
      (g.vertices.values = some ((List.range numNodes).map Nat.cast) ↔ numNodes < 2 ^ 31) := by
  obtain ⟨hout, hin, htotal⟩ := h
  have hcount : T.sub (mem.entry arrays.outIndex numNodes) arrays.outNeighs =
      T.sub (mem.entry arrays.inIndex numNodes) arrays.inNeighs := congrArg (· / (T.sizeof : ℤ)) htotal
  have hnonneg := hout.entries_nonneg
  have hhalf := hout.half_entries
  cases arrays with
  | undirected index neighs =>
    simp only [CSRArrays.outIndex, CSRArrays.outNeighs, CSRArrays.inIndex, CSRArrays.inNeighs] at *
    rw [CSRArrays.construct, CSRGraph.undirected, run_constructArrayDescriptors, hhalf]
    refine ⟨_, _, _, rfl, readInOrder rfl hout, readInOrder rfl hin, ?_, vertices_values_natCast rfl⟩
    simp only [numEdgesDirected, withDescriptors, Bool.false_eq_true, if_false]
    omega
  | directed outIndex outNeighs inIndex inNeighs =>
    simp only [CSRArrays.outIndex, CSRArrays.outNeighs, CSRArrays.inIndex, CSRArrays.inNeighs] at *
    rw [CSRArrays.construct, CSRGraph.fromDirected, run_constructArrayDescriptors, hout.first]
    have hreadIn := readInOrder (g := withDescriptors ⟨T, true, numNodes,
      T.sub (mem.entry outIndex numNodes) outNeighs, outIndex, outNeighs, inIndex, inNeighs, none, none,
      none, none⟩ s.next) rfl hin
    refine ⟨_, _, _, rfl, readInOrder rfl hout, ?_, ?_, vertices_values_natCast rfl⟩
    · have hsame := congrArg Int.toNat hcount
      simp only [withDescriptors] at hreadIn ⊢
      rw [hsame]
      exact hreadIn
    · simp only [numEdgesDirected, withDescriptors, if_true, add_zero]
      exact Int.toNat_of_nonneg hnonneg

theorem construct_readInOrder_loopMemory :
    ∃ g t entries,
      run ((CSRArrays.directed 4096 8192 12288 16384).construct loopMemory intType 1) .init =
        (.ok g, t) ∧
      ReadInOrder g loopMemory (g.outNeigh loopMemory) (g.outDegree loopMemory) g.outNeighbors 1
        entries ∧
      ReadInOrder g loopMemory (g.inNeigh loopMemory) (g.inDegree loopMemory) g.inNeighbors 1 entries ∧
      (entries : ℤ) = g.numEdgesDirected + (if g.directed then 0 else (entries : ℤ) % 2) ∧
      (g.vertices.values = some ((List.range 1).map Nat.cast) ↔ 1 < 2 ^ 31) := by
  have hwf : (CSRArrays.directed 4096 8192 12288 16384).WellFormed loopMemory intType 1 :=
    ⟨wellFormed_loopMemory (by decide), wellFormed_loopMemory (by decide), by decide⟩
  exact construct_readInOrder hwf .init

end CSRGraph

end PickleDevice
