import PickleDevice.GraphDump
import PickleDevice.Library.TextFormat

namespace PickleDevice

open StateEffect Segments TextFormat

structure NodeWeight where
  v : ℤ
  w : ℤ

def nodeWeightType : ElementType := ⟨2 * intType.sizeof, by decide, by decide⟩

section Loops

def writeNeighbors (entry : ℤ → Option String) : List ℤ → String → Option String
  | [], gfile => some gfile
  | n :: ns, gfile => do
    let text ← entry n
    writeNeighbors entry ns (gfile ++ text)

def writeNodes (entry : ℤ → Option String) (visited : ℕ → List ℤ) : List ℕ → String → Option String
  | [], gfile => some gfile
  | i :: is, gfile => do
    let gfile ← writeNeighbors entry (visited i) gfile
    writeNodes entry visited is (gfile ++ "\n")

end Loops

namespace CSRGraph

def writeGraphWith (g : CSRGraph) (mem : Memory) (flag : String) (entry : ℤ → Option String) :
    Option String := do
  let is ← intRange g.numNodes
  let gfile := toString g.numNodes ++ " " ++ toString g.numEdges ++ flag
  writeNodes entry (fun i => (g.outNeigh mem i 0).visited mem g.destType) is gfile

/-- `WriteGraph` of a `CSRGraph<int, NodeWeight<int,int>, true>`. -/
def writeGraphWeighted (g : CSRGraph) (mem : Memory) (load : ℤ → NodeWeight) : Option String :=
  g.writeGraphWith mem " 1\n" fun n => do
    let id ← increment (load n).v
    return toString id ++ " " ++ toString (load n).w ++ " "

/-- `WriteGraph` of a `CSRGraph<int, int, true>`. -/
def writeGraphUnweighted (g : CSRGraph) (mem : Memory) (load : ℤ → ℤ) : Option String :=
  g.writeGraphWith mem " 0\n" fun n => do
    let id ← increment (load n)
    return toString id ++ " "

end CSRGraph

structure Neighbor where
  id : ℤ
  weight : Option ℤ
  deriving DecidableEq

inductive Elements
  | weighted (load : ℤ → NodeWeight)
  | unweighted (load : ℤ → ℤ)

namespace Elements

def destType : Elements → ElementType
  | weighted _ => nodeWeightType
  | unweighted _ => intType

def isWeighted : Elements → Bool
  | weighted _ => true
  | unweighted _ => false

def neighbor : Elements → ℤ → Neighbor
  | weighted load, n => ⟨(load n).v, some (load n).w⟩
  | unweighted load, n => ⟨load n, none⟩

end Elements

def CSRGraph.writeGraph (g : CSRGraph) (mem : Memory) : Elements → Option String
  | .weighted load => g.writeGraphWeighted mem load
  | .unweighted load => g.writeGraphUnweighted mem load

structure GraphFile where
  numNodes : ℤ
  numEdges : ℤ
  weighted : Bool
  neighbors : List (List Neighbor)
  deriving DecidableEq

/-- The numbers that stand for a neighbor: its id counted from 1, and its weight if it has one. -/
def Neighbor.numbers (n : Neighbor) : List ℤ := (n.id + 1) :: n.weight.toList

namespace GraphFile

def flag (weighted : Bool) : ℤ := if weighted then 1 else 0

def text (file : GraphFile) : List Char :=
  item file.numNodes ++ item file.numEdges ++ (toString (flag file.weighted)).toList ++ '\n' ::
    (file.neighbors.map fun ns => (ns.flatMap Neighbor.numbers).flatMap item).flatMap (· ++ ['\n'])

def readFlag : ℤ → Option Bool
  | 0 => some false
  | 1 => some true
  | _ => none

def readWeighted : List ℤ → Option (List Neighbor)
  | [] => some []
  | [_] => none
  | v :: w :: rest => (readWeighted rest).map fun ns => ⟨v - 1, some w⟩ :: ns

def readNeighbors (weighted : Bool) (numbers : List ℤ) : Option (List Neighbor) :=
  if weighted then readWeighted numbers else some (numbers.map fun v => ⟨v - 1, none⟩)

def read (text : List Char) : Option GraphFile :=
  match lines text with
  | [] => none
  | header :: nodes => do
    match ← readInts header with
    | [numNodes, numEdges, flag] =>
      let weighted ← readFlag flag
      let neighbors ← nodes.mapM fun line => do readNeighbors weighted (← readInts line)
      if numNodes = neighbors.length then return ⟨numNodes, numEdges, weighted, neighbors⟩ else none
    | _ => none

def numEntries (file : GraphFile) : ℕ := (file.neighbors.map List.length).sum

structure Valid (file : GraphFile) : Prop where
  nodes : file.numNodes = file.neighbors.length
  weights : ∀ ns ∈ file.neighbors, ∀ n ∈ ns, n.weight.isSome = file.weighted

theorem readFlag_flag (weighted : Bool) : readFlag (flag weighted) = some weighted := by
  cases weighted <;> rfl

theorem readNeighbors_numbers {weighted : Bool} {ns : List Neighbor}
    (h : ∀ n ∈ ns, n.weight.isSome = weighted) :
    readNeighbors weighted (ns.flatMap Neighbor.numbers) = some ns := by
  induction ns with
  | nil => cases weighted <;> rfl
  | cons n ns ih =>
    have hn := h n List.mem_cons_self
    have ih := ih fun m hm => h m (List.mem_cons_of_mem _ hm)
    obtain ⟨id, weight⟩ := n
    cases weight with
    | none =>
      obtain rfl : weighted = false := hn.symm
      have hns := Option.some.inj ih
      rw [List.flatMap_cons]
      simp [readNeighbors, Neighbor.numbers, hns]
    | some w =>
      obtain rfl : weighted = true := hn.symm
      have hns : readWeighted (ns.flatMap Neighbor.numbers) = some ns := ih
      simp [readNeighbors, Neighbor.numbers, readWeighted, hns]

theorem lines_text (file : GraphFile) : lines file.text =
    (item file.numNodes ++ (item file.numEdges ++ (toString (flag file.weighted)).toList)) ::
      file.neighbors.map fun ns => (ns.flatMap Neighbor.numbers).flatMap item := by
  rw [text, List.append_assoc (item file.numNodes), lines_append, lines_flatMap]
  · intro l hl
    obtain ⟨ns, -, rfl⟩ := List.mem_map.mp hl
    exact newline_not_mem_items _
  · simp only [List.mem_append, not_or]
    exact ⟨newline_not_mem_item _, newline_not_mem_item _, newline_not_mem_toString _⟩

theorem read_text {file : GraphFile} (h : file.Valid) : read file.text = some file := by
  have hheader := readInts_cons (n := file.numNodes)
    (readInts_cons (n := file.numEdges) (readInts_last (flag file.weighted)))
  have hnodes : (file.neighbors.map fun ns => (ns.flatMap Neighbor.numbers).flatMap item).mapM
      (fun line => (readInts line).bind (readNeighbors file.weighted)) = some file.neighbors := by
    apply mapM_map_some
    intro ns hns
    rw [readInts_items]
    exact readNeighbors_numbers (h.weights ns hns)
  rw [read, lines_text]
  simp only [hheader, Option.bind_eq_bind, Option.bind_some, readFlag_flag]
  rw [hnodes, Option.bind_some, if_pos h.nodes]
  rfl

end GraphFile

section Loops

variable {entry : ℤ → Option String} {numbers : ℤ → List ℤ}

theorem writeNeighbors_eq {ns : List ℤ} (gfile : String)
    (h : ∀ n ∈ ns, ∃ text, entry n = some text ∧ text.toList = (numbers n).flatMap item) :
    ∃ text, writeNeighbors entry ns gfile = some text ∧
      text.toList = gfile.toList ++ (ns.flatMap numbers).flatMap item := by
  induction ns generalizing gfile with
  | nil => exact ⟨gfile, rfl, (List.append_nil _).symm⟩
  | cons n ns ih =>
    obtain ⟨text, he, ht⟩ := h n List.mem_cons_self
    obtain ⟨rest, hr, hrest⟩ := ih (gfile ++ text) fun m hm => h m (List.mem_cons_of_mem _ hm)
    refine ⟨rest, ?_, ?_⟩
    · rw [writeNeighbors, he]
      exact hr
    · rw [hrest, String.toList_append, ht, List.flatMap_cons, List.flatMap_append,
        List.append_assoc]

theorem writeNodes_eq {visited : ℕ → List ℤ} {is : List ℕ} (gfile : String)
    (h : ∀ i ∈ is, ∀ n ∈ visited i, ∃ text, entry n = some text ∧
      text.toList = (numbers n).flatMap item) :
    ∃ text, writeNodes entry visited is gfile = some text ∧ text.toList = gfile.toList ++
      (is.map fun i => ((visited i).flatMap numbers).flatMap item).flatMap (· ++ ['\n']) := by
  induction is generalizing gfile with
  | nil => exact ⟨gfile, rfl, (List.append_nil _).symm⟩
  | cons i is ih =>
    obtain ⟨line, hl, hline⟩ := writeNeighbors_eq gfile (h i List.mem_cons_self)
    obtain ⟨rest, hr, hrest⟩ := ih (line ++ "\n") fun j hj => h j (List.mem_cons_of_mem _ hj)
    refine ⟨rest, ?_, ?_⟩
    · rw [writeNodes, hl]
      exact hr
    · rw [hrest, String.toList_append, hline, List.map_cons, List.flatMap_cons]
      simp only [List.append_assoc]
      rfl

end Loops

def Elements.IdsBelow (elements : Elements) (mem : Memory) (numNodes : ℕ) (index : ℤ) : Prop :=
  ∀ v : ℕ, v < numNodes →
    ∀ n ∈ (Neighborhood.new mem elements.destType v index 0).visited mem elements.destType,
      0 ≤ (elements.neighbor n).id ∧ (elements.neighbor n).id < numNodes

theorem Elements.IdsBelow.of_zero {elements : Elements} {mem : Memory} {numNodes : ℕ} {index : ℤ}
    (h : ∀ n, (elements.neighbor n).id = 0) : elements.IdsBelow mem numNodes index := by
  intro v hv n _
  rw [h n]
  omega

namespace CSRGraph

variable {g : CSRGraph} {mem : Memory} {elements : Elements} {numNodes : ℕ}

def outLists (g : CSRGraph) (mem : Memory) (elements : Elements) (numNodes : ℕ) :
    List (List Neighbor) :=
  (List.range numNodes).map fun v : ℕ =>
    ((g.outNeigh mem v 0).visited mem g.destType).map elements.neighbor

def graphFile (g : CSRGraph) (mem : Memory) (elements : Elements) (numNodes : ℕ) : GraphFile :=
  ⟨numNodes, g.numEdges, elements.isWeighted, g.outLists mem elements numNodes⟩

theorem graphFile_valid : (g.graphFile mem elements numNodes).Valid := by
  constructor
  · simp [graphFile, outLists]
  · intro ns hns n hn
    obtain ⟨v, -, rfl⟩ := List.mem_map.mp hns
    obtain ⟨a, -, rfl⟩ := List.mem_map.mp hn
    cases elements <;> rfl

theorem writeGraphWith_eq {flag : String} {entry : ℤ → Option String} (hn : g.numNodes = numNodes)
    (hlt : numNodes < 2 ^ 31)
    (hflag : flag.toList = ' ' :: (toString (GraphFile.flag elements.isWeighted)).toList ++ ['\n'])
    (hentry : ∀ v : ℕ, v < numNodes → ∀ n ∈ (g.outNeigh mem v 0).visited mem g.destType,
      ∃ text, entry n = some text ∧ text.toList = (elements.neighbor n).numbers.flatMap item) :
    ∃ text, g.writeGraphWith mem flag entry = some text ∧
      text.toList = (g.graphFile mem elements numNodes).text := by
  have hall : ∀ i ∈ List.range numNodes, ∀ n ∈ (g.outNeigh mem i 0).visited mem g.destType,
      ∃ text, entry n = some text ∧ text.toList = (elements.neighbor n).numbers.flatMap item :=
    fun i hi => hentry i (List.mem_range.mp hi)
  obtain ⟨text, hw, ht⟩ :=
    writeNodes_eq (toString g.numNodes ++ " " ++ toString g.numEdges ++ flag) hall
  refine ⟨text, ?_, ?_⟩
  · rw [writeGraphWith, intRange, hn, if_pos (by omega), Int.toNat_natCast]
    rw [hn] at hw
    exact hw
  · have hlines : (g.outLists mem elements numNodes).map
        (fun ns => (ns.flatMap Neighbor.numbers).flatMap item) =
          (List.range numNodes).map fun i : ℕ =>
            (((g.outNeigh mem i 0).visited mem g.destType).flatMap fun n =>
              (elements.neighbor n).numbers).flatMap item := by
      simp only [outLists, List.map_map, Function.comp_def, List.flatMap_map]
    rw [ht, hn, GraphFile.text, graphFile, hlines]
    simp only [String.toList_append, hflag, item, List.append_assoc]
    rfl

theorem increment_eq {id : ℤ} (h : id < 2 ^ 31 - 1) : increment id = some (id + 1) := if_pos h

theorem writeGraph_eq (hn : g.numNodes = numNodes) (hlt : numNodes < 2 ^ 31)
    (hT : g.destType = elements.destType) (hids : elements.IdsBelow mem numNodes g.outIndex) :
    ∃ text, g.writeGraph mem elements = some text ∧
      text.toList = (g.graphFile mem elements numNodes).text := by
  have hid : ∀ v : ℕ, v < numNodes → ∀ n ∈ (g.outNeigh mem v 0).visited mem g.destType,
      (elements.neighbor n).id < 2 ^ 31 - 1 := by
    intro v hv n hmem
    rw [outNeigh, hT] at hmem
    have hbelow := (hids v hv n hmem).2
    omega
  cases elements with
  | weighted load =>
    have hflag : " 1\n".toList = ' ' :: (toString (GraphFile.flag true)).toList ++ ['\n'] := by
      decide
    refine writeGraphWith_eq hn hlt hflag ?_
    intro v hv n hmem
    have hinc : increment (load n).v = some ((load n).v + 1) := increment_eq (hid v hv n hmem)
    refine ⟨toString ((load n).v + 1) ++ " " ++ toString (load n).w ++ " ", ?_, ?_⟩
    · rw [hinc]
      rfl
    · simp [Neighbor.numbers, Elements.neighbor, item]
  | unweighted load =>
    have hflag : " 0\n".toList = ' ' :: (toString (GraphFile.flag false)).toList ++ ['\n'] := by
      decide
    refine writeGraphWith_eq hn hlt hflag ?_
    intro v hv n hmem
    have hinc : increment (load n) = some (load n + 1) := increment_eq (hid v hv n hmem)
    refine ⟨toString (load n + 1) ++ " ", ?_, ?_⟩
    · rw [hinc]
      rfl
    · simp [Neighbor.numbers, Elements.neighbor, item]

theorem numEntries_graphFile {neighs : ℤ}
    (h : WellFormed mem g.destType numNodes g.outIndex neighs) :
    ((g.graphFile mem elements numNodes).numEntries : ℤ) =
      g.destType.sub (mem.entry g.outIndex numNodes) neighs := by
  have hlen := h.length_joined (f := fun v : ℕ =>
    ((g.outNeigh mem v 0).visited mem g.destType).map elements.neighbor)
    (fun v _ => List.length_map _) numNodes le_rfl
  rw [joined, List.length_flatMap] at hlen
  rw [GraphFile.numEntries, graphFile, outLists, List.map_map]
  exact (congrArg Nat.cast hlen).trans (Int.toNat_of_nonneg h.entries_nonneg)

structure Recovered (g : CSRGraph) (mem : Memory) (elements : Elements) (numNodes : ℕ)
    (file : GraphFile) : Prop where
  read : ∃ text, g.writeGraph mem elements = some text ∧ GraphFile.read text.toList = some file
  nodes : file.numNodes = numNodes
  neighbors : file.neighbors = g.outLists mem elements numNodes
  edges : g.numEdgesDirected = if g.directed then file.numEdges else 2 * file.numEdges

theorem recovered_graphFile (hn : g.numNodes = numNodes) (hlt : numNodes < 2 ^ 31)
    (hT : g.destType = elements.destType) (hids : elements.IdsBelow mem numNodes g.outIndex) :
    g.Recovered mem elements numNodes (g.graphFile mem elements numNodes) := by
  obtain ⟨text, hw, ht⟩ := writeGraph_eq hn hlt hT hids
  refine ⟨⟨text, hw, ?_⟩, rfl, rfl, rfl⟩
  rw [ht]
  exact GraphFile.read_text graphFile_valid

/-- An undirected graph stores each edge twice. Where it stores an odd number of neighbors all the
same, as with a loop stored once, halving the number drops one of them. -/
theorem construct_recovered {arrays : CSRArrays}
    (h : arrays.WellFormed mem elements.destType numNodes) (hlt : numNodes < 2 ^ 31)
    (hids : elements.IdsBelow mem numNodes arrays.outIndex) (s : Store) :
    ∃ g t file, run (arrays.construct mem elements.destType numNodes) s = (.ok g, t) ∧
      g.Recovered mem elements numNodes file ∧ (file.numEntries : ℤ) =
        g.numEdgesDirected + if g.directed then 0 else (file.numEntries : ℤ) % 2 := by
  obtain ⟨hout, -, -⟩ := h
  cases arrays with
  | undirected index neighs =>
    simp only [CSRArrays.outIndex, CSRArrays.outNeighs] at hout hids
    rw [CSRArrays.construct, CSRGraph.undirected, run_constructArrayDescriptors, hout.half_entries]
    refine ⟨_, _, _, rfl, recovered_graphFile rfl hlt rfl hids, ?_⟩
    rw [numEntries_graphFile hout]
    simp only [numEdgesDirected, withDescriptors, Bool.false_eq_true, if_false]
    omega
  | directed outIndex outNeighs inIndex inNeighs =>
    simp only [CSRArrays.outIndex, CSRArrays.outNeighs] at hout hids
    rw [CSRArrays.construct, CSRGraph.fromDirected, run_constructArrayDescriptors]
    refine ⟨_, _, _, rfl, recovered_graphFile rfl hlt rfl hids, ?_⟩
    rw [numEntries_graphFile hout]
    simp only [numEdgesDirected, withDescriptors, hout.first, if_true, add_zero]

theorem construct_recovered_loopMemory :
    ∃ g t file,
      run ((CSRArrays.directed 4096 8192 12288 16384).construct loopMemory intType 1) .init =
        (.ok g, t) ∧
      g.Recovered loopMemory (.unweighted fun _ => 0) 1 file ∧ (file.numEntries : ℤ) =
        g.numEdgesDirected + if g.directed then 0 else (file.numEntries : ℤ) % 2 := by
  have hwf : (CSRArrays.directed 4096 8192 12288 16384).WellFormed loopMemory intType 1 :=
    ⟨wellFormed_loopMemory (by decide), wellFormed_loopMemory (by decide), by decide⟩
  have hids : (Elements.unweighted fun _ => 0).IdsBelow loopMemory 1
      (CSRArrays.directed 4096 8192 12288 16384).outIndex := .of_zero fun _ => rfl
  have hlt : 1 < 2 ^ 31 := by decide
  exact construct_recovered hwf hlt hids .init

theorem not_construct_recovered :
    ¬ ∀ (mem : Memory) (elements : Elements) (numNodes : ℕ) (arrays : CSRArrays) (s : Store),
      arrays.WellFormed mem elements.destType numNodes → numNodes < 2 ^ 31 →
      elements.IdsBelow mem numNodes arrays.outIndex →
      ∃ g t file, run (arrays.construct mem elements.destType numNodes) s = (.ok g, t) ∧
        g.Recovered mem elements numNodes file ∧ (file.numEntries : ℤ) = g.numEdgesDirected := by
  intro hall
  have hwf : WellFormed loopMemory nodeWeightType 1 4096 8192 :=
    wellFormed_loopMemory_of_dvd (by decide) (.inl ⟨rfl, rfl⟩)
  obtain ⟨g, t, file, hrun, hrec, hcount⟩ := hall loopMemory (.weighted fun _ => ⟨0, 7⟩) 1
    (.undirected 4096 8192) .init ⟨hwf, hwf, rfl⟩ (by decide) (.of_zero fun _ => rfl)
  rw [CSRArrays.construct, CSRGraph.undirected, run_constructArrayDescriptors] at hrun
  cases hrun
  rw [GraphFile.numEntries, hrec.neighbors] at hcount
  revert hcount
  decide

end CSRGraph

end PickleDevice
