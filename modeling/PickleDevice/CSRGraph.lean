import PickleDevice.AddressRange
import PickleDevice.ArrayIds

namespace PickleDevice

open StateEffect

/-- What a `DestID_*` stored at an address points to. -/
structure Memory where
  loadPtr : ℤ → ℤ

def pointerType : ElementType := ⟨8, by decide, by decide⟩

def Memory.entry (mem : Memory) (index i : ℤ) : ℤ := mem.loadPtr (pointerType.add index i)

structure CSRGraph where
  destType : ElementType
  directed : Bool
  numNodes : ℤ
  numEdges : ℤ
  outIndex : ℤ
  outNeighbors : ℤ
  inIndex : ℤ
  inNeighbors : ℤ
  inIndexArrayDescriptor : Option Ptr
  outIndexArrayDescriptor : Option Ptr
  inNeighborsArrayDescriptor : Option Ptr
  outNeighborsArrayDescriptor : Option Ptr
  deriving DecidableEq

structure Neighborhood where
  n : ℤ
  gIndex : ℤ
  startOffset : ℕ

namespace Neighborhood

def begin' (mem : Memory) (T : ElementType) (h : Neighborhood) : ℤ :=
  T.add (mem.entry h.gIndex h.n) h.startOffset

def end' (mem : Memory) (h : Neighborhood) : ℤ := mem.entry h.gIndex (h.n + 1)

/-- The constructor: the offset is capped by the number of neighbors, an unsigned difference. -/
def new (mem : Memory) (T : ElementType) (n gIndex : ℤ) (startOffset : ℕ) : Neighborhood :=
  let h : Neighborhood := ⟨n, gIndex, 0⟩
  let maxOffset := (toUInt64 (T.sub (h.end' mem) (h.begin' mem T))).toNat
  { h with startOffset := min startOffset maxOffset }

def visited (mem : Memory) (T : ElementType) (h : Neighborhood) : List ℤ :=
  (List.range (T.sub (h.end' mem) (h.begin' mem T)).toNat).map fun k : ℕ => T.add (h.begin' mem T) k

end Neighborhood

namespace CSRGraph

def indexAddressRange (g : CSRGraph) (index : ℤ) : AddressRange :=
  ⟨toUInt64 index, toUInt64 (pointerType.add (pointerType.add index g.numNodes) 1)⟩

def neighborsAddressRange (g : CSRGraph) (neighbors : ℤ) : AddressRange :=
  ⟨toUInt64 neighbors, toUInt64 (g.destType.add neighbors g.numEdges)⟩

def getOutIndexAddressRange (g : CSRGraph) : AddressRange := g.indexAddressRange g.outIndex

def getOutIndexElementSize (_ : CSRGraph) : UInt64 := UInt64.ofNat pointerType.sizeof

def getOutIndexArrayDescriptor (g : CSRGraph) : Option Ptr := g.outIndexArrayDescriptor

def outIndexIndexedBy (g : CSRGraph) (descriptor : Option Ptr) : Action Unit :=
  indexedBy g.outIndexArrayDescriptor descriptor

def getInIndexAddressRange (g : CSRGraph) : AddressRange := g.indexAddressRange g.inIndex

def getInIndexElementSize (_ : CSRGraph) : UInt64 := UInt64.ofNat pointerType.sizeof

def getInIndexArrayDescriptor (g : CSRGraph) : Option Ptr := g.inIndexArrayDescriptor

def inIndexIndexedBy (g : CSRGraph) (descriptor : Option Ptr) : Action Unit :=
  indexedBy g.inIndexArrayDescriptor descriptor

def getOutNeighborsAddressRange (g : CSRGraph) : AddressRange :=
  g.neighborsAddressRange g.outNeighbors

def getOutNeighborsElementSize (g : CSRGraph) : UInt64 := UInt64.ofNat g.destType.sizeof

def getOutNeighborsArrayDescriptor (g : CSRGraph) : Option Ptr := g.outNeighborsArrayDescriptor

def outNeighborsIndexedBy (g : CSRGraph) (descriptor : Option Ptr) : Action Unit :=
  indexedBy g.outNeighborsArrayDescriptor descriptor

def getInNeighborsAddressRange (g : CSRGraph) : AddressRange :=
  g.neighborsAddressRange g.inNeighbors

def getInNeighborsElementSize (g : CSRGraph) : UInt64 := UInt64.ofNat g.destType.sizeof

def getInNeighborsArrayDescriptor (g : CSRGraph) : Option Ptr := g.inNeighborsArrayDescriptor

def inNeighborsIndexedBy (g : CSRGraph) (descriptor : Option Ptr) : Action Unit :=
  indexedBy g.inNeighborsArrayDescriptor descriptor

def numEdgesDirected (g : CSRGraph) : ℤ := if g.directed then g.numEdges else 2 * g.numEdges

def outNeigh (g : CSRGraph) (mem : Memory) (n : ℤ) (startOffset : ℕ) : Neighborhood :=
  .new mem g.destType n g.outIndex startOffset

def inNeigh (g : CSRGraph) (mem : Memory) (n : ℤ) (startOffset : ℕ) : Neighborhood :=
  .new mem g.destType n g.inIndex startOffset

def constructArrayRelations (g : CSRGraph) : Action Unit := do
  g.inNeighborsIndexedBy g.getInIndexArrayDescriptor
  g.outNeighborsIndexedBy g.getOutIndexArrayDescriptor

def constructArrayDescriptors (g : CSRGraph) : Action CSRGraph := do
  let inIndex ← newDescribed g.getInIndexAddressRange.start g.getInIndexAddressRange.stop
    g.getInIndexElementSize
  let outIndex ← newDescribed g.getOutIndexAddressRange.start g.getOutIndexAddressRange.stop
    g.getOutIndexElementSize
  let inNeighbors ← newDescribed g.getInNeighborsAddressRange.start
    g.getInNeighborsAddressRange.stop g.getInNeighborsElementSize
  let outNeighbors ← newDescribed g.getOutNeighborsAddressRange.start
    g.getOutNeighborsAddressRange.stop g.getOutNeighborsElementSize
  let g := { g with
    inIndexArrayDescriptor := some inIndex
    outIndexArrayDescriptor := some outIndex
    inNeighborsArrayDescriptor := some inNeighbors
    outNeighborsArrayDescriptor := some outNeighbors }
  g.constructArrayRelations
  return g

def undirected (mem : Memory) (T : ElementType) (numNodes index neighs : ℤ) : Action CSRGraph :=
  let numEdges := (T.sub (mem.entry index numNodes) (mem.entry index 0)).tdiv 2
  constructArrayDescriptors
    ⟨T, false, numNodes, numEdges, index, neighs, index, neighs, none, none, none, none⟩

def fromDirected (mem : Memory) (T : ElementType)
    (numNodes outIndex outNeighs inIndex inNeighs : ℤ) : Action CSRGraph :=
  let numEdges := T.sub (mem.entry outIndex numNodes) (mem.entry outIndex 0)
  constructArrayDescriptors
    ⟨T, true, numNodes, numEdges, outIndex, outNeighs, inIndex, inNeighs, none, none, none, none⟩

def default (T : ElementType) : CSRGraph := ⟨T, false, -1, -1, 0, 0, 0, 0, none, none, none, none⟩

def deleteUnlessNull (array : ℤ) : List ℤ := if array ≠ 0 then [array] else []

/-- `ReleaseResources`: the graph afterwards, and the arrays it deletes. -/
def releaseResources (g : CSRGraph) : CSRGraph × List ℤ :=
  let deleted := deleteUnlessNull g.outIndex ++ deleteUnlessNull g.outNeighbors
  let deleted :=
    if g.directed then deleted ++ deleteUnlessNull g.inIndex ++ deleteUnlessNull g.inNeighbors
    else deleted
  ({ g with
      inIndexArrayDescriptor := none
      outIndexArrayDescriptor := none
      inNeighborsArrayDescriptor := none
      outNeighborsArrayDescriptor := none }, deleted)

def moved (other : CSRGraph) : CSRGraph × CSRGraph :=
  (other,
    { other with
      numEdges := -1
      numNodes := -1
      outIndex := 0
      outNeighbors := 0
      inIndex := 0
      inNeighbors := 0 })

/-- `operator=(CSRGraph &&other)` on two different graphs, and the arrays it deletes. -/
def moveAssign (g other : CSRGraph) : (CSRGraph × CSRGraph) × List ℤ :=
  let (g, deleted) := g.releaseResources
  let g := { g with
    directed := other.directed
    numEdges := other.numEdges
    numNodes := other.numNodes
    outIndex := other.outIndex
    outNeighbors := other.outNeighbors
    inIndex := other.inIndex
    inNeighbors := other.inNeighbors
    inIndexArrayDescriptor := other.inIndexArrayDescriptor
    outIndexArrayDescriptor := other.outIndexArrayDescriptor
    inNeighborsArrayDescriptor := other.inNeighborsArrayDescriptor
    outNeighborsArrayDescriptor := other.outNeighborsArrayDescriptor }
  let other := { other with
    numEdges := -1
    numNodes := -1
    outIndex := 0
    outNeighbors := 0
    inIndex := 0
    inNeighbors := 0
    inIndexArrayDescriptor := none
    outIndexArrayDescriptor := none
    inNeighborsArrayDescriptor := none
    outNeighborsArrayDescriptor := none }
  ((g, other), deleted)

def withDescriptors (g : CSRGraph) (p : Ptr) : CSRGraph :=
  { g with
    inIndexArrayDescriptor := some p
    outIndexArrayDescriptor := some (p + 1)
    inNeighborsArrayDescriptor := some (p + 2)
    outNeighborsArrayDescriptor := some (p + 3) }

def describedStore (g : CSRGraph) (s : Store) : Store :=
  (((s.allocDescribed g.getInIndexAddressRange.start g.getInIndexAddressRange.stop
    g.getInIndexElementSize).allocDescribed g.getOutIndexAddressRange.start
    g.getOutIndexAddressRange.stop g.getOutIndexElementSize).allocDescribed
    g.getInNeighborsAddressRange.start g.getInNeighborsAddressRange.stop
    g.getInNeighborsElementSize).allocDescribed g.getOutNeighborsAddressRange.start
    g.getOutNeighborsAddressRange.stop g.getOutNeighborsElementSize

def constructedStore (g : CSRGraph) (s : Store) : Store :=
  ((g.describedStore s).linked s.next (s.next + 2)).linked (s.next + 1) (s.next + 3)

theorem run_constructArrayDescriptors (g : CSRGraph) (s : Store) :
    run g.constructArrayDescriptors s = (.ok (g.withDescriptors s.next), g.constructedStore s) := by
  simp only [constructArrayDescriptors, constructArrayRelations, run_bind, run_newDescribed, run_pure,
    inNeighborsIndexedBy, outNeighborsIndexedBy, getInIndexArrayDescriptor,
    getOutIndexArrayDescriptor, run_indexedBy]
  rfl

section Constructed

variable (g : CSRGraph) (s : Store)

theorem describedStore_desc_of_lt {q : ℕ} (h : q < s.next) :
    (g.describedStore s).desc q = s.desc q := by
  simp only [describedStore, Store.allocDescribed_desc, Store.allocDescribed_next]
  split_ifs <;> first | omega | rfl

theorem constructedStore_next : (g.constructedStore s).next = s.next + 4 := by
  simp [constructedStore, describedStore]

theorem constructedStore_desc_of_lt {q : ℕ} (h : q < s.next) :
    (g.constructedStore s).desc q = s.desc q := by
  rw [constructedStore, Store.linked_desc_of_ne (by omega) (by omega),
    Store.linked_desc_of_ne (by omega) (by omega)]
  exact describedStore_desc_of_lt g s h

theorem constructedStore_desc (q : ℕ) : (g.constructedStore s).desc q =
    { (g.describedStore s).desc q with
      arrayId := ((g.constructedStore s).desc q).arrayId
      dstIndexingArrayId := ((g.constructedStore s).desc q).dstIndexingArrayId } := by
  rw [constructedStore, Store.linked_desc, Store.linked_desc (q := q) (s := g.describedStore s)]

theorem describedStore_new :
    (g.describedStore s).desc s.next = PickleArrayDescriptor.new.setRange
        g.getInIndexAddressRange.start g.getInIndexAddressRange.stop g.getInIndexElementSize ∧
      (g.describedStore s).desc (s.next + 1) = PickleArrayDescriptor.new.setRange
        g.getOutIndexAddressRange.start g.getOutIndexAddressRange.stop g.getOutIndexElementSize ∧
      (g.describedStore s).desc (s.next + 2) = PickleArrayDescriptor.new.setRange
        g.getInNeighborsAddressRange.start g.getInNeighborsAddressRange.stop
        g.getInNeighborsElementSize ∧
      (g.describedStore s).desc (s.next + 3) = PickleArrayDescriptor.new.setRange
        g.getOutNeighborsAddressRange.start g.getOutNeighborsAddressRange.stop
        g.getOutNeighborsElementSize ∧
      (g.describedStore s).nextID = s.nextID := by
  simp only [describedStore, Store.allocDescribed_desc, Store.allocDescribed_next,
    Store.allocDescribed_nextID, Nat.add_assoc]
  simp

theorem constructedStore_new :
    (g.constructedStore s).desc s.next =
        ((g.describedStore s).desc s.next).setDst (UInt64.ofNat s.nextID) ∧
      (g.constructedStore s).desc (s.next + 1) =
        ((g.describedStore s).desc (s.next + 1)).setDst (UInt64.ofNat (s.nextID + 1)) ∧
      (g.constructedStore s).desc (s.next + 2) =
        { (g.describedStore s).desc (s.next + 2) with arrayId := UInt64.ofNat s.nextID } ∧
      (g.constructedStore s).desc (s.next + 3) =
        { (g.describedStore s).desc (s.next + 3) with arrayId := UInt64.ofNat (s.nextID + 1) } ∧
      (g.constructedStore s).nextID = s.nextID + 2 := by
  obtain ⟨hii, hoi, hin, hon, hnext⟩ := describedStore_new g s
  have hin0 : ((g.describedStore s).desc (s.next + 2)).arrayId = unassignedID := by
    rw [hin]
    rfl
  have hon0 : ((g.describedStore s).desc (s.next + 3)).arrayId = unassignedID := by
    rw [hon]
    rfl
  simp [constructedStore, Store.linked, Store.withId, Store.idOf, Store.modify_desc_apply, hin0, hon0,
    hnext]

end Constructed

end CSRGraph

end PickleDevice
