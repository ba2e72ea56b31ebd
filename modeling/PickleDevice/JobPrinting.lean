import PickleDevice.JobFormat

namespace PickleDevice

open StateEffect Store

inductive PrintFault
  | outOfRange
  | divisionByZero
  deriving DecidableEq

def RenameMap.find (m : RenameMap) (key : UInt64) : Except PrintFault UInt64 :=
  match m key with
  | some value => .ok value
  | none => .error .outOfRange

structure ArrayTuple where
  id : UInt64
  dst : UInt64
  isIndex : Bool
  isRanged : Bool
  vaddrStart : UInt64
  numElements : UInt64
  elementSize : UInt64
  deriving DecidableEq

namespace PickleArrayDescriptor

def countElements (d : PickleArrayDescriptor) : Except PrintFault UInt64 :=
  if d.elementSize = 0 then .error .divisionByZero
  else .ok ((d.vaddrEnd - d.vaddrStart) / d.elementSize)

/-- `getTuple(rename_map)`. C++ leaves open which of several faults comes first. -/
def getTuple (d : PickleArrayDescriptor) (renameMap : RenameMap) :
    Except PrintFault ArrayTuple := do
  let id ← renameMap.find d.arrayId
  let dst ← renameMap.find d.dstIndexingArrayId
  let numElements ← d.countElements
  return ⟨id, dst, d.addressingMode = .index, d.accessType = .ranged, d.vaddrStart, numElements,
    d.elementSize⟩

def hex (n : UInt64) : String := String.ofList (Nat.toDigits 16 n.toNat)

/-- The lines of both `print` functions, which differ in the ids alone. -/
def lines (d : PickleArrayDescriptor) (id dst numElements : UInt64) : List String :=
  let am := if d.addressingMode = .index then "Index" else "Pointer"
  let at' := if d.accessType = .ranged then "Ranged" else "Single"
  ["array_id: " ++ toString id,
    "- name: " ++ d.name,
    "- dst_array: " ++ toString dst,
    "- addressing_mode: " ++ am,
    "- access_type: " ++ at',
    "- vaddr: 0x" ++ hex d.vaddrStart,
    "- #elements: " ++ toString numElements,
    "- element_size: " ++ toString d.elementSize]

def print (d : PickleArrayDescriptor) : Except PrintFault (List String) := do
  let numElements ← d.countElements
  return d.lines d.arrayId d.dstIndexingArrayId numElements

def printRenamed (d : PickleArrayDescriptor) (renameMap : RenameMap) :
    Except PrintFault (List String) := do
  let id ← renameMap.find d.arrayId
  let dst ← renameMap.find d.dstIndexingArrayId
  let numElements ← d.countElements
  return d.lines id dst numElements

structure WholeElements (d : PickleArrayDescriptor) : Prop where
  size_ne : d.elementSize ≠ 0
  whole : (d.vaddrEnd - d.vaddrStart) / d.elementSize * d.elementSize = d.vaddrEnd - d.vaddrStart

end PickleArrayDescriptor

namespace PickleJob

def print (job : PickleJob) (s : Store) : Except PrintFault (List String) := do
  let name := String.ofList (job.kernelName.map fun c => Char.ofNat c.toNat)
  let arrays ← job.arrays.mapM fun arr =>
    if job.renameCount > 0 then (s.desc arr).printRenamed job.arrayRenameMap
    else (s.desc arr).print
  return ["-----", "kernel_name: " ++ name] ++ arrays.flatten ++ ["-----"]

end PickleJob

structure ArrayTuple.Matches (t : ArrayTuple) (bytes : List UInt8) (i : ℕ) : Prop where
  id : t.id = fieldAt bytes i 0
  dst : t.dst = fieldAt bytes i 1
  vaddrStart : t.vaddrStart = fieldAt bytes i 2
  elementSize : t.elementSize = fieldAt bytes i 4
  isRanged : t.isRanged = true ↔ fieldAt bytes i 5 = AccessType.ranged.toUInt64
  isIndex : t.isIndex = true ↔ fieldAt bytes i 6 = AddressingMode.index.toUInt64

structure PickleJob.Readable (job : PickleJob) (added : List Ptr) (bytes : List UInt8) (s : Store) :
    Prop where
  print : ∃ lines, job.print s = .ok lines
  tuple : ∀ i (hi : i < added.length), ∃ t,
    (s.desc added[i]).getTuple job.arrayRenameMap = .ok t ∧ t.Matches bytes i ∧
      t.numElements * t.elementSize = (s.desc added[i]).vaddrEnd - (s.desc added[i]).vaddrStart

theorem AccessType.toUInt64_eq_ranged (t : AccessType) :
    t = .ranged ↔ t.toUInt64 = AccessType.ranged.toUInt64 := by
  cases t <;> decide

theorem AddressingMode.toUInt64_eq_index (m : AddressingMode) :
    m = .index ↔ m.toUInt64 = AddressingMode.index.toUInt64 := by
  cases m <;> decide

theorem mapM_ok {ε α β : Type} {f : α → Except ε β} {l : List α} (h : ∀ a ∈ l, ∃ b, f a = .ok b) :
    ∃ bs, l.mapM f = .ok bs := by
  induction l with
  | nil => exact ⟨[], rfl⟩
  | cons a l ih =>
    obtain ⟨b, hb⟩ := h a List.mem_cons_self
    obtain ⟨bs, hbs⟩ := ih fun x hx => h x (List.mem_cons_of_mem a hx)
    refine ⟨b :: bs, ?_⟩
    rw [List.mapM_cons, hb, hbs]
    rfl

namespace PickleArrayDescriptor

variable {d : PickleArrayDescriptor} {m : RenameMap} {r : Record}

theorem countElements_of_ne (h : d.elementSize ≠ 0) :
    d.countElements = .ok ((d.vaddrEnd - d.vaddrStart) / d.elementSize) := if_neg h

theorem getTuple_of_isOf (hr : r.IsOf m d) (h : d.elementSize ≠ 0) :
    d.getTuple m = .ok ⟨r.id, r.dst, d.addressingMode = .index, d.accessType = .ranged,
      d.vaddrStart, (d.vaddrEnd - d.vaddrStart) / d.elementSize, d.elementSize⟩ := by
  rw [getTuple, RenameMap.find, RenameMap.find, hr.id, hr.dst, countElements_of_ne h]
  rfl

theorem getTuple_of_zero {t : ArrayTuple} (h : d.elementSize = 0) :
    d.getTuple m ≠ .ok t := by
  rw [getTuple, countElements, if_pos h]
  cases m.find d.arrayId with
  | error e => simp [bind, Except.bind]
  | ok id => cases m.find d.dstIndexingArrayId <;> simp [bind, Except.bind]

theorem printRenamed_of_isOf (hr : r.IsOf m d) (h : d.elementSize ≠ 0) :
    ∃ lines, d.printRenamed m = .ok lines := by
  rw [printRenamed, RenameMap.find, RenameMap.find, hr.id, hr.dst, countElements_of_ne h]
  exact ⟨_, rfl⟩

theorem print_of_ne (h : d.elementSize ≠ 0) : ∃ lines, d.print = .ok lines := by
  rw [print, countElements_of_ne h]
  exact ⟨_, rfl⟩

end PickleArrayDescriptor

namespace PickleJob

variable {kernelName : List UInt8} {added : List Ptr} {job : PickleJob} {s t : Store}
  {bytes : List UInt8}

theorem getJobDescriptor_store (hb : Built kernelName added job s) (ha : job.Assigned)
    (h : run job.getJobDescriptor s = (.ok bytes, t)) : t = s := by
  rw [run_getJobDescriptor_of_assigned (hb.wellBuilt.named ha)] at h
  exact (congrArg Prod.snd h).symm

theorem print_of_records (h : ∀ p ∈ job.arrays, ∃ r, s.record? job.arrayRenameMap p = some r)
    (hne : ∀ p ∈ job.arrays, (s.desc p).elementSize ≠ 0) : ∃ lines, job.print s = .ok lines := by
  obtain ⟨bs, hbs⟩ : ∃ bs, (job.arrays.mapM fun arr =>
      if job.renameCount > 0 then (s.desc arr).printRenamed job.arrayRenameMap
      else (s.desc arr).print) = Except.ok bs := by
    apply mapM_ok
    intro p hp
    split_ifs
    · obtain ⟨r, hr⟩ := h p hp
      exact PickleArrayDescriptor.printRenamed_of_isOf (record?_eq_some hr) (hne p hp)
    · exact PickleArrayDescriptor.print_of_ne (hne p hp)
  rw [print, hbs]
  exact ⟨_, rfl⟩

theorem readable_iff_wholeElements (hb : Built kernelName added job s) (ha : job.Assigned)
    (h : run job.getJobDescriptor s = (.ok bytes, t)) :
    job.Readable added bytes t ↔ ∀ p ∈ added, (s.desc p).WholeElements := by
  obtain rfl := getJobDescriptor_store hb ha h
  obtain rfl := hb.arrays_eq
  constructor
  · intro hr p hp
    obtain ⟨i, hi, rfl⟩ := List.mem_iff_getElem.mp hp
    obtain ⟨tuple, htuple, -, hcount⟩ := hr.tuple i hi
    have hne : (t.desc job.arrays[i]).elementSize ≠ 0 := by
      intro h0
      exact PickleArrayDescriptor.getTuple_of_zero h0 htuple
    obtain ⟨r, hrec, -⟩ := fieldAt_of_built hb ha h hi
    rw [PickleArrayDescriptor.getTuple_of_isOf (record?_eq_some hrec) hne] at htuple
    cases htuple
    exact ⟨hne, hcount⟩
  · intro hall
    constructor
    · apply print_of_records
      · intro p hp
        obtain ⟨i, hi, rfl⟩ := List.mem_iff_getElem.mp hp
        obtain ⟨r, hrec, -⟩ := fieldAt_of_built hb ha h hi
        exact ⟨r, hrec⟩
      · intro p hp
        exact (hall p hp).size_ne
    · intro i hi
      obtain ⟨hne, hcount⟩ := hall _ (List.getElem_mem hi)
      obtain ⟨r, hrec, hfield⟩ := fieldAt_of_built hb ha h hi
      have hr := record?_eq_some hrec
      refine ⟨_, PickleArrayDescriptor.getTuple_of_isOf hr hne, ?_, hcount⟩
      constructor
      · exact (hfield 0 (by omega)).symm
      · exact (hfield 1 (by omega)).symm
      · exact hr.vaddrStart.symm.trans (hfield 2 (by omega)).symm
      · exact hr.elementSize.symm.trans (hfield 4 (by omega)).symm
      · rw [hfield 5 (by omega), decide_eq_true_eq, AccessType.toUInt64_eq_ranged, ← hr.accessType]
        rfl
      · rw [hfield 6 (by omega), decide_eq_true_eq, AddressingMode.toUInt64_eq_index,
          ← hr.addressingMode]
        rfl

end PickleJob

end PickleDevice
