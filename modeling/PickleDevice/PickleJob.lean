import PickleDevice.ArrayIds
import PickleDevice.Library.ByteWords
import PickleDevice.Library.Renaming

namespace PickleDevice

open StateEffect ByteWords

abbrev RenameMap := UInt64 → Option UInt64

namespace RenameMap

def insert (m : RenameMap) (key value : UInt64) : RenameMap := Function.update m key (some value)

def at' (m : RenameMap) (key : UInt64) : Action UInt64 :=
  match m key with
  | some value => pure value
  | none => throw .outOfRange

end RenameMap

structure PickleJob where
  kernelName : List UInt8
  arrays : List Ptr
  arrayRenameMap : RenameMap
  renameCount : UInt64

namespace PickleJob

def new (kernelName : List UInt8) : PickleJob where
  kernelName := kernelName
  arrays := []
  arrayRenameMap := RenameMap.insert (fun _ => none) noDestination noDestination
  renameCount := 0

/-- The loop of the two `change...ByArrayId` functions: the first array with the id is changed. -/
def changeByArrayId (change : PickleArrayDescriptor → PickleArrayDescriptor) (arrayId : UInt64) :
    List Ptr → Action Unit
  | [] => pure ()
  | array :: arrays => do
    let id ← getArrayId array
    if id = arrayId then modify (·.modify array change)
    else changeByArrayId change arrayId arrays

def changeAccessTypeByArrayId (job : PickleJob) (arrayId : UInt64) (accessType : AccessType) :
    Action Unit :=
  changeByArrayId (·.setAccessType accessType) arrayId job.arrays

def changeAddressingModeByArrayId (job : PickleJob) (arrayId : UInt64)
    (addressingMode : AddressingMode) : Action Unit :=
  changeByArrayId (·.setAddressingMode addressingMode) arrayId job.arrays

def addArrayDescriptor (job : PickleJob) (array : Option Ptr) : Action PickleJob := do
  let p ← deref array
  let arrayId ← getArrayId p
  return { job with
    arrayRenameMap := job.arrayRenameMap.insert arrayId job.renameCount
    renameCount := job.renameCount + 1
    arrays := job.arrays ++ [p] }

/-- The bytes of `value` in memory order on a little-endian host. -/
def addToJobDescriptor (jobDescriptor : List UInt8) (value : UInt64) : List UInt8 :=
  (List.range 8).foldl (fun bytes i => bytes ++ [byteLE value.toNat i]) jobDescriptor

def addKernelNameToJobDescriptor (job : PickleJob) (jobDescriptor : List UInt8) : List UInt8 :=
  job.kernelName.foldl (fun bytes c => bytes ++ [c]) jobDescriptor

def addArrays (m : RenameMap) : List Ptr → List UInt8 → Action (List UInt8)
  | [], jobDescriptor => pure jobDescriptor
  | arr :: arrays, jobDescriptor => do
    let id ← m.at' (← getArrayId arr)
    let jobDescriptor := addToJobDescriptor jobDescriptor id
    let d := (← get).desc arr
    let dst ← m.at' d.dstIndexingArrayId
    let jobDescriptor := addToJobDescriptor jobDescriptor dst
    let jobDescriptor := addToJobDescriptor jobDescriptor d.vaddrStart
    let jobDescriptor := addToJobDescriptor jobDescriptor d.vaddrEnd
    let jobDescriptor := addToJobDescriptor jobDescriptor d.elementSize
    let jobDescriptor := addToJobDescriptor jobDescriptor d.accessType.toUInt64
    let jobDescriptor := addToJobDescriptor jobDescriptor d.addressingMode.toUInt64
    addArrays m arrays jobDescriptor

def getJobDescriptor (job : PickleJob) : Action (List UInt8) := do
  let nArrays := UInt8.ofNat job.arrays.length
  let jobDescriptor ← addArrays job.arrayRenameMap job.arrays [nArrays]
  return job.addKernelNameToJobDescriptor jobDescriptor

end PickleJob

structure Record where
  id : UInt64
  dst : UInt64
  vaddrStart : UInt64
  vaddrEnd : UInt64
  elementSize : UInt64
  accessType : UInt64
  addressingMode : UInt64
  deriving DecidableEq, Repr

namespace Record

def words (r : Record) : List UInt64 :=
  [r.id, r.dst, r.vaddrStart, r.vaddrEnd, r.elementSize, r.accessType, r.addressingMode]

def bytes (r : Record) : List UInt8 := r.words.flatMap word64

theorem bytes_length (r : Record) : r.bytes.length = 56 := by
  simp [bytes, words]

theorem words_injective : Function.Injective words := by
  rintro ⟨⟩ ⟨⟩ h
  simpa [words] using h

theorem bytes_injective : Function.Injective bytes := by
  intro r r' h
  obtain ⟨extra, hw, ht⟩ := blocks_prefix word64_length word64_injective r.words r'.words [] []
    le_rfl (by simpa [bytes] using h)
  have hx : extra = [] := by simpa [words] using congrArg List.length hw
  apply words_injective
  simpa [hx] using hw.symm

end Record

def serialize (kernelName : List UInt8) (records : List Record) : List UInt8 :=
  UInt8.ofNat records.length :: (records.flatMap Record.bytes ++ kernelName)

def readRecord (m : RenameMap) (arr : Ptr) : Action Record := do
  let id ← m.at' (← getArrayId arr)
  let d := (← get).desc arr
  let dst ← m.at' d.dstIndexingArrayId
  return ⟨id, dst, d.vaddrStart, d.vaddrEnd, d.elementSize, d.accessType.toUInt64,
    d.addressingMode.toUInt64⟩

def readRecords (m : RenameMap) : List Ptr → Action (List Record)
  | [] => pure []
  | arr :: arrays => do
    let r ← readRecord m arr
    let rs ← readRecords m arrays
    return r :: rs

namespace PickleJob

theorem addToJobDescriptor_eq (jobDescriptor : List UInt8) (value : UInt64) :
    addToJobDescriptor jobDescriptor value = jobDescriptor ++ word64 value := by
  simp [addToJobDescriptor, word64, bytesLE, List.range_succ]

theorem addKernelNameToJobDescriptor_eq (job : PickleJob) (jobDescriptor : List UInt8) :
    job.addKernelNameToJobDescriptor jobDescriptor = jobDescriptor ++ job.kernelName := by
  unfold addKernelNameToJobDescriptor
  induction job.kernelName generalizing jobDescriptor with
  | nil => simp
  | cons c name ih => simp [ih]

theorem readRecords_length {m : RenameMap} {l : List Ptr} {s t : Store} {rs : List Record}
    (h : run (readRecords m l) s = (.ok rs, t)) : rs.length = l.length := by
  induction l generalizing s t rs with
  | nil =>
    simp only [readRecords, run_pure, Prod.mk.injEq, Except.ok.injEq] at h
    simp [← h.1]
  | cons arr l ih =>
    obtain ⟨r, u, _, h⟩ := run_bind_eq_ok h
    obtain ⟨rs', v, hrs, h⟩ := run_bind_eq_ok h
    simp only [run_pure, Prod.mk.injEq, Except.ok.injEq] at h
    simp [← h.1, ih hrs]

theorem run_at (m : RenameMap) (key : UInt64) (s : Store) :
    run (m.at' key) s = ((m key).elim (.error .outOfRange) .ok, s) := by
  unfold RenameMap.at'
  cases m key <;> rfl

theorem run_addArrays_cons (m : RenameMap) (arr : Ptr) (arrays : List Ptr) (bytes : List UInt8)
    (s : Store) : run (addArrays m (arr :: arrays) bytes) s =
      run (readRecord m arr >>= fun r => addArrays m arrays (bytes ++ r.bytes)) s := by
  simp only [addArrays, readRecord, run_bind, run_getArrayId, run_at, run_get]
  cases m (s.idOf arr) with
  | none => rfl
  | some id =>
    cases hd : m ((s.withId arr).desc arr).dstIndexingArrayId with
    | none => simp [hd]
    | some dst =>
      simp [hd, addToJobDescriptor_eq, Record.bytes, Record.words]

theorem run_addArrays (m : RenameMap) (arrays : List Ptr) (bytes : List UInt8) (s : Store) :
    run (addArrays m arrays bytes) s =
      run (readRecords m arrays >>= fun rs => pure (bytes ++ rs.flatMap Record.bytes)) s := by
  induction arrays generalizing bytes s with
  | nil => simp [addArrays, readRecords]
  | cons arr arrays ih =>
    rw [run_addArrays_cons, readRecords]
    simp only [run_bind]
    rcases run (readRecord m arr) s with ⟨r, t⟩
    cases r with
    | error e => rfl
    | ok r =>
      simp only [ih, run_bind]
      rcases run (readRecords m arrays) t with ⟨rs, u⟩
      cases rs <;> simp

theorem run_getJobDescriptor (job : PickleJob) (s : Store) :
    run job.getJobDescriptor s =
      run (readRecords job.arrayRenameMap job.arrays >>= fun rs =>
        pure (serialize job.kernelName rs)) s := by
  rw [getJobDescriptor, run_bind, run_addArrays, run_bind, run_bind]
  rcases h : run (readRecords job.arrayRenameMap job.arrays) s with ⟨rs, t⟩
  cases rs with
  | error e => rfl
  | ok rs =>
    have hl := readRecords_length h
    simp [addKernelNameToJobDescriptor_eq, serialize, hl]

theorem getJobDescriptor_eq_ok {job : PickleJob} {s t : Store} {bytes : List UInt8} :
    run job.getJobDescriptor s = (.ok bytes, t) ↔
      ∃ rs, run (readRecords job.arrayRenameMap job.arrays) s = (.ok rs, t) ∧
        bytes = serialize job.kernelName rs := by
  rw [run_getJobDescriptor]
  constructor
  · intro h
    obtain ⟨rs, u, hrs, h⟩ := run_bind_eq_ok h
    simp only [run_pure, Prod.mk.injEq, Except.ok.injEq] at h
    exact ⟨rs, by rw [hrs, h.2], h.1.symm⟩
  · rintro ⟨rs, hrs, rfl⟩
    rw [run_bind_ok hrs, run_pure]

end PickleJob

end PickleDevice
