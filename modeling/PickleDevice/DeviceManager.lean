import PickleDevice.LowLevel
import PickleDevice.PickleJob

namespace PickleDevice

open ByteWords Interaction

abbrev UnorderedMap := UInt64 → Option UInt64

namespace UnorderedMap

def insert (m : UnorderedMap) (key value : UInt64) : UnorderedMap :=
  Function.update m key (some value)

/-- `m[key]` as a value: a missing key is entered with the default. -/
def fetch (m : UnorderedMap) (key : UInt64) : UInt64 × UnorderedMap :=
  match m key with
  | some value => (value, m)
  | none => (0, m.insert key 0)

theorem insert_self (m : UnorderedMap) (key value : UInt64) : m.insert key value key = some value := by
  simp [insert]

theorem insert_of_ne (m : UnorderedMap) {key key' : UInt64} (value : UInt64) (h : key' ≠ key) :
    m.insert key value key' = m key' := by
  simp [insert, Function.update_of_ne h]

theorem fetch_of_some {m : UnorderedMap} {key value : UInt64} (h : m key = some value) :
    m.fetch key = (value, m) := by
  simp [fetch, h]

end UnorderedMap

structure PickleDeviceManager where
  mmapIdToUcPtrMap : UnorderedMap
  mmapIdToUcPaddrMap : UnorderedMap
  perfPagePtr : UInt64

inductive PickleDeviceCommand
  | addWatchRange
  | sendJobDescriptor
  deriving DecidableEq, Repr

def PickleDeviceCommand.toUInt64 : PickleDeviceCommand → UInt64
  | .addWatchRange => 1
  | .sendJobDescriptor => 2

inductive PrefetchMode
  | unknown
  | singlePrefetch
  | bulkPrefetch
  deriving DecidableEq, Repr

structure PickleDevicePrefetcherSpecs where
  availability : UInt64
  prefetchDistance : UInt64
  prefetchMode : PrefetchMode
  bulkModeChunkSize : UInt64
  deriving DecidableEq, Repr

namespace PickleDeviceManager

def new : PickleDeviceManager := ⟨fun _ => none, fun _ => none, 0⟩

def writeJobToPickleDevice (jobDescriptor : List UInt8) : SysProgram Bool :=
  writeCommandToDevice PickleDeviceCommand.sendJobDescriptor.toUInt64
    (UInt64.ofNat jobDescriptor.length) jobDescriptor

/-- The answer, or the exception `getJobDescriptor` throws, and the descriptors afterwards. -/
def sendJob (job : PickleJob) (s : Store) : SysProgram (Except Fault Bool × Store) :=
  match StateEffect.run job.getJobDescriptor s with
  | (.ok jobDescriptor, t) => do
    let success ← writeJobToPickleDevice jobDescriptor
    return (.ok success, t)
  | (.error fault, t) => return (.error fault, t)

def rangeBytes (start : UInt64) : List UInt8 := word64 start ++ word64 (start + 0x1000)

theorem rangeBytes_length (start : UInt64) : (rangeBytes start).length = 16 := by
  simp [rangeBytes]

theorem rangeBytes_lt (start : UInt64) : (rangeBytes start).length < 2 ^ 63 := by
  rw [rangeBytes_length]
  decide

def writeUncacheablePagePaddr (m : PickleDeviceManager) (mmapId : UInt64) :
    SysProgram (Bool × PickleDeviceManager) := do
  let (start, paddrs) := m.mmapIdToUcPaddrMap.fetch mmapId
  let success ← writeCommandToDevice PickleDeviceCommand.addWatchRange.toUInt64 16 (rangeBytes start)
  return (success, { m with mmapIdToUcPaddrMap := paddrs })

def registerUncacheablePage (m : PickleDeviceManager) (mmapId ptr paddr : UInt64) :
    PickleDeviceManager :=
  { m with
    mmapIdToUcPtrMap := m.mmapIdToUcPtrMap.insert mmapId ptr
    mmapIdToUcPaddrMap := m.mmapIdToUcPaddrMap.insert mmapId paddr }

def mapUCPage (m : PickleDeviceManager) (mmapId : UInt64) : SysProgram PickleDeviceManager := do
  let (allocateSuccess, mmapPtr) ← allocateUncacheablePage mmapId
  if !allocateSuccess then
    let never ← syscall (.exit 1)
    nomatch never
  else
    let (getPaddrSuccess, paddr) ← getMmapPaddr mmapId 0
    if !getPaddrSuccess then
      let never ← syscall (.exit 1)
      nomatch never
    else
      let m := m.registerUncacheablePage mmapId mmapPtr paddr
      syscall (.storeByte mmapPtr 0x42)
      let (_, m) ← m.writeUncacheablePagePaddr mmapId
      return m

def getUCPagePtr (m : PickleDeviceManager) (mmapId : UInt64) :
    SysProgram (UInt64 × PickleDeviceManager) := do
  let m ← if m.mmapIdToUcPtrMap mmapId = none then m.mapUCPage mmapId else pure m
  let (ptr, ptrs) := m.mmapIdToUcPtrMap.fetch mmapId
  return (ptr, { m with mmapIdToUcPtrMap := ptrs })

def getPerfPagePtr (m : PickleDeviceManager) : SysProgram (UInt64 × PickleDeviceManager) := do
  if m.perfPagePtr = 0 then
    let (allocateSuccess, ptr) ← allocatePerfPage
    if !allocateSuccess then
      let never ← syscall (.exit 2)
      nomatch never
    else
      syscall (.storeByte ptr 0xAA)
      return (ptr, { m with perfPagePtr := ptr })
  else return (m.perfPagePtr, m)

def deallocateUncacheablePage (m : PickleDeviceManager) (mmapId : UInt64) :
    SysProgram PickleDeviceManager := do
  let (ptr, ptrs) := m.mmapIdToUcPtrMap.fetch mmapId
  let _ ← syscall (.munmap ptr 4096)
  return { m with mmapIdToUcPtrMap := ptrs }

def destroy (m : PickleDeviceManager) : SysProgram PickleDeviceManager :=
  m.deallocateUncacheablePage 0

/-- `single` and `bulk` are the two mode constants of the driver's header. -/
def getDevicePrefetcherSpecs (single bulk : UInt64) : SysProgram PickleDevicePrefetcherSpecs := do
  let specs ← getDeviceSpecs
  return {
    availability := specs.availability
    prefetchDistance := specs.prefetchDistance
    prefetchMode :=
      if specs.prefetchMode = single then .singlePrefetch
      else if specs.prefetchMode = bulk then .bulkPrefetch
      else .unknown
    bulkModeChunkSize := specs.bulkModeChunkSize }

end PickleDeviceManager

end PickleDevice
