import PickleDevice.Library.ByteWords
import PickleDevice.Library.Interaction

/-!
The functions that talk to the driver, as programs over the system calls they
make. The device file is always the same one and messages to the user are left
out.
-/

namespace PickleDevice

open ByteWords Interaction

structure DeviceSpecs where
  availability : UInt64
  prefetchDistance : UInt64
  prefetchMode : UInt64
  bulkModeChunkSize : UInt64
  deriving DecidableEq, Repr

inductive Syscall
  | openDevice (sync : Bool)
  | close (fd : ℤ)
  | pwrite (fd : ℤ) (bytes : List UInt8) (offset : ℕ)
  | mmap (length : ℕ) (fd : ℤ)
  | munmap (addr : UInt64) (length : ℕ)
  | ioctlMmapPaddr (fd : ℤ) (mmapId : UInt64)
  | ioctlPerfPagePaddr (fd : ℤ) (mmapId : UInt64)
  | ioctlGetDeviceSpecs (fd : ℤ)
  | storeByte (addr : UInt64) (value : UInt8)
  | errno
  | exit (code : ℤ)

/-- What a call answers; an `ioctl` answers its error and the field it fills in. -/
abbrev Syscall.Answer : Syscall → Type
  | .openDevice _ => ℤ
  | .close _ => ℤ
  | .pwrite .. => ℤ
  | .mmap .. => UInt64
  | .munmap .. => ℤ
  | .ioctlMmapPaddr .. => ℤ × UInt64
  | .ioctlPerfPagePaddr .. => ℤ × UInt64
  | .ioctlGetDeviceSpecs _ => ℤ × DeviceSpecs
  | .storeByte .. => Unit
  | .errno => ℤ
  | .exit _ => Empty

abbrev SysProgram := Program Syscall Syscall.Answer

abbrev SysEvent := Event Syscall Syscall.Answer

abbrev syscall (call : Syscall) : SysProgram call.Answer := Program.request call

def mapFailed : UInt64 := -1

def allocatePage (length : ℕ) : SysProgram (Bool × UInt64) := do
  let fd ← syscall (.openDevice true)
  if fd < 0 then return (false, 0)
  else
    let mmapPtr ← syscall (.mmap length fd)
    if mmapPtr = mapFailed then
      let _ ← syscall (.close fd)
      return (false, 0)
    else return (true, mmapPtr)

/-- The success of the call and `*ptr`. -/
def allocateUncacheablePage (_mmapId : UInt64) : SysProgram (Bool × UInt64) := allocatePage 4096

def allocatePerfPage : SysProgram (Bool × UInt64) := allocatePage 8192

def getPaddr (query : ℤ → SysProgram (ℤ × UInt64)) (paddr : UInt64) : SysProgram (Bool × UInt64) := do
  let fd ← syscall (.openDevice true)
  if fd < 0 then return (false, paddr)
  else
    let (err, found) ← query fd
    if err ≠ 0 then
      let _ ← syscall (.close fd)
      return (false, paddr)
    else
      let _ ← syscall (.close fd)
      return (true, found)

def getMmapPaddr (mmapId paddr : UInt64) : SysProgram (Bool × UInt64) :=
  getPaddr (fun fd => syscall (.ioctlMmapPaddr fd mmapId)) paddr

def getPerfPagePaddr (paddr : UInt64) : SysProgram (Bool × UInt64) :=
  getPaddr (fun fd => syscall (.ioctlPerfPagePaddr fd 0)) paddr

def controlBytes (commandType commandLength : UInt64) : List UInt8 :=
  word64 commandType ++ word64 commandLength

def writeCommandToDevice (commandType commandLength : UInt64) (command : List UInt8) :
    SysProgram Bool := do
  let fd ← syscall (.openDevice false)
  if fd < 0 then return false
  else
    -- The signed answers of `pwrite` are compared as unsigned numbers.
    let control ← syscall (.pwrite fd (controlBytes commandType commandLength) 0)
    if UInt64.ofInt control ≠ 16 then
      let _ ← syscall (.close fd)
      return false
    else
      let written ← syscall (.pwrite fd (command.take commandLength.toNat) 1)
      if UInt64.ofInt written ≠ commandLength then
        let _ ← syscall (.close fd)
        return false
      else
        let _ ← syscall (.close fd)
        return true

def getDeviceSpecs : SysProgram DeviceSpecs := do
  let fd ← syscall (.openDevice true)
  if fd < 0 then
    let errno ← syscall .errno
    let never ← syscall (.exit errno)
    nomatch never
  else
    let (err, specs) ← syscall (.ioctlGetDeviceSpecs fd)
    if err ≠ 0 then
      let _ ← syscall (.close fd)
      let errno ← syscall .errno
      let never ← syscall (.exit errno)
      nomatch never
    else return specs

end PickleDevice
