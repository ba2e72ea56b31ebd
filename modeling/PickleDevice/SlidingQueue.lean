import PickleDevice.AddressRange
import PickleDevice.ArrayDescriptor

/-!
`SlidingQueue`: a double-buffered queue over an array of fixed size. Its
`indexedBy` calls a member that does not exist, so no program can call it and it
has no definition here.
-/

namespace PickleDevice

structure SlidingQueue where
  elementType : ElementType
  shared : ℤ
  allocSize : ℕ
  arrayDescriptor : Option Ptr
  deriving DecidableEq

namespace SlidingQueue

def getAddressRange (q : SlidingQueue) : AddressRange :=
  ⟨toUInt64 q.shared, toUInt64 (q.elementType.add q.shared q.allocSize)⟩

def getElementSize (q : SlidingQueue) : UInt64 := UInt64.ofNat q.elementType.sizeof

def getArrayDescriptor (q : SlidingQueue) : Option Ptr := q.arrayDescriptor

def sized (T : ElementType) (sharedSize : ℕ) (new : ℤ) : Action SlidingQueue := do
  let q : SlidingQueue := ⟨T, new, sharedSize, none⟩
  let d ← newDescribed q.getAddressRange.start q.getAddressRange.stop q.getElementSize
  return { q with arrayDescriptor := some d }

/-- A queue declares a destructor and nothing to copy or move it, so to construct one from an expiring
queue is to copy it member by member. The other one is unchanged. -/
def moved (other : SlidingQueue) : SlidingQueue × SlidingQueue := (other, other)

def moveAssign (q other : SlidingQueue) : SlidingQueue × SlidingQueue :=
  ({ q with
      shared := other.shared
      allocSize := other.allocSize
      arrayDescriptor := other.arrayDescriptor }, other)

end SlidingQueue

end PickleDevice
