import PickleDevice.DescribedRanges
import PickleDevice.JobInterference

namespace PickleDevice

open StateEffect Store Runs

def PickleArrayDescriptor.record (d : PickleArrayDescriptor) (link : UInt64 × UInt64) : Record :=
  ⟨link.1, link.2, d.vaddrStart, d.vaddrEnd, d.elementSize, d.accessType.toUInt64,
    d.addressingMode.toUInt64⟩

namespace Store

end Store

section Lists

variable {α β γ : Type} {f : α → Option β} {g : α → β → γ}

end Lists

namespace PickleJob

variable {kernelName : List UInt8} {added : List Ptr} {job : PickleJob} {s : Store} {log : LinkLog}

end PickleJob

namespace GraphCall

def arrays (c : GraphCall) : List ℕ :=
  (c.graph.indexOf c.direction).toList ++ (c.graph.neighborsOf c.direction).toList ++
    c.selectorDescriptor.toList ++ c.consumerDescriptor.toList

end GraphCall

namespace Client

variable {w : Client} {c : GraphCall} {role : ℕ → Option ArrayRole} {log : LinkLog} {a : GraphArrays}

theorem Created.arrays_eq (ha : Created w role log c a) : a.arrays = c.arrays := by
  simp [GraphArrays.arrays, GraphCall.arrays, ha.side.index, ha.side.neighbors, ha.selector,
    ha.consumer]

end Client

end PickleDevice
