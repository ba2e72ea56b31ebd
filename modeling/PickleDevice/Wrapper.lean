import PickleDevice.ArrayLinks
import PickleDevice.CSRGraph
import PickleDevice.PVector
import PickleDevice.SlidingQueue

namespace PickleDevice

open StateEffect Store

class ArrayContainer (α : Type) where
  getArrayDescriptor : α → Option Ptr

class IndexedContainer (α : Type) extends ArrayContainer α where
  indexedBy : α → Option Ptr → Action Unit

instance : IndexedContainer PVector where
  getArrayDescriptor := PVector.getArrayDescriptor
  indexedBy := PVector.indexedBy

instance : ArrayContainer SlidingQueue where
  getArrayDescriptor := SlidingQueue.getArrayDescriptor

section

variable {α β : Type} [ArrayContainer α] [IndexedContainer β]

/-- The selector's part; a missing container is a null pointer or `nullptr_t`. -/
def addSelector (indexIndexedBy : Option Ptr → Action Unit) (selector : Option α) (job : PickleJob) :
    Action PickleJob :=
  match selector with
  | some selector => do
    let job ← job.addArrayDescriptor (ArrayContainer.getArrayDescriptor selector)
    indexIndexedBy (ArrayContainer.getArrayDescriptor selector)
    return job
  | none => return job

def addConsumer (neighborsDescriptor : Option Ptr) (consumer : Option β) (job : PickleJob) :
    Action PickleJob :=
  match consumer with
  | some consumer => do
    let job ← job.addArrayDescriptor (ArrayContainer.getArrayDescriptor consumer)
    IndexedContainer.indexedBy consumer neighborsDescriptor
    return job
  | none => return job

def createGraphJob (indexDescriptor neighborsDescriptor : Option Ptr)
    (indexIndexedBy : Option Ptr → Action Unit) (kernelName : List UInt8) (selector : Option α)
    (consumer : Option β) : Action PickleJob := do
  let job := PickleJob.new kernelName
  let job ← job.addArrayDescriptor indexDescriptor
  let job ← job.addArrayDescriptor neighborsDescriptor
  let job ← addSelector indexIndexedBy selector job
  addConsumer neighborsDescriptor consumer job

def createGraphJobUsingIncomingEdges (g : CSRGraph) (kernelName : List UInt8) (selector : Option α)
    (consumer : Option β) : Action PickleJob :=
  createGraphJob g.getInIndexArrayDescriptor g.getInNeighborsArrayDescriptor g.inIndexIndexedBy
    kernelName selector consumer

def createGraphJobUsingOutgoingEdges (g : CSRGraph) (kernelName : List UInt8) (selector : Option α)
    (consumer : Option β) : Action PickleJob :=
  createGraphJob g.getOutIndexArrayDescriptor g.getOutNeighborsArrayDescriptor g.outIndexIndexedBy
    kernelName selector consumer

end

end PickleDevice
