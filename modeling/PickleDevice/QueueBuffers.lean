import PickleDevice.Library.Ownership
import PickleDevice.Library.Refinement
import PickleDevice.Library.Reservation

/-!
What a `SlidingQueue` holds, and the `QueueBuffer`s through which threads append
to it: every step a thread takes on its own, in any order of the threads' steps.
-/

namespace PickleDevice

open Ownership

/-- The elements of a `SlidingQueue`; a cell never written has no value. -/
structure QueueContents (α : Type) where
  shared : ℕ → Option α
  allocSize : ℕ
  sharedIn : ℕ
  sharedOutStart : ℕ
  sharedOutEnd : ℕ

namespace QueueContents

variable {α : Type}

def reset (q : QueueContents α) : QueueContents α :=
  { q with sharedOutStart := 0, sharedOutEnd := 0, sharedIn := 0 }

def sized (sharedSize : ℕ) : QueueContents α := reset ⟨fun _ => none, sharedSize, 0, 0, 0⟩

/-- `shared[i] = x`, which is undefined outside the array. -/
def assign (q : QueueContents α) (i : ℕ) (x : α) : Option (QueueContents α) :=
  if i < q.allocSize then some { q with shared := Function.update q.shared i (some x) } else none

def pushBack (q : QueueContents α) (toAdd : α) : Option (QueueContents α) :=
  { q with sharedIn := q.sharedIn + 1 }.assign q.sharedIn toAdd

def empty (q : QueueContents α) : Bool := q.sharedOutStart == q.sharedOutEnd

def slideWindow (q : QueueContents α) : QueueContents α :=
  { q with sharedOutStart := q.sharedOutEnd, sharedOutEnd := q.sharedIn }

def size (q : QueueContents α) : ℕ := q.sharedOutEnd - q.sharedOutStart

def window (q : QueueContents α) : List (Option α) :=
  (List.range' q.sharedOutStart q.size).map q.shared

end QueueContents

def fetchAndAdd (x inc : ℕ) : ℕ × ℕ := (x, x + inc)

/-- A `flush` under way: where it copies to, how much it has copied, and the element that a
`push_back` which called it stores afterwards. -/
structure Flush (α : Type) where
  copyStart : ℕ
  copied : ℕ
  toAdd : Option α

/-- `localQueue` has the first `in` elements of the local array. -/
structure QueueBuffer (α : Type) where
  localQueue : List α
  localSize : ℕ
  flushing : Option (Flush α)

namespace QueueBuffer

variable {α : Type}

def new (givenSize : ℕ) : QueueBuffer α := ⟨[], givenSize, none⟩

def store (q : QueueBuffer α) (toAdd : α) : Option (QueueBuffer α) :=
  if q.localQueue.length < q.localSize then
    some { q with localQueue := q.localQueue ++ [toAdd] }
  else none

/-- The end of a `flush`, and of the `push_back` that called it. -/
def flushed (q : QueueBuffer α) (f : Flush α) : Option (QueueBuffer α) :=
  let q : QueueBuffer α := { q with localQueue := [], flushing := none }
  match f.toAdd with
  | none => some q
  | some x => q.store x

end QueueBuffer

structure SharedQueue (α : Type) where
  queue : QueueContents α
  buffers : Objects (QueueBuffer α)

namespace SharedQueue

variable {α : Type}

def new (sharedSize : ℕ) : SharedQueue α := ⟨.sized sharedSize, fun _ => none⟩

/-- A step of the thread of a buffer, or a call on the queue itself. `copy` writes the next element
of the flush under way and `finish` returns from it. -/
inductive Event (α : Type)
  | create (b givenSize : ℕ)
  | pushBack (b : ℕ) (toAdd : α)
  | flush (b : ℕ)
  | copy (b : ℕ)
  | finish (b : ℕ)
  | destroy (b : ℕ)
  | queuePushBack (toAdd : α)
  | slideWindow
  | reset

def claim (s : SharedQueue α) (b : ℕ) (q : QueueBuffer α) (toAdd : Option α) : SharedQueue α :=
  let (copyStart, sharedIn) := fetchAndAdd s.queue.sharedIn q.localQueue.length
  { queue := { s.queue with sharedIn := sharedIn }
    buffers := put s.buffers b { q with flushing := some ⟨copyStart, 0, toAdd⟩ } }

def idle (s : SharedQueue α) (b : ℕ) : Option (QueueBuffer α) :=
  (s.buffers b).filter fun q => q.flushing.isNone

def busy (s : SharedQueue α) (b : ℕ) : Option (QueueBuffer α × Flush α) :=
  (s.buffers b).bind fun q => q.flushing.map fun f => (q, f)

/-- No result where the thread is not at such a step, and where the step is undefined. -/
def step (s : SharedQueue α) : Event α → Option (SharedQueue α)
  | .create b givenSize =>
    if (s.buffers b).isNone then some { s with buffers := put s.buffers b (.new givenSize) } else none
  | .pushBack b toAdd => do
    let q ← s.idle b
    if q.localQueue.length = q.localSize then
      return s.claim b q (some toAdd)
    else
      return { s with buffers := put s.buffers b (← q.store toAdd) }
  | .flush b => do
    return s.claim b (← s.idle b) none
  | .copy b => do
    let (q, f) ← s.busy b
    let queue ← s.queue.assign (f.copyStart + f.copied) (← q.localQueue[f.copied]?)
    let next : QueueBuffer α := { q with flushing := some { f with copied := f.copied + 1 } }
    return ⟨queue, put s.buffers b next⟩
  | .finish b => do
    let (q, f) ← s.busy b
    if f.copied = q.localQueue.length then
      return { s with buffers := put s.buffers b (← q.flushed f) }
    else none
  | .destroy b => do
    let _ ← s.idle b
    return { s with buffers := remove s.buffers b }
  | .queuePushBack toAdd => do
    return { s with queue := ← s.queue.pushBack toAdd }
  | .slideWindow => some { s with queue := s.queue.slideWindow }
  | .reset => some { s with queue := s.queue.reset }

def Quiet (s : SharedQueue α) : Prop := ∀ b, s.busy b = none

end SharedQueue

end PickleDevice
