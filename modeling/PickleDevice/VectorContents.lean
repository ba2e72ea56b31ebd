import PickleDevice.Library.Blocks
import PickleDevice.Library.Runs
import PickleDevice.PVector

namespace PickleDevice

open Blocks Ownership

namespace PVector

variable {α : Type}

def storage (T : ElementType) (numElements : ℕ) (new : ℤ) : PVector :=
  ⟨T, new, T.add new numElements, T.add new numElements, none⟩

/-- `new T_[n]` may answer `new`: an address that is not null, away from every live array. -/
def CanAnswer (T : ElementType) (h : Heap α) (n : ℕ) (new : ℤ) : Prop :=
  Allocated T n new ∧ h.Fresh T.sizeof ⟨new, n⟩

instance (T : ElementType) (h : Heap α) (n : ℕ) (new : ℤ) : Decidable (CanAnswer T h n new) :=
  inferInstanceAs (Decidable (_ ∧ _))

def newArray (T : ElementType) (h : Heap α) (n : ℕ) (new : ℤ) : Option (Heap α) :=
  if CanAnswer T h n new then some (h.alloc T.sizeof ⟨new, n⟩) else none

def filledCells (T : ElementType) (h : Heap α) (n : ℕ) (initVal : α) (new : ℤ) :
    Option (Heap α) := do
  let h ← newArray T h n new
  h.fill T.sizeof new (storage T n new).size initVal

def copiedCells (T : ElementType) (h : Heap α) (copyBegin copyEnd new : ℤ) : Option (Heap α) := do
  let n := (T.sub copyEnd copyBegin).toNat
  let h ← newArray T h n new
  h.copy T.sizeof new copyBegin (storage T n new).capacity

def reserveCells (h : Heap α) (v : PVector) (numElements : ℕ) (new : ℤ) : Option (Heap α) :=
  if v.capacity < numElements then do
    let h ← newArray v.elementType h numElements new
    let h ← h.copy v.elementType.sizeof new v.start v.size
    h.free v.start
  else some h

def pushBackCells (h : Heap α) (v : PVector) (val : α) (new : ℤ) : Option (Heap α) :=
  if v.size = v.capacity then do
    let h ← reserveCells h v v.grownSize new
    h.store v.elementType.sizeof (v.reserve v.grownSize new).endSize (some val)
  else h.store v.elementType.sizeof v.endSize (some val)

def assignCells (h : Heap α) (v : PVector) (n : ℕ) (val : α) : Option (Heap α) :=
  h.store v.elementType.sizeof (v.elementType.add v.start n) (some val)

def read (h : Heap α) (v : PVector) (n : ℕ) : Option (Option α) :=
  h.load v.elementType.sizeof (v.elementType.add v.start n)

def fillCells (h : Heap α) (v : PVector) (initVal : α) : Option (Heap α) :=
  h.fill v.elementType.sizeof v.start v.size initVal

/-- The storage is forgotten: `start_ = nullptr`. -/
def leak (v : PVector) : PVector := { v with start := 0 }

def releaseCells (h : Heap α) (v : PVector) : Option (Heap α) := h.free v.start

end PVector

structure VectorHeap (α : Type) where
  heap : Heap α
  live : Objects PVector

/-- A call on the objects `x` and `y`; `new` is the answer of the allocation the call may make. -/
inductive VectorCall (α : Type)
  | default (x : ℕ)
  | sized (x numElements : ℕ) (new : ℤ)
  | filled (x numElements : ℕ) (initVal : α) (new : ℤ)
  | copied (x y i j : ℕ) (new : ℤ)
  | moved (x y : ℕ)
  | moveAssign (x y : ℕ)
  | reserve (x numElements : ℕ) (new : ℤ)
  | resize (x numElements : ℕ) (new : ℤ)
  | pushBack (x : ℕ) (val : α) (new : ℤ)
  | assign (x n : ℕ) (val : α)
  | fill (x : ℕ) (initVal : α)
  | clear (x : ℕ)
  | swap (x y : ℕ)
  | leak (x : ℕ)
  | destroy (x : ℕ)

namespace VectorHeap

variable {α : Type}

def nothing : VectorHeap α := ⟨.empty, fun _ => none⟩

def construct (w : VectorHeap α) (x : ℕ) (v : PVector) (heap : Option (Heap α)) :
    Option (VectorHeap α) :=
  match w.live x with
  | some _ => none
  | none => heap.map fun h => ⟨h, put w.live x v⟩

def change (w : VectorHeap α) (x : ℕ) (f : PVector → PVector)
    (cells : Heap α → PVector → Option (Heap α)) : Option (VectorHeap α) :=
  match w.live x with
  | some v => (cells w.heap v).map fun h => ⟨h, put w.live x (f v)⟩
  | none => none

/-- No result where the call cannot be made, where its allocation cannot have answered `new`, and
where it is undefined. -/
def step (T : ElementType) (w : VectorHeap α) : VectorCall α → Option (VectorHeap α)
  | .default x => w.construct x ⟨T, 0, 0, 0, none⟩ (some w.heap)
  | .sized x n new => w.construct x (.storage T n new) (PVector.newArray T w.heap n new)
  | .filled x n initVal new =>
    w.construct x (.storage T n new) (PVector.filledCells T w.heap n initVal new)
  | .copied x y i j new =>
    match w.live y with
    | some u =>
      if i ≤ j then
        let copyBegin := T.add u.start i
        let copyEnd := T.add u.start j
        w.construct x (.storage T (T.sub copyEnd copyBegin).toNat new)
          (PVector.copiedCells T w.heap copyBegin copyEnd new)
      else none
    | none => none
  | .moved x y =>
    match w.live x, w.live y with
    | none, some u => some { w with live := put (put w.live x u.moved.1) y u.moved.2 }
    | _, _ => none
  | .moveAssign x y =>
    match w.live x, w.live y with
    | some v, some u =>
      if x = y then some w
      else (v.releaseCells w.heap).map fun h =>
        ⟨h, put (put w.live x (v.moveAssign u).1) y (v.moveAssign u).2⟩
    | _, _ => none
  | .reserve x n new => w.change x (·.reserve n new) fun h v => v.reserveCells h n new
  | .resize x n new => w.change x (·.resize n new) fun h v => v.reserveCells h n new
  | .pushBack x val new => w.change x (·.pushBack new) fun h v => v.pushBackCells h val new
  | .assign x n val => w.change x id fun h v => v.assignCells h n val
  | .fill x initVal => w.change x id fun h v => v.fillCells h initVal
  | .clear x => w.change x (·.clear) fun h _ => some h
  | .swap x y =>
    match w.live x, w.live y with
    | some v, some u =>
      if x = y then some w
      else some { w with live := put (put w.live x (v.swap u).1) y (v.swap u).2 }
    | _, _ => none
  | .leak x => w.change x (·.leak) fun h _ => some h
  | .destroy x =>
    match w.live x with
    | some v => (v.releaseCells w.heap).map fun h => ⟨h, remove w.live x⟩
    | none => none

def allocation (T : ElementType) (w : VectorHeap α) : VectorCall α → Option (ℕ × ℤ)
  | .sized _ n new => some (n, new)
  | .filled _ n _ new => some (n, new)
  | .copied _ y i j new => (w.live y).map fun u =>
    ((T.sub (T.add u.start j) (T.add u.start i)).toNat, new)
  | .reserve x n new => (w.live x).bind fun v => if v.capacity < n then some (n, new) else none
  | .resize x n new => (w.live x).bind fun v => if v.capacity < n then some (n, new) else none
  | .pushBack x _ new => (w.live x).bind fun v =>
    if v.size = v.capacity then some (v.grownSize, new) else none
  | _ => none

def Answered (T : ElementType) (w : VectorHeap α) (call : VectorCall α) : Prop :=
  ∀ n new, w.allocation T call = some (n, new) → PVector.CanAnswer T w.heap n new

end VectorHeap

end PickleDevice
