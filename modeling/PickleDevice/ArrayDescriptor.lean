import PickleDevice.Library.StateEffect
import Mathlib.Data.Nat.Notation
import Mathlib.Logic.Function.Basic
import Mathlib.Tactic.SplitIfs

namespace PickleDevice

open StateEffect

inductive AccessType
  | singleElement
  | ranged
  deriving DecidableEq, Repr

def AccessType.toUInt64 : AccessType → UInt64
  | .singleElement => 0
  | .ranged => 1

inductive AddressingMode
  | pointer
  | index
  deriving DecidableEq, Repr

def AddressingMode.toUInt64 : AddressingMode → UInt64
  | .pointer => 0
  | .index => 1

def unassignedID : UInt64 := 0

def noDestination : UInt64 := -1

structure PickleArrayDescriptor where
  arrayId : UInt64
  name : String
  dstIndexingArrayId : UInt64
  vaddrStart : UInt64
  vaddrEnd : UInt64
  elementSize : UInt64
  accessType : AccessType
  addressingMode : AddressingMode
  deriving DecidableEq, Repr

namespace PickleArrayDescriptor

def new : PickleArrayDescriptor :=
  ⟨unassignedID, "unknown", noDestination, 0, 0, 0, .singleElement, .pointer⟩

def setName (d : PickleArrayDescriptor) (name : String) : PickleArrayDescriptor :=
  { d with name := name }

def setAccessType (d : PickleArrayDescriptor) (t : AccessType) : PickleArrayDescriptor :=
  { d with accessType := t }

def setAddressingMode (d : PickleArrayDescriptor) (m : AddressingMode) : PickleArrayDescriptor :=
  { d with addressingMode := m }

def setDst (d : PickleArrayDescriptor) (id : UInt64) : PickleArrayDescriptor :=
  { d with dstIndexingArrayId := id }

def setRange (d : PickleArrayDescriptor) (start stop size : UInt64) : PickleArrayDescriptor :=
  { d with vaddrStart := start, vaddrEnd := stop, elementSize := size }

end PickleArrayDescriptor

abbrev Ptr := ℕ

/-- The descriptor objects and the static counter `PickleArrayDescriptor::nextID`. The counter is
kept unreduced; the 64-bit value the program sees is its remainder modulo `2 ^ 64`. -/
structure Store where
  desc : Ptr → PickleArrayDescriptor
  next : ℕ
  nextID : ℕ

inductive Fault
  | nullDereference
  | outOfRange
  deriving DecidableEq, Repr

abbrev Action := Effect Fault Store

namespace Store

def init : Store := ⟨fun _ => .new, 0, 1⟩

def modify (s : Store) (p : Ptr) (f : PickleArrayDescriptor → PickleArrayDescriptor) : Store :=
  { s with desc := Function.update s.desc p (f (s.desc p)) }

def alloc (s : Store) : Store :=
  { s with desc := Function.update s.desc s.next .new, next := s.next + 1 }

end Store

def newDescriptor : Action Ptr := do
  let s ← get
  set s.alloc
  return s.next

def assignNextId : Action UInt64 := do
  let s ← get
  set { s with nextID := s.nextID + 1 }
  return UInt64.ofNat s.nextID

def getArrayId (p : Ptr) : Action UInt64 := do
  let s ← get
  if (s.desc p).arrayId = unassignedID then
    let id ← assignNextId
    modify (·.modify p fun d => { d with arrayId := id })
    return id
  else
    return (s.desc p).arrayId

/-- Using a null `shared_ptr` as an object. -/
def deref : Option Ptr → Action Ptr
  | some p => pure p
  | none => throw .nullDereference

def link (src dst : Ptr) : Action Unit := do
  let id ← getArrayId dst
  modify (·.modify src (·.setDst id))

/-- The `...IndexedBy` members: `descriptor` is made to index the array of `self`. -/
def indexedBy (self descriptor : Option Ptr) : Action Unit := do
  let dst ← deref self
  let src ← deref descriptor
  link src dst

def newDescribed (start stop size : UInt64) : Action Ptr := do
  let d ← newDescriptor
  modify (·.modify d (·.setRange start stop size))
  return d

namespace Store

variable {s t u : Store} {p q : ℕ} {f : PickleArrayDescriptor → PickleArrayDescriptor}

def idOf (s : Store) (p : Ptr) : UInt64 :=
  if (s.desc p).arrayId = unassignedID then UInt64.ofNat s.nextID else (s.desc p).arrayId

def withId (s : Store) (p : Ptr) : Store :=
  if (s.desc p).arrayId = unassignedID then
    { s.modify p (fun d => { d with arrayId := UInt64.ofNat s.nextID }) with nextID := s.nextID + 1 }
  else s

@[simp] theorem modify_next : (s.modify p f).next = s.next := rfl

@[simp] theorem modify_nextID : (s.modify p f).nextID = s.nextID := rfl

@[simp] theorem modify_desc : (s.modify p f).desc p = f (s.desc p) := by simp [modify]

theorem modify_desc_of_ne (h : q ≠ p) : (s.modify p f).desc q = s.desc q := by
  simp [modify, Function.update_of_ne h]

theorem modify_desc_apply :
    (s.modify p f).desc q = if q = p then f (s.desc q) else s.desc q := by
  by_cases h : q = p
  · subst h; simp
  · simp [modify_desc_of_ne h, h]

@[simp] theorem alloc_next : s.alloc.next = s.next + 1 := rfl

@[simp] theorem alloc_desc : s.alloc.desc s.next = .new := by simp [alloc]

theorem alloc_desc_of_ne (h : q ≠ s.next) : s.alloc.desc q = s.desc q := by
  simp [alloc, Function.update_of_ne h]

@[simp] theorem withId_next : (s.withId p).next = s.next := by
  unfold withId; split <;> rfl

theorem withId_arrayId : ((s.withId p).desc p).arrayId = s.idOf p := by
  unfold withId idOf; split <;> simp [modify]

theorem withId_of_assigned (h : (s.desc p).arrayId ≠ unassignedID) : s.withId p = s := by
  simp [withId, h]

theorem idOf_of_assigned (h : (s.desc p).arrayId ≠ unassignedID) :
    s.idOf p = (s.desc p).arrayId := by
  simp [idOf, h]

theorem withId_desc_of_ne (h : q ≠ p) : (s.withId p).desc q = s.desc q := by
  unfold withId; split <;> simp [modify, Function.update_of_ne h]

theorem withId_desc : (s.withId p).desc q =
    { s.desc q with arrayId := ((s.withId p).desc q).arrayId } := by
  by_cases h : q = p
  · subst h
    unfold withId; split <;> simp [modify]
  · rw [withId_desc_of_ne h]

def allocDescribed (s : Store) (start stop size : UInt64) : Store :=
  s.alloc.modify s.next (·.setRange start stop size)

def linked (s : Store) (src dst : Ptr) : Store := (s.withId dst).modify src (·.setDst (s.idOf dst))

section Derived

variable {start stop size : UInt64} {src dst : Ptr}

@[simp] theorem allocDescribed_next : (s.allocDescribed start stop size).next = s.next + 1 := rfl

@[simp] theorem allocDescribed_nextID : (s.allocDescribed start stop size).nextID = s.nextID := rfl

theorem allocDescribed_desc : (s.allocDescribed start stop size).desc q =
    if q = s.next then PickleArrayDescriptor.new.setRange start stop size else s.desc q := by
  rw [allocDescribed, modify_desc_apply]
  split_ifs with h
  · rw [h, alloc_desc]
  · rw [alloc_desc_of_ne h]

@[simp] theorem linked_next : (s.linked src dst).next = s.next := by simp [linked]

theorem linked_desc_of_ne (hs : q ≠ src) (hd : q ≠ dst) : (s.linked src dst).desc q = s.desc q := by
  rw [linked, modify_desc_of_ne hs, withId_desc_of_ne hd]

theorem linked_nextID : (s.linked src dst).nextID = (s.withId dst).nextID := rfl

theorem linked_desc : (s.linked src dst).desc q =
    { s.desc q with
      arrayId := ((s.linked src dst).desc q).arrayId
      dstIndexingArrayId := ((s.linked src dst).desc q).dstIndexingArrayId } := by
  by_cases h : q = src
  · subst h
    rw [linked, modify_desc, PickleArrayDescriptor.setDst, withId_desc]
  · rw [linked, modify_desc_of_ne h, withId_desc]

end Derived

end Store

theorem run_assignNextId (s : Store) :
    run assignNextId s = (.ok (UInt64.ofNat s.nextID), { s with nextID := s.nextID + 1 }) := rfl

theorem run_getArrayId (p : Ptr) (s : Store) : run (getArrayId p) s = (.ok (s.idOf p), s.withId p) := by
  unfold getArrayId Store.idOf Store.withId
  rw [run_bind_ok (run_get s), run_ite]
  split
  · rw [run_bind_ok (run_assignNextId s), run_bind_ok (run_modify _ _)]
    rfl
  · rfl

theorem run_link (p q : Ptr) (s : Store) : run (link p q) s = (.ok (), s.linked p q) := by
  rw [link, run_bind_ok (run_getArrayId q s), run_modify]
  rfl

theorem run_indexedBy (p q : Ptr) (s : Store) :
    run (indexedBy (some q) (some p)) s = (.ok (), s.linked p q) := run_link p q s

theorem run_newDescribed (start stop size : UInt64) (s : Store) :
    run (newDescribed start stop size) s =
      (.ok s.next, s.allocDescribed start stop size) := rfl

@[simp] theorem deref_some (p : Ptr) : deref (some p) = pure p := rfl

end PickleDevice
