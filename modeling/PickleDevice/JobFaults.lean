import PickleDevice.DeviceManager
import PickleDevice.JobBuilding

namespace PickleDevice

open StateEffect Store Renaming

namespace Store

def SameLinks (s t : Store) (l : List Ptr) : Prop :=
  ∀ p ∈ l, ((s.desc p).dstIndexingArrayId = noDestination ↔
      (t.desc p).dstIndexingArrayId = noDestination) ∧
    ∀ q ∈ l, ((s.desc p).dstIndexingArrayId = (s.desc q).arrayId ↔
      (t.desc p).dstIndexingArrayId = (t.desc q).arrayId)

theorem SameLinks.symm {s t : Store} {l l' : List Ptr} (h : s.SameLinks t l) (hl : l'.Perm l) :
    t.SameLinks s l' := by
  intro p hp
  obtain ⟨hnone, hlink⟩ := h p (hl.mem_iff.mp hp)
  exact ⟨hnone.symm, fun q hq => (hlink q (hl.mem_iff.mp hq)).symm⟩

def Dangling (s : Store) (l : List Ptr) (p : Ptr) : Prop :=
  (s.desc p).dstIndexingArrayId ≠ noDestination ∧ (s.desc p).dstIndexingArrayId ∉ s.arrayIds l

theorem not_dangling {s : Store} {l : List Ptr} {p : Ptr} : ¬ s.Dangling l p ↔
    (s.desc p).dstIndexingArrayId ∈ s.arrayIds l ∨ (s.desc p).dstIndexingArrayId = noDestination := by
  rw [Dangling, not_and_or, not_not, not_not, or_comm]

theorem mem_arrayIds {s : Store} {l : List Ptr} {id : UInt64} :
    id ∈ s.arrayIds l ↔ ∃ q ∈ l, id = (s.desc q).arrayId := by
  rw [arrayIds, List.mem_map]
  constructor
  · rintro ⟨q, hq, rfl⟩
    exact ⟨q, hq, rfl⟩
  · rintro ⟨q, hq, rfl⟩
    exact ⟨q, hq, rfl⟩

theorem Dangling.sameLinks {s t : Store} {l l' : List Ptr} {p : Ptr} (hl : l'.Perm l)
    (h : s.SameLinks t l) (hmem : p ∈ l) (hd : s.Dangling l p) : t.Dangling l' p := by
  obtain ⟨hnone, hlink⟩ := h p hmem
  refine ⟨fun h => hd.1 (hnone.mpr h), ?_⟩
  intro h
  obtain ⟨q, hq, hid⟩ := mem_arrayIds.mp h
  have hq' : q ∈ l := hl.mem_iff.mp hq
  exact hd.2 (mem_arrayIds.mpr ⟨q, hq', (hlink q hq').mpr hid⟩)

end Store

namespace PickleJob

variable {kernelName kernelName' : List UInt8} {added added' : List Ptr} {job job' : PickleJob}
  {s t : Store} {p : Ptr} {fault : Fault}

def Throws (job : PickleJob) (s : Store) : Prop :=
  ∃ fault, (run job.getJobDescriptor s).1 = .error fault

theorem throws_iff_records? (h : ∀ p ∈ job.arrays, (s.desc p).arrayId ≠ unassignedID) :
    job.Throws s ↔ ¬ (job.records? s).isSome := by
  rw [Throws, run_getJobDescriptor_of_assigned h]
  cases job.records? s <;> simp

theorem throws_iff_dangling (hb : Built kernelName added job s) (ha : job.Assigned) :
    job.Throws s ↔ ∃ p ∈ added, s.Dangling added p := by
  rw [throws_iff_records? (hb.wellBuilt.named ha), hb.wellBuilt.records?_isSome ha, hb.arrays_eq,
    hb.ids_eq]
  simp only [← not_dangling, not_forall, not_not, exists_prop]

theorem throws_perm (hb : Built kernelName added job s) (ha : job.Assigned)
    (hb' : Built kernelName' added' job' t) (ha' : job'.Assigned) (hp : added'.Perm added)
    (hl : s.SameLinks t added) : job'.Throws t ↔ job.Throws s := by
  rw [throws_iff_dangling hb ha, throws_iff_dangling hb' ha']
  constructor
  · rintro ⟨p, hmem, hd⟩
    exact ⟨p, hp.mem_iff.mp hmem, hd.sameLinks hp.symm (hl.symm hp) hmem⟩
  · rintro ⟨p, hmem, hd⟩
    exact ⟨p, hp.mem_iff.mpr hmem, hd.sameLinks hp hl hmem⟩

theorem run_own_lookup (hb : Built kernelName added job s) (ha : job.Assigned) (hp : p ∈ added) :
    ∃ i, run (getArrayId p >>= fun id => job.arrayRenameMap.at' id) s = (.ok i, s) := by
  rw [← hb.arrays_eq] at hp
  have hid := hb.wellBuilt.named ha p hp
  obtain ⟨i, -, hi⟩ := renamed_mem (mem_ids s hp)
  refine ⟨UInt64.ofNat i, ?_⟩
  rw [run_bind_ok (run_getArrayId p s), idOf_of_assigned hid, withId_of_assigned hid, run_at,
    hb.wellBuilt.map ha, hi]
  rfl

theorem run_getJobDescriptor_of_throws (hb : Built kernelName added job s) (ha : job.Assigned)
    (h : (run job.getJobDescriptor s).1 = .error fault) :
    run job.getJobDescriptor s = (.error .outOfRange, s) := by
  rw [run_getJobDescriptor_of_assigned (hb.wellBuilt.named ha)] at h ⊢
  cases hrs : job.records? s with
  | none => rfl
  | some rs => simp [hrs] at h

theorem sendJob_of_throws (h : run job.getJobDescriptor s = (.error fault, t)) :
    PickleDeviceManager.sendJob job s = pure (.error fault, t) := by
  rw [PickleDeviceManager.sendJob, h]

/-- The second part is about any other job with the same adds, made in another order and possibly in
another run, whose arrays are linked alike. -/
theorem getJobDescriptor_throws_iff (hb : Built kernelName added job s) (hw : s.nextID < 2 ^ 64 - 1) :
    (job.Throws s ↔ ∃ p ∈ added, (s.desc p).dstIndexingArrayId ≠ noDestination ∧
      (s.desc p).dstIndexingArrayId ∉ s.arrayIds added) ∧
    (∀ kernelName' added' job' t, Built kernelName' added' job' t → t.nextID < 2 ^ 64 - 1 →
      added'.Perm added → s.SameLinks t added → (job'.Throws t ↔ job.Throws s)) ∧
    (∀ p ∈ added, ∃ i,
      run (getArrayId p >>= fun id => job.arrayRenameMap.at' id) s = (.ok i, s)) ∧
    (job.Throws s → run job.getJobDescriptor s = (.error .outOfRange, s) ∧
      PickleDeviceManager.sendJob job s = pure (.error .outOfRange, s)) := by
  have ha := hb.assigned (by omega)
  refine ⟨throws_iff_dangling hb ha, ?_, fun p hp => run_own_lookup hb ha hp, ?_⟩
  · intro kernelName' added' job' t hb' hw' hp hl
    exact throws_perm hb ha hb' (hb'.assigned (by omega)) hp hl
  · rintro ⟨fault, h⟩
    have hrun := run_getJobDescriptor_of_throws hb ha h
    exact ⟨hrun, sendJob_of_throws hrun⟩

theorem throws_linkedJob : linkedJob.Throws (linkedStore.modify 1 (·.setDst 5)) := by
  have hb : Built [7] [0, 1] linkedJob (linkedStore.modify 1 (·.setDst 5)) :=
    built_linkedJob.later (.single (.write _ _ _ fun _ => rfl))
  apply (getJobDescriptor_throws_iff hb (by decide)).1.mpr
  exact ⟨1, by decide, by decide, by decide⟩

end PickleJob

end PickleDevice
