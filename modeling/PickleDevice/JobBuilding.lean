import PickleDevice.PickleJob

/-!
Every way a job comes about: its constructor and any number of
`addArrayDescriptor` calls, with any other use of the library in between. The
rename map is then the renaming of the ids of the job's arrays by last position.
-/

namespace PickleDevice

open StateEffect Store Renaming

def Store.arrayIds (s : Store) (l : List Ptr) : List UInt64 := l.map fun p => (s.desc p).arrayId

@[simp] theorem Store.arrayIds_length (s : Store) (l : List Ptr) : (s.arrayIds l).length = l.length :=
  List.length_map _

@[simp] theorem Store.getElem_arrayIds (s : Store) (l : List Ptr) {i : ℕ} (hi : i < l.length)
    (hi' : i < (s.arrayIds l).length) : (s.arrayIds l)[i] = (s.desc l[i]).arrayId :=
  List.getElem_map _

namespace PickleJob

def withArray (job : PickleJob) (id : UInt64) (p : Ptr) : PickleJob :=
  { job with
    arrayRenameMap := job.arrayRenameMap.insert id job.renameCount
    renameCount := job.renameCount + 1
    arrays := job.arrays ++ [p] }

theorem run_addArrayDescriptor (job : PickleJob) (p : Ptr) (s : Store) :
    run (job.addArrayDescriptor (some p)) s = (.ok (job.withArray (s.idOf p) p), s.withId p) := by
  rw [addArrayDescriptor, deref_some, run_bind_ok (run_pure p s), run_bind_ok (run_getArrayId p s)]
  rfl

theorem follows_addArrayDescriptor (job : PickleJob) (array : Option Ptr) :
    Follows Evolves (job.addArrayDescriptor array) :=
  follows_bind Relation.ReflTransGen.trans (follows_deref array) fun p =>
    follows_bind Relation.ReflTransGen.trans (follows_getArrayId p) fun _ =>
      follows_pure (fun _ => .refl) _

theorem addArrayDescriptor_ok {job job' : PickleJob} {array : Option Ptr} {s t : Store}
    (h : run (job.addArrayDescriptor array) s = (.ok job', t)) : ∃ p, array = some p := by
  cases array with
  | none => cases h
  | some p => exact ⟨p, rfl⟩

/-- `job` comes from the constructor with `kernelName` and from one `addArrayDescriptor` call for
each of `added`, in this order. -/
inductive Built (kernelName : List UInt8) : List Ptr → PickleJob → Store → Prop
  | new {s : Store} (hs : Reachable s) : Built kernelName [] (.new kernelName) s
  | add {added : List Ptr} {job job' : PickleJob} {s s' : Store} {p : Ptr}
      (h : Built kernelName added job s) (hp : p < s.next)
      (hadd : run (job.addArrayDescriptor (some p)) s = (.ok job', s')) :
      Built kernelName (added ++ [p]) job' s'
  | later {added : List Ptr} {job : PickleJob} {s t : Store} (h : Built kernelName added job s)
      (he : Evolves s t) : Built kernelName added job t

theorem Built.withArray {kernelName : List UInt8} {added : List Ptr} {job : PickleJob} {s : Store}
    {p : Ptr} (h : Built kernelName added job s) (hp : p < s.next) :
    Built kernelName (added ++ [p]) (job.withArray (s.idOf p) p) (s.withId p) :=
  h.add hp (job.run_addArrayDescriptor p s)

theorem Built.arrays_eq {kernelName : List UInt8} {added : List Ptr} {job : PickleJob} {s : Store}
    (h : Built kernelName added job s) : job.arrays = added := by
  induction h with
  | new hs => rfl
  | add h hp hadd ih =>
    rw [run_addArrayDescriptor] at hadd
    cases hadd
    rw [PickleJob.withArray, ih]
  | later h he ih => exact ih

theorem Built.kernelName_eq {kernelName : List UInt8} {added : List Ptr} {job : PickleJob} {s : Store}
    (h : Built kernelName added job s) : job.kernelName = kernelName := by
  induction h with
  | new hs => rfl
  | add h hp hadd ih =>
    rw [run_addArrayDescriptor] at hadd
    cases hadd
    exact ih
  | later h he ih => exact ih

def ids (job : PickleJob) (s : Store) : List UInt64 := s.arrayIds job.arrays

/-- No array was entered in the map under the value that means it has no id. -/
def Assigned (job : PickleJob) : Prop := job.arrayRenameMap unassignedID = none

def renamed (ids : List UInt64) : RenameMap :=
  insertAll (RenameMap.insert (fun _ => none) noDestination noDestination) UInt64.ofNat ids

structure WellBuilt (job : PickleJob) (s : Store) : Prop where
  reachable : Reachable s
  live : ∀ p ∈ job.arrays, p < s.next
  count : job.renameCount = UInt64.ofNat job.arrays.length
  named : job.Assigned → ∀ p ∈ job.arrays, (s.desc p).arrayId ≠ unassignedID
  map : job.Assigned → job.arrayRenameMap = renamed (job.ids s)

theorem wellBuilt_new (kernelName : List UInt8) {s : Store} (hs : Reachable s) :
    WellBuilt (.new kernelName) s :=
  ⟨hs, by simp [PickleJob.new], rfl, by simp [PickleJob.new], fun _ => rfl⟩

theorem ids_keeps {job : PickleJob} {s t : Store} (hk : s.Keeps t)
    (hl : ∀ p ∈ job.arrays, p < s.next)
    (hn : ∀ p ∈ job.arrays, (s.desc p).arrayId ≠ unassignedID) : job.ids t = job.ids s :=
  List.map_congr_left fun p hp => hk.arrayId p (hl p hp) (hn p hp)

theorem WellBuilt.later {job : PickleJob} {s t : Store} (h : WellBuilt job s) (he : Evolves s t) :
    WellBuilt job t := by
  have hk := Evolves.keeps he
  refine ⟨h.reachable.evolves he, fun p hp => (h.live p hp).trans_le hk.next_le, h.count, ?_, ?_⟩
  · intro ha p hp
    rw [hk.arrayId p (h.live p hp) (h.named ha p hp)]
    exact h.named ha p hp
  · intro ha
    rw [ids_keeps hk h.live (h.named ha)]
    exact h.map ha

theorem withArray_assigned {job : PickleJob} {id : UInt64} {p : Ptr}
    (h : (job.withArray id p).Assigned) : id ≠ unassignedID ∧ job.Assigned := by
  by_cases hid : id = unassignedID
  · simp [Assigned, withArray, RenameMap.insert, hid] at h
  · refine ⟨hid, ?_⟩
    simpa [Assigned, withArray, RenameMap.insert, Function.update_of_ne (Ne.symm hid)] using h

theorem WellBuilt.withArray {job : PickleJob} {s : Store} {p : Ptr} (h : WellBuilt job s)
    (hp : p < s.next) : WellBuilt (job.withArray (s.idOf p) p) (s.withId p) := by
  have hl : WellBuilt job (s.withId p) := h.later (.single (.getArrayId s p))
  have hmem : ∀ q ∈ (job.withArray (s.idOf p) p).arrays, q ∈ job.arrays ∨ q = p := by
    simp [PickleJob.withArray]
  refine ⟨hl.reachable, ?_, ?_, ?_, ?_⟩
  · intro q hq
    rcases hmem q hq with hq | rfl
    · exact hl.live q hq
    · simpa using hp
  · simp [PickleJob.withArray, h.count, UInt64.ofNat_add]
  · intro ha q hq
    obtain ⟨hid, ha⟩ := withArray_assigned ha
    rcases hmem q hq with hq | rfl
    · exact hl.named ha q hq
    · rwa [withId_arrayId]
  · intro ha
    obtain ⟨-, ha⟩ := withArray_assigned ha
    have hids : (job.withArray (s.idOf p) p).ids (s.withId p) =
        job.ids (s.withId p) ++ [s.idOf p] := by
      simp [ids, arrayIds, PickleJob.withArray, withId_arrayId]
    rw [hids, renamed, insertAll_append, ← renamed, ← hl.map ha]
    simp [PickleJob.withArray, RenameMap.insert, h.count, ids]

section Built

variable {kernelName : List UInt8} {added : List Ptr} {job : PickleJob} {s : Store}

theorem Built.wellBuilt (h : Built kernelName added job s) : WellBuilt job s := by
  induction h with
  | new hs => exact wellBuilt_new kernelName hs
  | add h hp hadd ih =>
    rw [run_addArrayDescriptor] at hadd
    cases hadd
    exact ih.withArray hp
  | later h he ih => exact ih.later he

theorem Built.assigned (h : Built kernelName added job s) (hw : s.nextID ≤ 2 ^ 64) :
    job.Assigned := by
  induction h with
  | new hs => rfl
  | @add added job job' s s' p h hp hadd ih =>
    rw [run_addArrayDescriptor] at hadd
    cases hadd
    have hk := (keeps_withId s p).nextID_le
    have hid := idOf_ne_unassigned p h.wellBuilt.reachable.idsValid hw
    have ha : job.Assigned := ih (hk.trans hw)
    simpa [Assigned, PickleJob.withArray, RenameMap.insert, Function.update_of_ne hid.symm] using ha
  | later h he ih => exact ih ((Evolves.keeps he).nextID_le.trans hw)

theorem Built.ids_eq (h : Built kernelName added job s) :
    job.ids s = s.arrayIds added := by
  rw [ids, h.arrays_eq]

end Built

end PickleJob

def Store.record? (s : Store) (m : RenameMap) (p : Ptr) : Option Record := do
  let id ← m (s.desc p).arrayId
  let dst ← m (s.desc p).dstIndexingArrayId
  return ⟨id, dst, (s.desc p).vaddrStart, (s.desc p).vaddrEnd, (s.desc p).elementSize,
    (s.desc p).accessType.toUInt64, (s.desc p).addressingMode.toUInt64⟩

structure Record.IsOf (r : Record) (m : RenameMap) (d : PickleArrayDescriptor) : Prop where
  id : m d.arrayId = some r.id
  dst : m d.dstIndexingArrayId = some r.dst
  vaddrStart : r.vaddrStart = d.vaddrStart
  vaddrEnd : r.vaddrEnd = d.vaddrEnd
  elementSize : r.elementSize = d.elementSize
  accessType : r.accessType = d.accessType.toUInt64
  addressingMode : r.addressingMode = d.addressingMode.toUInt64

theorem record?_eq_some {s : Store} {m : RenameMap} {p : Ptr} {r : Record}
    (h : s.record? m p = some r) : r.IsOf m (s.desc p) := by
  unfold Store.record? at h
  cases hid : m (s.desc p).arrayId with
  | none => simp [hid] at h
  | some id =>
    cases hdst : m (s.desc p).dstIndexingArrayId with
    | none => simp [hid, hdst] at h
    | some dst =>
      simp only [hid, hdst, Option.bind_eq_bind, Option.bind_some, Option.pure_def,
        Option.some.injEq] at h
      subst h
      exact ⟨hid, hdst, rfl, rfl, rfl, rfl, rfl⟩

theorem readRecord_of_assigned {s : Store} {p : Ptr} (m : RenameMap)
    (h : (s.desc p).arrayId ≠ unassignedID) :
    run (readRecord m p) s = ((s.record? m p).elim (.error .outOfRange) .ok, s) := by
  simp only [readRecord, run_bind, run_getArrayId, PickleJob.run_at, run_get, run_pure,
    withId_of_assigned h, idOf_of_assigned h, Store.record?]
  cases m (s.desc p).arrayId with
  | none => rfl
  | some id => cases h : m (s.desc p).dstIndexingArrayId <;> simp [h]

theorem readRecords_of_assigned {s : Store} {l : List Ptr} (m : RenameMap)
    (h : ∀ p ∈ l, (s.desc p).arrayId ≠ unassignedID) :
    run (readRecords m l) s = ((l.mapM (s.record? m)).elim (.error .outOfRange) .ok, s) := by
  induction l with
  | nil => rfl
  | cons p l ih =>
    have hp := readRecord_of_assigned m (h p List.mem_cons_self)
    have hl := ih fun q hq => h q (List.mem_cons_of_mem p hq)
    rw [readRecords, run_bind, hp, List.mapM_cons]
    cases s.record? m p with
    | none => rfl
    | some r =>
      simp only [Option.elim_some, run_bind, hl]
      cases l.mapM (s.record? m) <;> rfl

theorem mapM_eq_some {α β : Type} {f : α → Option β} {l : List α} {r : List β} :
    l.mapM f = some r ↔ l.map f = r.map some := by
  induction l generalizing r with
  | nil => cases r <;> simp
  | cons a l ih =>
    rw [List.mapM_cons]
    constructor
    · intro h
      cases ha : f a with
      | none => simp [ha] at h
      | some b =>
        cases hl : l.mapM f with
        | none => simp [ha, hl] at h
        | some bs =>
          obtain rfl : b :: bs = r := by simpa [ha, hl] using h
          simp [ha, ih.mp hl]
    · intro h
      cases r with
      | nil => simp at h
      | cons b bs =>
        obtain ⟨ha, hl⟩ : f a = some b ∧ l.map f = bs.map some := by simpa using h
        simp [ha, ih.mpr hl]

namespace PickleJob

def records? (job : PickleJob) (s : Store) : Option (List Record) :=
  job.arrays.mapM (s.record? job.arrayRenameMap)

theorem run_getJobDescriptor_of_assigned {job : PickleJob} {s : Store}
    (h : ∀ p ∈ job.arrays, (s.desc p).arrayId ≠ unassignedID) :
    run job.getJobDescriptor s =
      ((job.records? s).elim (.error .outOfRange) fun rs => .ok (serialize job.kernelName rs), s) := by
  rw [run_getJobDescriptor, run_bind, readRecords_of_assigned _ h, ← records?]
  cases job.records? s <;> rfl

theorem renamed_mem {ids : List UInt64} {key : UInt64} (h : key ∈ ids) :
    ∃ i, lastPosition ids key = some i ∧ renamed ids key = some (UInt64.ofNat i) := insertAll_mem h

theorem renamed_not_mem {ids : List UInt64} {key : UInt64} (h : key ∉ ids) :
    renamed ids key = if key = noDestination then some noDestination else none := by
  rw [renamed, insertAll_not_mem h, RenameMap.insert, Function.update_apply]

theorem mem_ids {job : PickleJob} {p : Ptr} (s : Store) (h : p ∈ job.arrays) :
    (s.desc p).arrayId ∈ job.ids s := List.mem_map_of_mem h

theorem renamed_isSome {ids : List UInt64} {key : UInt64} :
    (renamed ids key).isSome ↔ key ∈ ids ∨ key = noDestination := by
  by_cases h : key ∈ ids
  · obtain ⟨i, -, hi⟩ := renamed_mem h
    simp [hi, h]
  · rw [renamed_not_mem h]
    by_cases hd : key = noDestination <;> simp [hd, h]

theorem WellBuilt.records?_isSome {job : PickleJob} {s : Store} (h : WellBuilt job s)
    (ha : job.Assigned) : (job.records? s).isSome ↔
      ∀ p ∈ job.arrays, (s.desc p).dstIndexingArrayId ∈ job.ids s ∨
        (s.desc p).dstIndexingArrayId = noDestination := by
  have hrec : ∀ p ∈ job.arrays, (s.record? job.arrayRenameMap p).isSome ↔
      (s.desc p).dstIndexingArrayId ∈ job.ids s ∨ (s.desc p).dstIndexingArrayId = noDestination := by
    intro p hp
    obtain ⟨i, -, hi⟩ := renamed_mem (mem_ids s hp)
    rw [← renamed_isSome, Store.record?, h.map ha, hi]
    cases renamed (job.ids s) (s.desc p).dstIndexingArrayId <;> simp
  constructor
  · intro hs p hp
    obtain ⟨rs, hrs⟩ := Option.isSome_iff_exists.mp hs
    have hmem : s.record? job.arrayRenameMap p ∈ rs.map some :=
      mapM_eq_some.mp hrs ▸ List.mem_map_of_mem hp
    obtain ⟨r, -, hr⟩ := List.mem_map.mp hmem
    apply (hrec p hp).mp
    simp [← hr]
  · intro hd
    rw [Option.isSome_iff_exists]
    refine ⟨job.arrays.filterMap (s.record? job.arrayRenameMap), mapM_eq_some.mpr ?_⟩
    rw [List.map_filterMap]
    symm
    apply List.filterMap_eq_map_iff_forall_eq_some.mpr
    intro p hp
    obtain ⟨r, hr⟩ := Option.isSome_iff_exists.mp ((hrec p hp).mpr (hd p hp))
    simp [hr]

def addArrayDescriptors (job : PickleJob) : List (Option Ptr) → Action PickleJob
  | [] => pure job
  | array :: arrays => do
    let job ← job.addArrayDescriptor array
    job.addArrayDescriptors arrays

theorem Built.addArrayDescriptors {kernelName : List UInt8} {added : List Ptr} {job job' : PickleJob}
    {s s' : Store} {l : List Ptr} (h : Built kernelName added job s) (hl : ∀ p ∈ l, p < s.next)
    (hrun : run (job.addArrayDescriptors (l.map some)) s = (.ok job', s')) :
    Built kernelName (added ++ l) job' s' := by
  induction l generalizing added job s with
  | nil =>
    cases hrun
    rwa [List.append_nil]
  | cons p l ih =>
    obtain ⟨job₁, s₁, hadd, hrest⟩ := run_bind_eq_ok hrun
    have hb := h.add (hl p List.mem_cons_self) hadd
    rw [run_addArrayDescriptor] at hadd
    cases hadd
    have hb' := ih hb (fun q hq => by simpa using hl q (List.mem_cons_of_mem p hq)) hrest
    rwa [List.append_assoc] at hb'

theorem run_addArrayDescriptors (job : PickleJob) (l : List Ptr) (s : Store) :
    ∃ job' s', run (job.addArrayDescriptors (l.map some)) s = (.ok job', s') ∧
      job'.arrays = job.arrays ++ l ∧ job'.kernelName = job.kernelName ∧
      (∀ q, (s'.desc q).dstIndexingArrayId = (s.desc q).dstIndexingArrayId) ∧
      s'.nextID ≤ s.nextID + l.length := by
  induction l generalizing job s with
  | nil => exact ⟨job, s, rfl, by simp, rfl, fun _ => rfl, le_rfl⟩
  | cons p l ih =>
    obtain ⟨job', s', hrun, harr, hname, hdst, hn⟩ := ih (job.withArray (s.idOf p) p) (s.withId p)
    refine ⟨job', s', ?_, ?_, hname, ?_, ?_⟩
    · rw [List.map_cons, PickleJob.addArrayDescriptors, run_bind_ok (run_addArrayDescriptor job p s)]
      exact hrun
    · rw [harr, PickleJob.withArray, List.append_assoc]
      rfl
    · intro q
      rw [hdst, withId_desc]
    · have hp : (s.withId p).nextID ≤ s.nextID + 1 := by
        unfold withId
        split <;> simp
      rw [List.length_cons]
      omega

/-- Two arrays, the first linked to the second; the link gave the second its id first. -/
def linkedArrays : Store :=
  (((init.allocDescribed 4096 4112 4).allocDescribed 8192 8208 8).linked 0 1).modify 0
    (·.setAccessType .ranged)

def linkedStore : Store := (linkedArrays.withId 0).withId 1

def linkedJob : PickleJob := ((new [7]).withArray 2 0).withArray 1 1

def linkedRecords : List Record :=
  [⟨0, 1, 4096, 4112, 4, 1, 0⟩, ⟨1, noDestination, 8192, 8208, 8, 0, 0⟩]

theorem reachable_linkedArrays : Reachable linkedArrays :=
  (((allocDescribed_evolves init _ _ _).trans (allocDescribed_evolves _ _ _ _)).trans
    (linked_evolves _ 0 1)).tail (.write _ 0 _ fun _ => rfl)

theorem built_linkedJob : Built [7] [0, 1] linkedJob linkedStore :=
  ((Built.new reachable_linkedArrays).withArray (p := 0) (by decide)).withArray (p := 1) (by decide)

theorem run_linkedJob :
    run linkedJob.getJobDescriptor linkedStore = (.ok (serialize [7] linkedRecords), linkedStore) := by
  have hrecords : linkedJob.records? linkedStore = some linkedRecords := by decide
  rw [run_getJobDescriptor_of_assigned (by decide), hrecords]
  rfl

end PickleJob

end PickleDevice
