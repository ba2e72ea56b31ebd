import PickleDevice.JobBuilding
import Mathlib.Logic.Equiv.Basic

namespace PickleDevice

open StateEffect Store Renaming

namespace PickleJob

/-- `d'` is `d` with its id and destination renamed by `f`; the name is not encoded. -/
structure Relabeled (f : UInt64 → UInt64) (d d' : PickleArrayDescriptor) : Prop where
  arrayId : d'.arrayId = f d.arrayId
  dst : d'.dstIndexingArrayId = f d.dstIndexingArrayId
  vaddrStart : d'.vaddrStart = d.vaddrStart
  vaddrEnd : d'.vaddrEnd = d.vaddrEnd
  elementSize : d'.elementSize = d.elementSize
  accessType : d'.accessType = d.accessType
  addressingMode : d'.addressingMode = d.addressingMode

theorem renamed_map {f : UInt64 → UInt64} (hf : Function.Injective f)
    (hd : f noDestination = noDestination) (ids : List UInt64) (key : UInt64) :
    renamed (ids.map f) (f key) = renamed ids key := by
  apply insertAll_map hf
  intro k
  by_cases hk : k = noDestination
  · simp [RenameMap.insert, hk, hd]
  · have hfk : f k ≠ noDestination := fun h => hk (hf (h.trans hd.symm))
    simp [RenameMap.insert, Function.update_of_ne hk, Function.update_of_ne hfk]

theorem record?_relabeled {f : UInt64 → UInt64} {m m' : RenameMap}
    (hm : ∀ key, m' (f key) = m key) {s s' : Store} {p p' : Ptr}
    (h : Relabeled f (s.desc p) (s'.desc p')) : s'.record? m' p' = s.record? m p := by
  simp only [Store.record?, h.arrayId, h.dst, hm, h.vaddrStart, h.vaddrEnd, h.elementSize,
    h.accessType, h.addressingMode]

section Built

variable {f : UInt64 → UInt64} {kernelName : List UInt8} {added added' : List Ptr}
  {job job' : PickleJob} {s s' : Store}

theorem records?_relabeled (hf : Function.Injective f) (hd : f noDestination = noDestination)
    (hb : Built kernelName added job s) (hb' : Built kernelName added' job' s') (ha : job.Assigned)
    (ha' : job'.Assigned) (hlen : added'.length = added.length)
    (h : ∀ i (hi : i < added.length), Relabeled f (s.desc added[i]) (s'.desc added'[i])) :
    job'.records? s' = job.records? s := by
  have hids : job'.ids s' = (job.ids s).map f := by
    rw [hb.ids_eq, hb'.ids_eq]
    apply List.ext_getElem
    · simp [hlen]
    · intro i hi _
      simpa [arrayIds] using (h i (by simpa [hlen] using hi)).arrayId
  have hm : ∀ key, job'.arrayRenameMap (f key) = job.arrayRenameMap key := by
    intro key
    rw [hb'.wellBuilt.map ha', hb.wellBuilt.map ha, hids, renamed_map hf hd]
  have hrec : added'.map (s'.record? job'.arrayRenameMap) =
      added.map (s.record? job.arrayRenameMap) := by
    apply List.ext_getElem
    · simp [hlen]
    · intro i hi _
      simpa using record?_relabeled hm (h i (by simpa [hlen] using hi))
  have hid (l : List Ptr) (g : Ptr → Option Record) : l.mapM g = (l.map g).mapM id := by
    rw [List.mapM_map]
    rfl
  rw [records?, records?, hb.arrays_eq, hb'.arrays_eq, hid, hid _ (s.record? _), hrec]

theorem getJobDescriptor_relabeled (hf : Function.Injective f) (hd : f noDestination = noDestination)
    (hb : Built kernelName added job s) (hb' : Built kernelName added' job' s') (ha : job.Assigned)
    (ha' : job'.Assigned) (hlen : added'.length = added.length)
    (h : ∀ i (hi : i < added.length), Relabeled f (s.desc added[i]) (s'.desc added'[i])) :
    (run job'.getJobDescriptor s').1 = (run job.getJobDescriptor s).1 := by
  rw [run_getJobDescriptor_of_assigned (hb.wellBuilt.named ha),
    run_getJobDescriptor_of_assigned (hb'.wellBuilt.named ha'),
    records?_relabeled hf hd hb hb' ha ha' hlen h, hb.kernelName_eq, hb'.kernelName_eq]

end Built

def relinkedArrays : Store :=
  ((init.alloc.withId 0).allocDescribed 4096 4112 4).allocDescribed 8192 8208 8

def relinkedStore : Store :=
  (((relinkedArrays.withId 1).withId 2).linked 1 2).modify 1 (·.setAccessType .ranged)

def relinkedJob : PickleJob := ((new [7]).withArray 2 1).withArray 3 2

theorem built_relinkedJob : Built [7] [1, 2] relinkedJob relinkedStore := by
  have hreach : Reachable relinkedArrays :=
    ((((Relation.ReflTransGen.single (.newDescriptor init)).tail (.getArrayId _ 0)).trans
      (allocDescribed_evolves _ _ _ _)).trans (allocDescribed_evolves _ _ _ _))
  have hadded : Built [7] [1, 2] relinkedJob ((relinkedArrays.withId 1).withId 2) :=
    ((Built.new hreach).withArray (p := 1) (by decide)).withArray (p := 2) (by decide)
  exact hadded.later ((linked_evolves _ 1 2).tail (.write _ 1 _ fun _ => rfl))

theorem getJobDescriptor_relabeled_relinkedJob :
    (run relinkedJob.getJobDescriptor relinkedStore).1 =
      (run linkedJob.getJobDescriptor linkedStore).1 := by
  have hfirst : Relabeled (Equiv.swap 1 3) (linkedStore.desc 0) (relinkedStore.desc 1) :=
    ⟨by decide, by decide, rfl, rfl, rfl, rfl, rfl⟩
  have hsecond : Relabeled (Equiv.swap 1 3) (linkedStore.desc 1) (relinkedStore.desc 2) :=
    ⟨by decide, by decide, rfl, rfl, rfl, rfl, rfl⟩
  have hrel : ∀ i (hi : i < [0, 1].length),
      Relabeled (Equiv.swap 1 3) (linkedStore.desc [0, 1][i]) (relinkedStore.desc [1, 2][i]) := by
    intro i hi
    obtain rfl | rfl : i = 0 ∨ i = 1 := by
      rw [List.length_cons, List.length_singleton] at hi
      omega
    · exact hfirst
    · exact hsecond
  exact getJobDescriptor_relabeled (Equiv.injective _) (by decide) built_linkedJob built_relinkedJob
    rfl rfl rfl hrel

end PickleJob

end PickleDevice
