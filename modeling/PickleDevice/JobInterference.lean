import PickleDevice.GraphJobHistory

namespace PickleDevice

open StateEffect Store Runs

namespace Store

variable {s t : Store} {p q r : ℕ}

theorem withId_desc_of_assigned (h : (s.desc q).arrayId ≠ unassignedID) :
    (s.withId p).desc q = s.desc q := by
  by_cases hqp : q = p
  · subst hqp
    rw [withId_of_assigned h]
  · exact withId_desc_of_ne hqp

def LinkedTo (s : Store) (p q : ℕ) : Prop :=
  (s.desc q).arrayId ≠ unassignedID ∧ (s.desc p).dstIndexingArrayId = (s.desc q).arrayId

instance (s : Store) (p q : ℕ) : Decidable (s.LinkedTo p q) := inferInstanceAs (Decidable (_ ∧ _))

theorem linked_desc_of_linkedTo (hq : (s.desc q).arrayId ≠ unassignedID)
    (h : q = p → s.LinkedTo q r) : (s.linked p r).desc q = s.desc q := by
  by_cases hqp : q = p
  · obtain ⟨hr, hdst⟩ := h hqp
    subst hqp
    rw [linked, modify_desc, withId_of_assigned hr, idOf_of_assigned hr, ← hdst]
    rfl
  · rw [linked, modify_desc_of_ne hqp, withId_desc_of_assigned hq]

theorem linked_arrayId_of_assigned (h : (s.desc q).arrayId ≠ unassignedID) :
    ((s.linked p r).desc q).arrayId = (s.desc q).arrayId := by
  rw [linked, modify_arrayId (f := (·.setDst (s.idOf r))) fun _ => rfl, withId_desc_of_assigned h]

theorem LinkedTo.withId (h : s.LinkedTo p q) (r : ℕ) : (s.withId r).LinkedTo p q := by
  obtain ⟨hq, hdst⟩ := h
  refine ⟨?_, ?_⟩
  · rwa [withId_desc_of_assigned hq]
  · rw [withId_desc_of_assigned hq, withId_desc, ← hdst]

end Store

namespace GraphArrays

variable {a : GraphArrays} {s : Store} {q : ℕ}

structure Leaves (a : GraphArrays) (s : Store) (q : ℕ) : Prop where
  selector : a.selector = some q → s.LinkedTo q a.index
  neighbors : q = a.neighbors → ∀ c, a.consumer = some c → s.LinkedTo q c

theorem addedStore_desc (hq : (s.desc q).arrayId ≠ unassignedID) :
    (a.addedStore s).desc q = s.desc q := by
  have h := withId_desc_of_assigned (p := a.index) hq
  rw [addedStore, withId_desc_of_assigned (by rwa [h]), h]

theorem selectedStore_arrayId (hq : (s.desc q).arrayId ≠ unassignedID) :
    ((a.selectedStore s).desc q).arrayId = (s.desc q).arrayId := by
  have hadd := addedStore_desc (a := a) hq
  unfold selectedStore
  cases a.selector with
  | none => exact congrArg _ hadd
  | some p =>
    have hid := withId_desc_of_assigned (p := p) (s := a.addedStore s) (by rwa [hadd])
    rw [Option.elim_some, linked_arrayId_of_assigned (by rwa [hid, hadd]), hid, hadd]

theorem selectedStore_desc (hq : (s.desc q).arrayId ≠ unassignedID) (h : a.Leaves s q) :
    (a.selectedStore s).desc q = s.desc q := by
  have hadd := addedStore_desc (a := a) hq
  unfold selectedStore
  cases hs : a.selector with
  | none => exact hadd
  | some p =>
    have hid := withId_desc_of_assigned (p := p) (s := a.addedStore s) (by rwa [hadd])
    rw [Option.elim_some, linked_desc_of_linkedTo (by rwa [hid, hadd]), hid, hadd]
    rintro rfl
    exact (((h.selector hs).withId _).withId _).withId _

theorem finalStore_desc (hq : (s.desc q).arrayId ≠ unassignedID) (h : a.Leaves s q) :
    (a.finalStore s).desc q = s.desc q := by
  have hsel := selectedStore_desc hq h
  unfold finalStore
  cases hc : a.consumer with
  | none => exact hsel
  | some c =>
    have hid := withId_desc_of_assigned (p := c) (s := a.selectedStore s) (by rwa [hsel])
    rw [Option.elim_some, linked_desc_of_linkedTo (by rwa [hid, hsel]), hid, hsel]
    intro hn
    obtain ⟨hcid, hdst⟩ := h.neighbors hn c hc
    have hkeep := selectedStore_arrayId (a := a) hcid
    refine LinkedTo.withId ⟨?_, ?_⟩ c
    · rwa [hkeep]
    · rw [hsel, hkeep, hdst]

end GraphArrays

theorem changeByArrayId_desc (change : PickleArrayDescriptor → PickleArrayDescriptor) (id : UInt64)
    (l : List Ptr) {s : Store} {q : ℕ} (hq : (s.desc q).arrayId ≠ unassignedID)
    (h : q ∈ l → (s.desc q).arrayId = id → change (s.desc q) = s.desc q) :
    (run (PickleJob.changeByArrayId change id l) s).2.desc q = s.desc q := by
  induction l generalizing s with
  | nil => rfl
  | cons p l ih =>
    have hkeep := withId_desc_of_assigned (p := p) hq
    rw [PickleJob.changeByArrayId, run_bind_ok (run_getArrayId p s), run_ite]
    split
    case isTrue hid =>
      change ((s.withId p).modify p change).desc q = _
      rw [modify_desc_apply]
      split_ifs with hqp
      · subst hqp
        rw [idOf_of_assigned hq] at hid
        rw [hkeep, h List.mem_cons_self hid]
      · exact hkeep
    case isFalse =>
      rw [ih (by rwa [hkeep]) fun hl hid => ?_, hkeep]
      rw [hkeep] at hid ⊢
      exact h (List.mem_cons_of_mem p hl) hid

namespace PickleJob

/-- The condition under which an operation leaves the arrays of `job` as they are: it links one of
them only to where it is linked already, and changes one of them only to what it is already. -/
def Undisturbed (job : PickleJob) (w : Client) : ClientOp → Prop
  | .createJob c =>
    (∀ p i, p ∈ job.arrays → c.selectorDescriptor = some p →
      c.graph.indexOf c.direction = some i → w.store.LinkedTo p i) ∧
    ∀ n v, n ∈ job.arrays → c.graph.neighborsOf c.direction = some n →
      c.consumerDescriptor = some v → w.store.LinkedTo n v
  | .changeAccessType job' id t => ∀ p ∈ job.arrays, p ∈ job'.arrays → (w.store.desc p).arrayId = id →
    (w.store.desc p).accessType = t
  | .changeAddressingMode job' id m => ∀ p ∈ job.arrays, p ∈ job'.arrays →
    (w.store.desc p).arrayId = id → (w.store.desc p).addressingMode = m
  | _ => True

variable {kernelName : List UInt8} {added : List Ptr} {job : PickleJob} {w w' : Client}
  {bytes : List UInt8}

theorem Undisturbed.change {c : FieldChange} {job' : PickleJob} {id : UInt64}
    (hu : job.Undisturbed w (c.op job' id)) {p : ℕ} (hp : p ∈ job.arrays) (hp' : p ∈ job'.arrays)
    (hid : (w.store.desc p).arrayId = id) : c.change (w.store.desc p) = w.store.desc p := by
  cases c with
  | accessType t =>
    rw [FieldChange.change, PickleArrayDescriptor.setAccessType, ← hu p hp hp' hid]
  | addressingMode m =>
    rw [FieldChange.change, PickleArrayDescriptor.setAddressingMode, ← hu p hp hp' hid]

theorem step_undisturbed {op : ClientOp} {p : ℕ} (hp : p ∈ job.arrays) (hlt : p < w.store.next)
    (hid : (w.store.desc p).arrayId ≠ unassignedID) (hu : job.Undisturbed w op)
    (h : Client.step w op = some w') : w'.store.desc p = w.store.desc p := by
  cases Client.step_cases h with
  | graph g => exact g.constructedStore_desc_of_lt _ hlt
  | container hk hn hdesc => exact hdesc p hlt
  | call hc hrun =>
    obtain ⟨a, hi, hn, hsel, hcon, rfl⟩ := GraphCall.create_cases hrun
    refine GraphArrays.finalStore_desc hid ⟨fun hs => ?_, fun he v hv => ?_⟩
    · exact hu.1 p a.index hp (hsel.symm.trans hs) hi
    · exact hu.2 p v hp (he ▸ hn) (hcon.symm.trans hv)
  | @change c job' id t hrun =>
    have hdesc := changeByArrayId_desc c.change id job'.arrays hid fun hmem he => hu.change hp hmem he
    rwa [← c.call_eq, hrun] at hdesc

theorem run_getJobDescriptor_congr {s t : Store}
    (hid : ∀ p ∈ job.arrays, (s.desc p).arrayId ≠ unassignedID)
    (h : ∀ p ∈ job.arrays, t.desc p = s.desc p) :
    (run job.getJobDescriptor t).1 = (run job.getJobDescriptor s).1 := by
  have hid' : ∀ p ∈ job.arrays, (t.desc p).arrayId ≠ unassignedID := by
    intro p hp
    rw [h p hp]
    exact hid p hp
  have hrec : job.records? t = job.records? s :=
    mapM_congr_option fun p hp => by rw [Store.record?, Store.record?, h p hp]
  rw [run_getJobDescriptor_of_assigned hid, run_getJobDescriptor_of_assigned hid', hrec]

theorem getJobDescriptor_undisturbed {ops : List ClientOp} {t : Store}
    (hb : Built kernelName added job w.store) (ha : job.Assigned)
    (hget : run job.getJobDescriptor w.store = (.ok bytes, t))
    (h : Runs.run Client.step w ops = some w') (hu : EachStep Client.step job.Undisturbed w ops) :
    (run job.getJobDescriptor w'.store).1 = .ok bytes := by
  have hid := hb.wellBuilt.named ha
  have hinv : ∀ p ∈ job.arrays, p < w'.store.next ∧ w'.store.desc p = w.store.desc p := by
    refine hu.run_invariant (P := fun u => ∀ p ∈ job.arrays,
      p < u.store.next ∧ u.store.desc p = w.store.desc p) ?_ ?_ h
    · intro u op v hu hop hstep p hp
      obtain ⟨hlt, hdesc⟩ := hu p hp
      have hnext := (Evolves.keeps (Client.step_cases hstep).evolves).next_le
      refine ⟨hlt.trans_le hnext, ?_⟩
      rw [step_undisturbed hp hlt (by rw [hdesc]; exact hid p hp) hop hstep, hdesc]
    · exact fun p hp => ⟨hb.wellBuilt.live p hp, rfl⟩
  rw [run_getJobDescriptor_congr hid fun p hp => (hinv p hp).2, hget]

def linkedClient : Client := ⟨(linkedStore.alloc).withId 2, [], [], []⟩

def sharingJob : PickleJob := ((new [8]).withArray 1 1).withArray 3 2

theorem run_linkedJob_linkedClient : run linkedJob.getJobDescriptor linkedClient.store =
    (.ok (serialize [7] linkedRecords), linkedClient.store) := by
  have hrecords : linkedJob.records? linkedClient.store = some linkedRecords := by decide
  rw [run_getJobDescriptor_of_assigned (by decide), hrecords]
  rfl

theorem built_linkedJob_linkedClient : Built [7] [0, 1] linkedJob linkedClient.store :=
  built_linkedJob.later ((Relation.ReflTransGen.single (.newDescriptor _)).tail (.getArrayId _ 2))

theorem getJobDescriptor_undisturbed_sharingJob :
    ∃ w, Runs.run Client.step linkedClient [.changeAccessType sharingJob 3 .ranged,
        .changeAddressingMode sharingJob 1 .pointer] = some w ∧
      (run linkedJob.getJobDescriptor w.store).1 = .ok (serialize [7] linkedRecords) := by
  have hrun : Runs.run Client.step linkedClient [.changeAccessType sharingJob 3 .ranged,
      .changeAddressingMode sharingJob 1 .pointer] = some _ := rfl
  refine ⟨_, hrun, getJobDescriptor_undisturbed (w := linkedClient) built_linkedJob_linkedClient rfl
    run_linkedJob_linkedClient hrun ?_⟩
  have hfirst : linkedJob.Undisturbed linkedClient (.changeAccessType sharingJob 3 .ranged) := by
    unfold Undisturbed
    decide
  refine fun w₁ h₁ => ⟨hfirst, fun w₂ h₂ => ⟨?_, trivial⟩⟩
  obtain rfl := Option.some.inj h₁
  unfold Undisturbed
  decide

def containerJob : PickleJob := (new [7]).withArray 3 4

def withContainerJob (w : Client) : Client := { w with store := w.store.withId 4 }

def selectingCall : GraphCall :=
  ⟨.incoming, Client.chainGraph, [107], some (.pvector Client.chainContainer), none⟩

def containerBytes : List UInt8 := serialize [7] [⟨0, noDestination, 0, 0, 0, 0, 0⟩]

def spoiled (w : Client) : Bool :=
  decide (w.store.idOf 4 = 3) && decide (4 < w.store.next) &&
    decide ((run containerJob.getJobDescriptor (withContainerJob w).store).1.toOption =
      some containerBytes) &&
    ((withContainerJob w).step (.createJob selectingCall)).any fun w' =>
      (run containerJob.getJobDescriptor w'.store).1.toOption.isNone

theorem not_getJobDescriptor_undisturbed :
    (¬ ∀ (kernelName : List UInt8) (added : List Ptr) (job copy : PickleJob) (w w' : Client)
      (id : UInt64) (a : AccessType) (bytes : List UInt8), Built kernelName added job w.store →
      (run job.getJobDescriptor w.store).1 = .ok bytes → copy = job →
      Client.step w (.changeAccessType copy id a) = some w' →
      (run job.getJobDescriptor w'.store).1 = .ok bytes) ∧
    ¬ ∀ (kernelName : List UInt8) (added : List Ptr) (job : PickleJob) (w w' : Client) (c : GraphCall)
      (bytes : List UInt8), Built kernelName added job w.store →
      (run job.getJobDescriptor w.store).1 = .ok bytes →
      Client.step w (.createJob c) = some w' →
      (run job.getJobDescriptor w'.store).1 = .ok bytes := by
  constructor
  · intro hall
    have hget := congrArg Prod.fst run_linkedJob_linkedClient
    have hbytes := hall [7] [0, 1] linkedJob linkedJob linkedClient _ 1 .ranged _
      built_linkedJob_linkedClient hget rfl rfl
    have hsame := congrArg Except.toOption hbytes
    revert hsame
    decide +kernel
  · intro hall
    have heval : (Runs.run Client.step Client.init Client.chainOps).map spoiled = some true := by
      decide +kernel
    obtain ⟨w, hw, hspoiled⟩ := Option.map_eq_some_iff.mp heval
    simp only [spoiled, Bool.and_eq_true, decide_eq_true_eq, Option.any_eq_true] at hspoiled
    obtain ⟨⟨⟨hid, hlt⟩, hget⟩, w', hstep, hfault⟩ := hspoiled
    have hb : Built [7] [4] containerJob (withContainerJob w).store := by
      have hnew : Built [7] [] (PickleJob.new [7]) w.store := .new (Client.run_valid hw).1
      have hadd := hnew.withArray hlt
      rwa [hid] at hadd
    rcases hrun : (run containerJob.getJobDescriptor (withContainerJob w).store).1 with e | bytes
    · simp [hrun, Except.toOption] at hget
    · have hbytes := hall _ _ containerJob (withContainerJob w) w' selectingCall bytes hb hrun hstep
      simp [hbytes, Except.toOption] at hfault

end PickleJob

end PickleDevice
