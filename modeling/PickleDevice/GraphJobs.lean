import PickleDevice.Wrapper

namespace PickleDevice

open StateEffect Store

namespace CSRGraph

theorem describedStore_keepsLinks (g : CSRGraph) (s : Store) : s.KeepsLinks (g.describedStore s) :=
  (((keepsLinks_allocDescribed s _ _ _).trans (keepsLinks_allocDescribed _ _ _ _)).trans
    (keepsLinks_allocDescribed _ _ _ _)).trans (keepsLinks_allocDescribed _ _ _ _)

theorem constructedStore_evolves (g : CSRGraph) (s : Store) : Evolves s (g.constructedStore s) :=
  ((g.describedStore_keepsLinks s).evolves.trans (linked_evolves _ _ _)).trans (linked_evolves _ _ _)

end CSRGraph

section Follows

variable {α : Type} [ArrayContainer α]

theorem follows_addSelector (index : Option Ptr) (selector : Option α) (job : PickleJob) :
    Follows Evolves (addSelector (indexedBy index) selector job) := by
  cases selector with
  | none => exact follows_pure (fun _ => .refl) job
  | some x =>
    exact follows_bind Relation.ReflTransGen.trans (job.follows_addArrayDescriptor _) fun _ =>
      follows_bind Relation.ReflTransGen.trans (follows_indexedBy _ _) fun _ =>
        follows_pure (fun _ => .refl) _

theorem follows_addConsumer (neighbors : Option Ptr) (consumer : Option PVector) (job : PickleJob) :
    Follows Evolves (addConsumer neighbors consumer job) := by
  cases consumer with
  | none => exact follows_pure (fun _ => .refl) job
  | some v =>
    exact follows_bind Relation.ReflTransGen.trans (job.follows_addArrayDescriptor _) fun _ =>
      follows_bind Relation.ReflTransGen.trans (follows_indexedBy _ _) fun _ =>
        follows_pure (fun _ => .refl) _

theorem follows_createGraphJob (index neighbors : Option Ptr) (kernelName : List UInt8)
    (selector : Option α) (consumer : Option PVector) :
    Follows Evolves (createGraphJob index neighbors (indexedBy index) kernelName selector consumer) :=
  follows_bind Relation.ReflTransGen.trans (PickleJob.follows_addArrayDescriptor _ _) fun _ =>
    follows_bind Relation.ReflTransGen.trans (PickleJob.follows_addArrayDescriptor _ _) fun _ =>
      follows_bind Relation.ReflTransGen.trans (follows_addSelector _ _ _) fun _ =>
        follows_addConsumer _ _ _

theorem createGraphJob_ok {index neighbors : Option Ptr} {kernelName : List UInt8}
    {selector : Option α} {consumer : Option PVector} {s t : Store} {job : PickleJob}
    (h : run (createGraphJob index neighbors (indexedBy index) kernelName selector consumer) s =
      (.ok job, t)) :
    (∃ i, index = some i) ∧ (∃ n, neighbors = some n) ∧
      (∀ x ∈ selector, ∃ p, ArrayContainer.getArrayDescriptor x = some p) ∧
      ∀ v ∈ consumer, ∃ p, v.getArrayDescriptor = some p := by
  obtain ⟨job₁, s₁, hindex, h⟩ := run_bind_eq_ok h
  obtain ⟨job₂, s₂, hneighbors, h⟩ := run_bind_eq_ok h
  obtain ⟨job₃, s₃, hsel, hcon⟩ := run_bind_eq_ok h
  refine ⟨PickleJob.addArrayDescriptor_ok hindex, PickleJob.addArrayDescriptor_ok hneighbors, ?_, ?_⟩
  · rintro x rfl
    obtain ⟨job₄, s₄, hadd, -⟩ := run_bind_eq_ok hsel
    exact PickleJob.addArrayDescriptor_ok hadd
  · rintro v rfl
    obtain ⟨job₄, s₄, hadd, -⟩ := run_bind_eq_ok hcon
    exact PickleJob.addArrayDescriptor_ok hadd

end Follows

structure GraphArrays where
  index : ℕ
  neighbors : ℕ
  selector : Option ℕ
  consumer : Option ℕ

namespace GraphArrays

def arrays (a : GraphArrays) : List ℕ :=
  [a.index, a.neighbors] ++ a.selector.toList ++ a.consumer.toList

def links (a : GraphArrays) : LinkLog :=
  a.consumer.toList.map (a.neighbors, ·) ++ a.selector.toList.map (·, a.index)

def Live (a : GraphArrays) (s : Store) : Prop := ∀ p ∈ a.arrays, p < s.next

def addedStore (a : GraphArrays) (s : Store) : Store := (s.withId a.index).withId a.neighbors

def selectedStore (a : GraphArrays) (s : Store) : Store :=
  a.selector.elim (a.addedStore s) fun p => ((a.addedStore s).withId p).linked p a.index

def finalStore (a : GraphArrays) (s : Store) : Store :=
  a.consumer.elim (a.selectedStore s) fun c => ((a.selectedStore s).withId c).linked a.neighbors c

variable {a : GraphArrays} {s : Store} {log : LinkLog}

theorem live_of (hi : a.index < s.next) (hn : a.neighbors < s.next)
    (h : ∀ p ∈ a.selector.toList ++ a.consumer.toList, p < s.next) : a.Live s := by
  intro p hp
  simp only [arrays, List.cons_append, List.nil_append, List.mem_cons] at hp
  rcases hp with rfl | rfl | hp
  · exact hi
  · exact hn
  · exact h p hp

theorem addedStore_keepsLinks (a : GraphArrays) (s : Store) : s.KeepsLinks (a.addedStore s) :=
  (keepsLinks_withId s a.index).trans (keepsLinks_withId _ a.neighbors)

theorem selectedStore_evolves (a : GraphArrays) (s : Store) :
    Evolves (a.addedStore s) (a.selectedStore s) := by
  unfold selectedStore
  cases a.selector with
  | none => exact .refl
  | some p => exact (keepsLinks_withId _ p).evolves.trans (linked_evolves _ p a.index)

theorem finalStore_evolves_selected (a : GraphArrays) (s : Store) :
    Evolves (a.selectedStore s) (a.finalStore s) := by
  unfold finalStore
  cases a.consumer with
  | none => exact .refl
  | some c => exact (keepsLinks_withId _ c).evolves.trans (linked_evolves _ a.neighbors c)

theorem selectedStore_next (a : GraphArrays) (s : Store) : (a.selectedStore s).next = s.next := by
  unfold selectedStore addedStore
  cases a.selector <;> simp

theorem finalStore_next (a : GraphArrays) (s : Store) : (a.finalStore s).next = s.next := by
  unfold finalStore
  cases a.consumer with
  | none => exact selectedStore_next a s
  | some c => simp [selectedStore_next]

theorem finalStore_nextID_le (a : GraphArrays) (s : Store) :
    (a.finalStore s).nextID ≤ s.nextID + 6 := by
  have hlink : ∀ (t : Store) (p q r : ℕ), ((t.withId r).linked p q).nextID ≤ t.nextID + 2 := by
    intro t p q r
    rw [linked_nextID]
    have h := (t.withId r).withId_nextID_le q
    have h' := t.withId_nextID_le r
    omega
  have hadd : (a.addedStore s).nextID ≤ s.nextID + 2 := by
    have h := (s.withId a.index).withId_nextID_le a.neighbors
    have h' := s.withId_nextID_le a.index
    apply h.trans
    omega
  have hsel : (a.selectedStore s).nextID ≤ s.nextID + 4 := by
    unfold selectedStore
    cases a.selector with
    | none =>
      apply hadd.trans
      omega
    | some p =>
      apply (hlink _ _ _ _).trans
      omega
  unfold finalStore
  cases a.consumer with
  | none =>
    apply hsel.trans
    omega
  | some c =>
    apply (hlink _ _ _ _).trans
    omega

theorem selectedStore_represents (h : s.Represents log) (hs : s.IdsValid) (hl : a.Live s)
    (hw : (a.selectedStore s).nextID ≤ 2 ^ 64) :
    (a.selectedStore s).Represents (a.selector.toList.map (·, a.index) ++ log) := by
  have hadd := h.keeps (addedStore_keepsLinks a s)
  have hadds := Evolves.idsValid (addedStore_keepsLinks a s).evolves hs
  unfold selectedStore at hw ⊢
  cases hsel : a.selector with
  | none => exact hadd
  | some p =>
    have hp : p < s.next := hl p (by simp [arrays, hsel])
    have hi : a.index < s.next := hl a.index (by simp [arrays])
    rw [hsel] at hw
    have hk := keepsLinks_withId (a.addedStore s) p
    exact (hadd.keeps hk).link (Evolves.idsValid hk.evolves hadds) (by simpa [addedStore])
      (by simpa [addedStore]) hw

theorem finalStore_represents (h : s.Represents log) (hs : s.IdsValid) (hl : a.Live s)
    (hw : (a.finalStore s).nextID ≤ 2 ^ 64) : (a.finalStore s).Represents (a.links ++ log) := by
  have hle := (Evolves.keeps (finalStore_evolves_selected a s)).nextID_le
  have hsel := selectedStore_represents h hs hl (hle.trans hw)
  have hsels := Evolves.idsValid
    ((addedStore_keepsLinks a s).evolves.trans (selectedStore_evolves a s)) hs
  rw [links, List.append_assoc]
  unfold finalStore at hw ⊢
  cases hcon : a.consumer with
  | none => exact hsel
  | some c =>
    have hc : c < s.next := hl c (by simp [arrays, hcon])
    have hn : a.neighbors < s.next := hl a.neighbors (by simp [arrays])
    rw [hcon] at hw
    have hk := keepsLinks_withId (a.selectedStore s) c
    exact (hsel.keeps hk).link (Evolves.idsValid hk.evolves hsels) (by simpa [selectedStore_next])
      (by simpa [selectedStore_next]) hw

section Run

variable {α : Type} [ArrayContainer α]

theorem run_addSelector (a : GraphArrays) (s : Store) (job : PickleJob) {selector : Option α}
    (hsel : selector.map ArrayContainer.getArrayDescriptor = a.selector.map some) :
    ∃ job', run (addSelector (indexedBy (some a.index)) selector job) (a.addedStore s) =
        (.ok job', a.selectedStore s) ∧
      ∀ kernelName added, a.Live s → PickleJob.Built kernelName added job (a.addedStore s) →
        PickleJob.Built kernelName (added ++ a.selector.toList) job' (a.selectedStore s) := by
  unfold selectedStore
  cases hp : a.selector with
  | none =>
    obtain rfl : selector = none := by simpa [hp] using hsel
    exact ⟨job, rfl, fun _ added _ hb => by simpa using hb⟩
  | some p =>
    obtain ⟨x, rfl, hx⟩ : ∃ x, selector = some x ∧ ArrayContainer.getArrayDescriptor x = some p := by
      simpa [hp] using hsel
    refine ⟨job.withArray ((a.addedStore s).idOf p) p, ?_, fun _ added hl hb => ?_⟩
    · rw [addSelector, hx, run_bind_ok (PickleJob.run_addArrayDescriptor _ _ _),
        run_bind_ok (run_indexedBy _ _ _)]
      rfl
    · have hlive : p < (a.addedStore s).next := by
        simpa [addedStore] using hl p (by simp [arrays, hp])
      exact (hb.withArray hlive).later (linked_evolves _ p a.index)

theorem run_addConsumer (a : GraphArrays) (s : Store) (job : PickleJob) {consumer : Option PVector}
    (hcon : consumer.map PVector.getArrayDescriptor = a.consumer.map some) :
    ∃ job', run (addConsumer (some a.neighbors) consumer job) (a.selectedStore s) =
        (.ok job', a.finalStore s) ∧
      ∀ kernelName added, a.Live s → PickleJob.Built kernelName added job (a.selectedStore s) →
        PickleJob.Built kernelName (added ++ a.consumer.toList) job' (a.finalStore s) := by
  unfold finalStore
  cases hc : a.consumer with
  | none =>
    obtain rfl : consumer = none := by simpa [hc] using hcon
    exact ⟨job, rfl, fun _ added _ hb => by simpa using hb⟩
  | some c =>
    obtain ⟨v, rfl, hv⟩ : ∃ v, consumer = some v ∧ v.arrayDescriptor = some c := by
      simpa [hc, PVector.getArrayDescriptor] using hcon
    refine ⟨job.withArray ((a.selectedStore s).idOf c) c, ?_, fun _ added hl hb => ?_⟩
    · simp only [addConsumer, ArrayContainer.getArrayDescriptor, IndexedContainer.indexedBy,
        PVector.getArrayDescriptor, PVector.indexedBy, hv]
      rw [run_bind_ok (PickleJob.run_addArrayDescriptor _ _ _), run_bind_ok (run_indexedBy _ _ _)]
      rfl
    · have hlive : c < (a.selectedStore s).next := by
        simpa [selectedStore_next] using hl c (by simp [arrays, hc])
      exact (hb.withArray hlive).later (linked_evolves _ a.neighbors c)

theorem run_createGraphJob (a : GraphArrays) (s : Store) (kernelName : List UInt8)
    {selector : Option α} {consumer : Option PVector}
    (hsel : selector.map ArrayContainer.getArrayDescriptor = a.selector.map some)
    (hcon : consumer.map PVector.getArrayDescriptor = a.consumer.map some) :
    ∃ job, run (createGraphJob (some a.index) (some a.neighbors) (indexedBy (some a.index)) kernelName
        selector consumer) s = (.ok job, a.finalStore s) ∧
      (Reachable s → a.Live s → PickleJob.Built kernelName a.arrays job (a.finalStore s)) := by
  obtain ⟨job₁, hrun₁, hb₁⟩ := run_addSelector a s
    (((PickleJob.new kernelName).withArray (s.idOf a.index) a.index).withArray
      ((s.withId a.index).idOf a.neighbors) a.neighbors) hsel
  obtain ⟨job₂, hrun₂, hb₂⟩ := run_addConsumer a s job₁ hcon
  refine ⟨job₂, ?_, fun hs hl => hb₂ _ _ hl (hb₁ _ _ hl ?_)⟩
  · rw [createGraphJob, run_bind_ok (PickleJob.run_addArrayDescriptor _ _ _),
      run_bind_ok (PickleJob.run_addArrayDescriptor _ _ _)]
    exact (run_bind_ok hrun₁).trans hrun₂
  · have hi : a.index < s.next := hl a.index (by simp [arrays])
    have hn : a.neighbors < s.next := hl a.neighbors (by simp [arrays])
    exact ((PickleJob.Built.new hs).withArray hi).withArray (by simpa)

end Run

end GraphArrays

end PickleDevice
