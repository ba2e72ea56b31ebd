import PickleDevice.ContainerMoves
import PickleDevice.FieldChanges
import Mathlib.Data.Finset.Card

namespace PickleDevice

open StateEffect Store Runs Ownership

inductive LinkFunction
  | indexedBy (v : PVector)
  | outIndexIndexedBy (g : CSRGraph)
  | inIndexIndexedBy (g : CSRGraph)
  | outNeighborsIndexedBy (g : CSRGraph)
  | inNeighborsIndexedBy (g : CSRGraph)

namespace LinkFunction

def call (f : LinkFunction) (descriptor : Option Ptr) : Action Unit :=
  match f with
  | indexedBy v => v.indexedBy descriptor
  | outIndexIndexedBy g => g.outIndexIndexedBy descriptor
  | inIndexIndexedBy g => g.inIndexIndexedBy descriptor
  | outNeighborsIndexedBy g => g.outNeighborsIndexedBy descriptor
  | inNeighborsIndexedBy g => g.inNeighborsIndexedBy descriptor

def self : LinkFunction → Option Ptr
  | indexedBy v => v.arrayDescriptor
  | outIndexIndexedBy g => g.outIndexArrayDescriptor
  | inIndexIndexedBy g => g.inIndexArrayDescriptor
  | outNeighborsIndexedBy g => g.outNeighborsArrayDescriptor
  | inNeighborsIndexedBy g => g.inNeighborsArrayDescriptor

theorem call_eq (f : LinkFunction) (descriptor : Option Ptr) :
    f.call descriptor = PickleDevice.indexedBy f.self descriptor := by
  cases f <;> rfl

end LinkFunction

def PickleJob.Live (job : PickleJob) (s : Store) : Prop := ∀ p ∈ job.arrays, p < s.next

def PickleJob.Seeded (job : PickleJob) : Prop := job.arrayRenameMap noDestination = some noDestination

inductive IdCall
  | newDescriptor
  | construct (c : ContainerConstructor)
  | newJob (x : ℕ) (kernelName : List UInt8)
  | getArrayId (p : ℕ)
  | addArrayDescriptor (x : ℕ) (array : Option ℕ)
  | link (f : LinkFunction) (descriptor : Option ℕ)
  | change (x : ℕ) (c : FieldChange) (arrayId : UInt64)
  | setFields (p : ℕ) (fields : PickleArrayDescriptor)

/-- Every field but the id is public. -/
def PickleArrayDescriptor.setFields (d fields : PickleArrayDescriptor) : PickleArrayDescriptor :=
  { fields with arrayId := d.arrayId }

/-- The constructors of a graph link its arrays, which asks for the ids of the neighbors arrays. -/
def ContainerConstructor.asked (s : Store) : ContainerConstructor → List ℕ
  | graphUndirected .. => [s.next + 2, s.next + 3]
  | graphDirected .. => [s.next + 2, s.next + 3]
  | _ => []

def searched (arrayId : UInt64) : List ℕ → Store → List ℕ
  | [], _ => []
  | p :: l, s => p :: if s.idOf p = arrayId then [] else searched arrayId l (s.withId p)

namespace IdCall

def arguments : IdCall → List ℕ
  | getArrayId p => [p]
  | addArrayDescriptor _ array => array.toList
  | link f descriptor => f.self.toList ++ descriptor.toList
  | setFields p _ => [p]
  | _ => []

def perform (jobs : Objects PickleJob) : IdCall → Action (Objects PickleJob)
  | newDescriptor => do
    let _ ← PickleDevice.newDescriptor
    return jobs
  | construct c => do
    let _ ← c.construct
    return jobs
  | newJob x kernelName => return put jobs x (.new kernelName)
  | getArrayId p => do
    let _ ← PickleDevice.getArrayId p
    return jobs
  | addArrayDescriptor x array =>
    match jobs x with
    | some job => do return put jobs x (← job.addArrayDescriptor array)
    | none => throw .nullDereference
  | link f descriptor => do
    f.call descriptor
    return jobs
  | change x c arrayId =>
    match jobs x with
    | some job => do
      c.call job arrayId
      return jobs
    | none => throw .nullDereference
  | setFields p fields => do
    modify (·.modify p (·.setFields fields))
    return jobs

def asked (jobs : Objects PickleJob) (s : Store) : IdCall → List ℕ
  | construct c => c.asked s
  | getArrayId p => [p]
  | addArrayDescriptor _ array => array.toList
  | link f _ => f.self.toList
  | change x _ arrayId => (jobs x).elim [] fun job => searched arrayId job.arrays s
  | _ => []

end IdCall

structure IdState where
  store : Store
  jobs : Objects PickleJob
  named : Finset ℕ

namespace IdState

def init : IdState := ⟨.init, fun _ => none, ∅⟩

def step (w : IdState) (call : IdCall) : Option IdState :=
  if ∀ p ∈ call.arguments, p < w.store.next then
    match run (call.perform w.jobs) w.store with
    | (.ok jobs, s) => some ⟨s, jobs, w.named ∪ (call.asked w.jobs w.store).toFinset⟩
    | _ => none
  else none

end IdState

namespace Store

inductive Asks (s : Store) : List ℕ → Store → Prop
  | refl : Asks s [] s
  | newDescriptor {l : List ℕ} {t : Store} (h : Asks s l t) : Asks s l t.alloc
  | getArrayId {l : List ℕ} {t : Store} {p : ℕ} (h : Asks s l t) (hp : p < t.next) :
      Asks s (l ++ [p]) (t.withId p)
  | write {l : List ℕ} {t : Store} {p : ℕ} {f : PickleArrayDescriptor → PickleArrayDescriptor}
      (h : Asks s l t) (hf : ∀ d, (f d).arrayId = d.arrayId) : Asks s l (t.modify p f)

variable {s t u : Store} {l l' : List ℕ} {p q : ℕ}

theorem Asks.trans (h : s.Asks l t) (h' : t.Asks l' u) : s.Asks (l ++ l') u := by
  induction h' with
  | refl => rwa [List.append_nil]
  | newDescriptor _ ih => exact .newDescriptor ih
  | getArrayId _ hp ih =>
    rw [← List.append_assoc]
    exact .getArrayId ih hp
  | write _ hf ih => exact .write ih hf

theorem Asks.evolves (h : s.Asks l t) : Evolves s t := by
  induction h with
  | refl => exact .refl
  | newDescriptor _ ih => exact ih.tail (.newDescriptor _)
  | getArrayId _ _ ih => exact ih.tail (.getArrayId _ _)
  | write _ hf ih => exact ih.tail (.write _ _ _ hf)

theorem Asks.allocDescribed {start stop size : UInt64} (h : s.Asks l t) :
    s.Asks l (t.allocDescribed start stop size) := .write (.newDescriptor h) fun _ => rfl

theorem Asks.linked (h : s.Asks l t) (hq : q < t.next) : s.Asks (l ++ [q]) (t.linked p q) :=
  .write (.getArrayId h hq) fun _ => rfl

theorem asks_constructedStore (g : CSRGraph) (s : Store) :
    s.Asks [s.next + 2, s.next + 3] (g.constructedStore s) := by
  have hd : s.Asks [] (g.describedStore s) :=
    .allocDescribed (.allocDescribed (.allocDescribed (.allocDescribed .refl)))
  have hn : (g.describedStore s).next = s.next + 4 := rfl
  have hin : s.Asks [s.next + 2] ((g.describedStore s).linked s.next (s.next + 2)) :=
    hd.linked (by omega)
  exact hin.linked (by rw [linked_next]; omega)

structure NamesExactly (s : Store) (named : Finset ℕ) : Prop where
  live : ∀ p ∈ named, p < s.next
  count : s.nextID = named.card + 1
  assigned : ∀ p, (s.desc p).arrayId ≠ unassignedID ↔ p ∈ named

variable {named : Finset ℕ}

theorem NamesExactly.alloc (h : s.NamesExactly named) : s.alloc.NamesExactly named := by
  constructor
  · intro p hp
    exact (h.live p hp).trans (Nat.lt_succ_self _)
  · exact h.count
  · intro p
    by_cases hp : p = s.next
    · subst hp
      rw [alloc_desc]
      constructor
      · intro hid
        exact absurd rfl hid
      · intro hmem
        exact absurd (h.live _ hmem) (Nat.lt_irrefl _)
    · rw [alloc_desc_of_ne hp]
      exact h.assigned p

theorem NamesExactly.write {f : PickleArrayDescriptor → PickleArrayDescriptor}
    (h : s.NamesExactly named) (hf : ∀ d, (f d).arrayId = d.arrayId) :
    (s.modify p f).NamesExactly named := by
  refine ⟨h.live, h.count, ?_⟩
  intro q
  rw [modify_arrayId hf]
  exact h.assigned q

theorem NamesExactly.withId (h : s.NamesExactly named) (hp : p < s.next)
    (hc : (insert p named).card ≤ 2 ^ 64 - 2) : (s.withId p).NamesExactly (insert p named) := by
  by_cases hmem : p ∈ named
  · rw [withId_of_assigned ((h.assigned p).mpr hmem), Finset.insert_eq_of_mem hmem]
    exact h
  · have hun : (s.desc p).arrayId = unassignedID := by
      by_contra hid
      exact hmem ((h.assigned p).mp hid)
    have hn : (s.withId p).nextID = s.nextID + 1 := by simp [Store.withId, hun]
    rw [Finset.card_insert_of_notMem hmem] at hc
    have hcount := h.count
    constructor
    · intro q hq
      rw [withId_next]
      rcases Finset.mem_insert.mp hq with rfl | hq
      · exact hp
      · exact h.live q hq
    · rw [hn, hcount, Finset.card_insert_of_notMem hmem]
    · intro q
      by_cases hqp : q = p
      · subst hqp
        rw [withId_arrayId, idOf, if_pos hun]
        -- The counter has not come back to the value that stands for no id.
        have hne : UInt64.ofNat s.nextID ≠ unassignedID := by
          intro he
          have hnat := congrArg UInt64.toNat he
          rw [UInt64.toNat_ofNat', Nat.mod_eq_of_lt (by omega)] at hnat
          have hzero : unassignedID.toNat = 0 := rfl
          omega
        exact ⟨fun _ => Finset.mem_insert_self _ _, fun _ => hne⟩
      · rw [withId_desc_of_ne hqp, h.assigned q, Finset.mem_insert, or_iff_right hqp]

theorem NamesExactly.ne_noDestination (h : s.NamesExactly named) (hs : s.IdsValid)
    (hc : named.card ≤ 2 ^ 64 - 2) (p : ℕ) : (s.desc p).arrayId ≠ noDestination := by
  apply arrayId_ne_noDestination p hs
  rw [h.count]
  omega

theorem Asks.namesExactly (h : s.Asks l t) (hs : s.NamesExactly named)
    (hc : (named ∪ l.toFinset).card ≤ 2 ^ 64 - 2) : t.NamesExactly (named ∪ l.toFinset) := by
  induction h with
  | refl => rwa [List.toFinset_nil, Finset.union_empty]
  | newDescriptor _ ih => exact (ih hc).alloc
  | @getArrayId l t p _ hp ih =>
    have hnamed : named ∪ (l ++ [p]).toFinset = insert p (named ∪ l.toFinset) := by
      rw [List.toFinset_append, ← Finset.union_assoc, Finset.union_comm, List.toFinset_cons,
        List.toFinset_nil, insert_empty_eq, Finset.singleton_union]
    rw [hnamed] at hc ⊢
    have hle := Finset.card_le_card (Finset.subset_insert p (named ∪ l.toFinset))
    exact (ih (hle.trans hc)).withId hp hc
  | write _ hf ih => exact (ih hc).write hf

end Store

theorem asks_changeByArrayId {change : PickleArrayDescriptor → PickleArrayDescriptor}
    (hid : ∀ d, (change d).arrayId = d.arrayId) (arrayId : UInt64) {l : List ℕ} {s : Store}
    (hl : ∀ p ∈ l, p < s.next) :
    s.Asks (searched arrayId l s) (run (PickleJob.changeByArrayId change arrayId l) s).2 := by
  induction l generalizing s with
  | nil => exact .refl
  | cons p l ih =>
    have hp : s.Asks [p] (s.withId p) := .getArrayId .refl (hl p List.mem_cons_self)
    rw [PickleJob.changeByArrayId, run_bind_ok (run_getArrayId p s), run_ite, searched]
    split_ifs with hfound
    · exact hp.write hid
    · apply hp.trans (ih _)
      intro q hq
      rw [withId_next]
      exact hl q (List.mem_cons_of_mem p hq)

theorem indexedBy_ok {self descriptor : Option Ptr} {s t : Store}
    (h : run (indexedBy self descriptor) s = (.ok (), t)) :
    ∃ q p, self = some q ∧ descriptor = some p ∧ t = s.linked p q := by
  cases self with
  | none => cases h
  | some q =>
    cases descriptor with
    | none => cases h
    | some p =>
      rw [run_indexedBy] at h
      cases h
      exact ⟨q, p, rfl, rfl, rfl⟩

theorem ContainerConstructor.asks_construct {c : ContainerConstructor} {s t : Store}
    {v : LiveContainer} (h : run c.construct s = (.ok v, t)) : s.Asks (c.asked s) t := by
  cases c with
  | pvectorDefault T =>
    cases h
    exact .newDescriptor .refl
  | pvectorSized T n new =>
    cases h
    exact .allocDescribed .refl
  | pvectorFilled T n new =>
    cases h
    exact .allocDescribed .refl
  | pvectorCopied T b e new =>
    cases h
    exact .allocDescribed .refl
  | graphDefault T =>
    cases h
    exact .refl
  | graphUndirected mem T n index neighs =>
    obtain ⟨rfl, rfl⟩ := constructed_graph h
    exact asks_constructedStore _ s
  | graphDirected mem T n outIndex outNeighs inIndex inNeighs =>
    obtain ⟨rfl, rfl⟩ := constructed_graph h
    exact asks_constructedStore _ s
  | queueSized T n new =>
    cases h
    exact .allocDescribed .refl

namespace IdCall

variable {jobs jobs' : Objects PickleJob} {s t : Store} {call : IdCall}

inductive Jobs (jobs : Objects PickleJob) (t : Store) : Objects PickleJob → Prop
  | same : Jobs jobs t jobs
  | new (x : ℕ) (kernelName : List UInt8) : Jobs jobs t (put jobs x (.new kernelName))
  | added {x p : ℕ} {job : PickleJob} (hx : jobs x = some job) (hp : p < t.next) :
      Jobs jobs t (put jobs x (job.withArray (t.desc p).arrayId p))

theorem Jobs.each {P Q : PickleJob → Prop} (h : Jobs jobs t jobs') (hj : Each P jobs)
    (hkeep : ∀ job, P job → Q job) (hnew : ∀ kernelName, Q (.new kernelName))
    (hadd : ∀ job p, P job → p < t.next → Q (job.withArray (t.desc p).arrayId p)) :
    Each Q jobs' := by
  cases h with
  | same => exact hj.imp hkeep
  | new x kernelName => exact (hj.imp hkeep).put (hnew kernelName)
  | added hx hp => exact (hj.imp hkeep).put (hadd _ _ (hj _ _ hx) hp)

theorem Jobs.live (h : Jobs jobs t jobs') (hj : Each (·.Live s) jobs) (hle : s.next ≤ t.next) :
    Each (·.Live t) jobs' := by
  refine h.each hj ?_ ?_ ?_
  · intro job hjob p hp
    exact (hjob p hp).trans_le hle
  · intro kernelName p hp
    cases hp
  · intro job p hjob hp q hq
    rcases List.mem_append.mp hq with hq | hq
    · exact (hjob q hq).trans_le hle
    · rwa [List.mem_singleton.mp hq]

theorem Jobs.seeded (h : Jobs jobs t jobs') (hj : Each PickleJob.Seeded jobs)
    (hne : ∀ p, (t.desc p).arrayId ≠ noDestination) : Each PickleJob.Seeded jobs' := by
  refine h.each hj (fun _ hjob => hjob) ?_ ?_
  · intro kernelName
    simp [PickleJob.Seeded, PickleJob.new, RenameMap.insert]
  · intro job p hjob _
    exact (Function.update_of_ne (hne p).symm _ _).trans hjob

theorem perform_cases (hl : Each (·.Live s) jobs) (ha : ∀ p ∈ call.arguments, p < s.next)
    (h : run (call.perform jobs) s = (.ok jobs', t)) :
    s.Asks (call.asked jobs s) t ∧ Jobs jobs t jobs' := by
  cases call with
  | newDescriptor =>
    cases h
    exact ⟨.newDescriptor .refl, .same⟩
  | construct c =>
    obtain ⟨v, u, hv, h⟩ := run_bind_eq_ok h
    cases h
    exact ⟨c.asks_construct hv, .same⟩
  | newJob x kernelName =>
    cases h
    exact ⟨.refl, .new x kernelName⟩
  | getArrayId p =>
    rw [perform, run_bind_ok (run_getArrayId p s)] at h
    cases h
    exact ⟨.getArrayId .refl (ha p List.mem_cons_self), .same⟩
  | addArrayDescriptor x array =>
    simp only [perform] at h
    split at h
    case h_1 job hx =>
      obtain ⟨job', u, hadd, h⟩ := run_bind_eq_ok h
      cases h
      obtain ⟨p, rfl⟩ := PickleJob.addArrayDescriptor_ok hadd
      rw [PickleJob.run_addArrayDescriptor] at hadd
      cases hadd
      have hp := ha p List.mem_cons_self
      refine ⟨.getArrayId .refl hp, ?_⟩
      rw [← withId_arrayId]
      exact .added hx (hp.trans_eq withId_next.symm)
    case h_2 => cases h
  | link f descriptor =>
    obtain ⟨_, u, hlink, h⟩ := run_bind_eq_ok h
    cases h
    rw [f.call_eq] at hlink
    obtain ⟨q, p, hq, rfl, rfl⟩ := indexedBy_ok hlink
    have hlive : q < s.next := ha q (by simp [arguments, hq])
    refine ⟨?_, .same⟩
    rw [asked, hq]
    exact Asks.refl.linked hlive
  | change x c arrayId =>
    simp only [perform] at h
    split at h
    case h_1 job hx =>
      obtain ⟨_, u, hc, h⟩ := run_bind_eq_ok h
      cases h
      refine ⟨?_, .same⟩
      rw [c.call_eq] at hc
      have hasks := asks_changeByArrayId c.change_arrayId arrayId (hl x job hx)
      rw [hc] at hasks
      rwa [asked, hx]
    case h_2 => cases h
  | setFields p fields =>
    cases h
    exact ⟨.write .refl fun _ => rfl, .same⟩

end IdCall

namespace IdState

variable {w w' : IdState}

structure Sound (w : IdState) : Prop where
  ids : w.store.IdsValid
  arrays : Each (·.Live w.store) w.jobs
  names : w.named.card ≤ 2 ^ 64 - 2 → w.store.NamesExactly w.named
  seeded : w.named.card ≤ 2 ^ 64 - 2 → Each PickleJob.Seeded w.jobs

theorem sound_init : init.Sound := by
  have hjobs : ∀ P : PickleJob → Prop, Each P init.jobs := by
    intro P x job hx
    cases hx
  refine ⟨idsValid_init, hjobs _, ?_, fun _ => hjobs _⟩
  intro _
  refine ⟨?_, rfl, ?_⟩
  · intro p hp
    exact absurd hp (Finset.notMem_empty p)
  · intro p
    exact ⟨fun h => absurd rfl h, fun h => absurd h (Finset.notMem_empty p)⟩

structure Stepped (w : IdState) (call : IdCall) (w' : IdState) : Prop where
  asks : w.store.Asks (call.asked w.jobs w.store) w'.store
  jobs : IdCall.Jobs w.jobs w'.store w'.jobs
  named : w'.named = w.named ∪ (call.asked w.jobs w.store).toFinset

theorem step_stepped {call : IdCall} (hw : w.Sound) (h : w.step call = some w') :
    w.Stepped call w' := by
  unfold step at h
  split_ifs at h with ha
  split at h
  case h_1 jobs s hrun =>
    cases h
    obtain ⟨hasks, hjobs⟩ := IdCall.perform_cases hw.arrays ha hrun
    exact ⟨hasks, hjobs, rfl⟩
  case h_2 => cases h

theorem Stepped.named_subset {call : IdCall} (h : w.Stepped call w') : w.named ⊆ w'.named := by
  rw [h.named]
  exact Finset.subset_union_left

theorem Stepped.sound {call : IdCall} (h : w.Stepped call w') (hw : w.Sound) : w'.Sound := by
  have hevolves := h.asks.evolves
  have hids := hevolves.idsValid hw.ids
  have hcard := Finset.card_le_card h.named_subset
  have hnames : w'.named.card ≤ 2 ^ 64 - 2 → w'.store.NamesExactly w'.named := by
    intro hc
    have hbefore := hw.names (hcard.trans hc)
    rw [h.named] at hc ⊢
    exact h.asks.namesExactly hbefore hc
  refine ⟨hids, h.jobs.live hw.arrays hevolves.keeps.next_le, hnames, ?_⟩
  intro hc
  exact h.jobs.seeded (hw.seeded (hcard.trans hc)) ((hnames hc).ne_noDestination hids hc)

theorem run_sound {calls : List IdCall} (hw : w.Sound) (h : run step w calls = some w') :
    w'.Sound ∧ w.store.Keeps w'.store ∧ w.named ⊆ w'.named := by
  apply run_invariant (P := fun u => u.Sound ∧ w.store.Keeps u.store ∧ w.named ⊆ u.named) _ _ h
  · rintro u call v ⟨hu, hkeep, hsub⟩ hstep
    have hs := step_stepped hu hstep
    exact ⟨hs.sound hu, hkeep.trans hs.asks.evolves.keeps, hsub.trans hs.named_subset⟩
  · exact ⟨hw, .refl _, subset_rfl⟩

structure IdsGiven (w : IdState) : Prop where
  distinct : ∀ p ∈ w.named, ∀ q ∈ w.named, p ≠ q →
    (w.store.desc p).arrayId ≠ (w.store.desc q).arrayId
  unreserved : ∀ p ∈ w.named,
    (w.store.desc p).arrayId ≠ unassignedID ∧ (w.store.desc p).arrayId ≠ noDestination
  answers : ∀ p ∈ w.named,
    StateEffect.run (getArrayId p) w.store = (.ok (w.store.desc p).arrayId, w.store)
  seeded : Each PickleJob.Seeded w.jobs

theorem Sound.idsGiven (hw : w.Sound) (hc : w.named.card ≤ 2 ^ 64 - 2) : w.IdsGiven := by
  have hnames := hw.names hc
  have hassigned : ∀ p ∈ w.named, (w.store.desc p).arrayId ≠ unassignedID := fun p hp =>
    (hnames.assigned p).mpr hp
  constructor
  · intro p hp q _ hpq he
    apply hpq
    apply hw.ids.distinct _ p q (hassigned p hp) he
    rw [hnames.count]
    omega
  · intro p hp
    exact ⟨hassigned p hp, hnames.ne_noDestination hw.ids hc p⟩
  · intro p hp
    rw [run_getArrayId, idOf_of_assigned (hassigned p hp), withId_of_assigned (hassigned p hp)]
  · exact hw.seeded hc

theorem run_idsGiven {calls later : List IdCall} (h : run step init calls = some w)
    (h' : run step w later = some w') (hc : w'.named.card ≤ 2 ^ 64 - 2) :
    w'.IdsGiven ∧ ∀ p ∈ w.named, p ∈ w'.named ∧
      (w'.store.desc p).arrayId = (w.store.desc p).arrayId := by
  obtain ⟨hw, -, -⟩ := run_sound sound_init h
  obtain ⟨hw', hkeep, hsub⟩ := run_sound hw h'
  refine ⟨hw'.idsGiven hc, ?_⟩
  intro p hp
  have hnames := hw.names ((Finset.card_le_card hsub).trans hc)
  exact ⟨hsub hp, hkeep.arrayId p (hnames.live p hp) ((hnames.assigned p).mpr hp)⟩

theorem run_idsGiven_twoDescriptors :
    ∃ w w', run step init [.newDescriptor, .newDescriptor, .getArrayId 1] = some w ∧
      run step w [.newJob 0 [], .addArrayDescriptor 0 (some 0), .change 0 (.accessType .ranged) 1] =
        some w' ∧
      w'.IdsGiven ∧ ∀ p ∈ w.named, p ∈ w'.named ∧
        (w'.store.desc p).arrayId = (w.store.desc p).arrayId := by
  obtain ⟨w, w', h, h', hc⟩ : ∃ w w' : IdState,
      run step init [.newDescriptor, .newDescriptor, .getArrayId 1] = some w ∧
      run step w [.newJob 0 [], .addArrayDescriptor 0 (some 0), .change 0 (.accessType .ranged) 1] =
        some w' ∧ w'.named.card = 2 := ⟨_, _, rfl, rfl, by decide⟩
  exact ⟨w, w', h, h', run_idsGiven h h' (by omega)⟩

end IdState

end PickleDevice
