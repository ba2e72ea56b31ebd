import PickleDevice.FieldChanges
import PickleDevice.GraphClient

namespace PickleDevice

open StateEffect Store Runs

namespace CSRGraph

theorem describedStore_next (g : CSRGraph) (s : Store) : (g.describedStore s).next = s.next + 4 := rfl

def links (p : ℕ) : LinkLog := [(p + 1, p + 3), (p, p + 2)]

theorem constructedStore_represents {g : CSRGraph} {s : Store} {log : LinkLog} (h : s.Represents log)
    (hs : s.IdsValid) (hw : (g.constructedStore s).nextID ≤ 2 ^ 64) :
    (g.constructedStore s).Represents (links s.next ++ log) := by
  have hk := g.describedStore_keepsLinks s
  have hds := Evolves.idsValid hk.evolves hs
  have hin := linked_evolves (g.describedStore s) s.next (s.next + 2)
  have hle := (Evolves.keeps (linked_evolves ((g.describedStore s).linked s.next (s.next + 2))
    (s.next + 1) (s.next + 3))).nextID_le
  have hfirst := (h.keeps hk).link hds (p := s.next) (q := s.next + 2)
    (by rw [describedStore_next]; omega) (by rw [describedStore_next]; omega) (hle.trans hw)
  exact hfirst.link (Evolves.idsValid hin hds) (by rw [linked_next, describedStore_next]; omega)
    (by rw [linked_next, describedStore_next]; omega) hw

end CSRGraph

theorem follows_changeByArrayId (change : PickleArrayDescriptor → PickleArrayDescriptor)
    (hid : ∀ d, (change d).arrayId = d.arrayId)
    (hdst : ∀ d, (change d).dstIndexingArrayId = d.dstIndexingArrayId) (id : UInt64) (l : List Ptr) :
    Follows (fun s t : Store => s.KeepsLinks t ∧ t.next = s.next)
      (PickleJob.changeByArrayId change id l) := by
  induction l with
  | nil => exact fun s => ⟨.refl s, rfl⟩
  | cons p l ih =>
    intro s
    rw [PickleJob.changeByArrayId, run_bind_ok (run_getArrayId p s), run_ite]
    have hk := keepsLinks_withId s p
    split
    · exact ⟨hk.trans (keepsLinks_modify _ p hid hdst), withId_next⟩
    · obtain ⟨hrest, hn⟩ := ih (s.withId p)
      exact ⟨hk.trans hrest, hn.trans withId_next⟩

namespace FieldChange

theorem keepsLinks_call (c : FieldChange) {job : PickleJob} {id : UInt64} {s t : Store}
    (h : run (c.call job id) s = (.ok (), t)) : s.KeepsLinks t ∧ t.next = s.next := by
  have hf := follows_changeByArrayId c.change c.change_arrayId c.change_dst id job.arrays s
  rwa [← c.call_eq, h] at hf

def op (c : FieldChange) (job : PickleJob) (id : UInt64) : ClientOp :=
  match c with
  | accessType t => .changeAccessType job id t
  | addressingMode m => .changeAddressingMode job id m

end FieldChange

namespace Client

variable {w w' : Client}

theorem perform_cases {α : Type} {action : Action α} {record : α → Client → Client}
    (h : w.perform action record = some w') :
    ∃ a t, run action w.store = (.ok a, t) ∧ w' = record a { w with store := t } := by
  unfold perform at h
  split at h
  case h_1 a t hr => exact ⟨a, t, hr, (Option.some.inj h).symm⟩
  case h_2 => cases h

inductive Stepped (w : Client) : ClientOp → Client → Prop
  | graph {op : ClientOp} (g : CSRGraph) : Stepped w op
      (addGraph (g.withDescriptors w.store.next) { w with store := g.constructedStore w.store })
  | container {op : ClientOp} {t : Store} (hk : w.store.KeepsLinks t)
      (hn : t.next = w.store.next + 1) (hdesc : ∀ q < w.store.next, t.desc q = w.store.desc q) :
      Stepped w op (addContainer (some w.store.next) { w with store := t })
  | call {c : GraphCall} {job : PickleJob} {t : Store} (hc : w.Knows c)
      (hrun : run c.create w.store = (.ok job, t)) :
      Stepped w (.createJob c) (addCall c { w with store := t })
  | change (c : FieldChange) {job : PickleJob} {id : UInt64} {t : Store}
      (hrun : run (c.call job id) w.store = (.ok (), t)) : Stepped w (c.op job id) { w with store := t }

theorem allocDescribed_desc_of_lt (s : Store) (start stop size : UInt64) {q : ℕ} (hq : q < s.next) :
    (s.allocDescribed start stop size).desc q = s.desc q := by
  rw [allocDescribed_desc, if_neg (Nat.ne_of_lt hq)]

theorem stepped_graph {op : ClientOp} {g : CSRGraph}
    (h : w.perform g.constructArrayDescriptors addGraph = some w') : Stepped w op w' := by
  obtain ⟨a, t, hrun, rfl⟩ := perform_cases h
  rw [CSRGraph.run_constructArrayDescriptors] at hrun
  cases hrun
  exact .graph g

theorem stepped_sized {op : ClientOp} {T : ElementType} {n : ℕ} {new : ℤ}
    (h : w.perform (PVector.sized T n new) (fun v => addContainer v.getArrayDescriptor) = some w') :
    Stepped w op w' := by
  obtain ⟨a, t, hrun, rfl⟩ := perform_cases h
  rw [PVector.run_sized] at hrun
  cases hrun
  exact .container (keepsLinks_allocDescribed _ _ _ _) rfl fun _ hq =>
    allocDescribed_desc_of_lt _ _ _ _ hq

theorem step_cases {op : ClientOp} (h : w.step op = some w') : Stepped w op w' := by
  cases op with
  | undirected mem T numNodes index neighs => exact stepped_graph h
  | fromDirected mem T numNodes outIndex outNeighs inIndex inNeighs => exact stepped_graph h
  | default T =>
    simp only [step] at h
    obtain ⟨a, t, hrun, rfl⟩ := perform_cases h
    rw [PVector.run_default] at hrun
    cases hrun
    exact .container (keepsLinks_alloc _) rfl fun _ hq => alloc_desc_of_ne (Nat.ne_of_lt hq)
  | sized T n new => exact stepped_sized h
  | filled T n new => exact stepped_sized h
  | copied T b e new => exact stepped_sized h
  | queue T n new =>
    simp only [step] at h
    obtain ⟨a, t, hrun, rfl⟩ := perform_cases h
    cases hrun
    exact .container (keepsLinks_allocDescribed _ _ _ _) rfl fun _ hq =>
      allocDescribed_desc_of_lt _ _ _ _ hq
  | createJob c =>
    simp only [step] at h
    split_ifs at h with hc
    obtain ⟨job, t, hrun, rfl⟩ := perform_cases h
    exact .call hc hrun
  | changeAccessType job id t =>
    simp only [step] at h
    split_ifs at h
    obtain ⟨_, s, hrun, rfl⟩ := perform_cases h
    exact .change (.accessType t) hrun
  | changeAddressingMode job id m =>
    simp only [step] at h
    split_ifs at h
    obtain ⟨_, s, hrun, rfl⟩ := perform_cases h
    exact .change (.addressingMode m) hrun

theorem Stepped.evolves {op : ClientOp} (h : Stepped w op w') : Evolves w.store w'.store := by
  cases h with
  | graph g => exact g.constructedStore_evolves w.store
  | container hk hn hdesc => exact hk.evolves
  | @call c job t hc hrun =>
    have hf := c.follows_create w.store
    rwa [hrun] at hf
  | change c hrun => exact (c.keepsLinks_call hrun).1.evolves

inductive ArrayRole
  | index (d : EdgeDirection) (g : CSRGraph)
  | neighbors (d : EdgeDirection) (g : CSRGraph)
  | container

def NoConsumer (w : Client) (d : EdgeDirection) (g : CSRGraph) : Prop :=
  ∀ c ∈ w.calls, c.direction = d → c.graph = g → c.consumer = none

def NeverSelector (w : Client) (p : ℕ) : Prop := ∀ c ∈ w.calls, c.selectorDescriptor ≠ some p

/-- One direction of a graph: its index is linked to its neighbors, and the neighbors are linked on
exactly if some job had a consumer for them. -/
structure SideSound (w : Client) (role : ℕ → Option ArrayRole) (log : LinkLog) (g : CSRGraph)
    (d : EdgeDirection) (i n : ℕ) : Prop where
  index : g.indexOf d = some i
  neighbors : g.neighborsOf d = some n
  index_lt : i < w.store.next
  neighbors_lt : n < w.store.next
  index_role : role i = some (.index d g)
  neighbors_role : role n = some (.neighbors d g)
  linked : log.lookup i = some n
  unlinked : log.lookup n = none ↔ w.NoConsumer d g

structure Sound (w : Client) (role : ℕ → Option ArrayRole) (log : LinkLog) : Prop where
  represents : w.store.Represents log
  graph : ∀ g ∈ w.graphs, ∀ d, ∃ i n, SideSound w role log g d i n
  container : ∀ p ∈ w.containers, p < w.store.next ∧ role p = some .container ∧
    (log.lookup p = none ↔ w.NeverSelector p)
  known : ∀ c ∈ w.calls, w.Knows c

variable {role role' : ℕ → Option ArrayRole} {log : LinkLog} {g : CSRGraph} {d : EdgeDirection}
  {i n p : ℕ}

theorem SideSound.later (h : SideSound w role log g d i n) {log' : LinkLog}
    (hn : w.store.next ≤ w'.store.next) (hc : w'.calls = w.calls)
    (hrole : ∀ q < w.store.next, role' q = role q)
    (hlog : ∀ q < w.store.next, log'.lookup q = log.lookup q) : SideSound w' role' log' g d i n := by
  obtain ⟨hi, hnb, hilt, hnlt, hir, hnr, hl, hu⟩ := h
  refine ⟨hi, hnb, hilt.trans_le hn, hnlt.trans_le hn, ?_, ?_, ?_, ?_⟩
  · rwa [hrole i hilt]
  · rwa [hrole n hnlt]
  · rwa [hlog i hilt]
  · rw [hlog n hnlt, hu, NoConsumer, NoConsumer, hc]

theorem Knows.mono {c : GraphCall} (h : w.Knows c) (hg : ∀ g ∈ w.graphs, g ∈ w'.graphs)
    (hc : ∀ p ∈ w.containers, p ∈ w'.containers) : w'.Knows c :=
  ⟨hg _ h.1, fun p hp => hc p (h.2.1 p hp), fun p hp => hc p (h.2.2 p hp)⟩

theorem sound_init : Sound init (fun _ => none) [] :=
  ⟨represents_init, by simp [init], by simp [init], by simp [init]⟩

theorem noConsumer_of_fresh (h : Sound w role log) (hg : g ∉ w.graphs) : w.NoConsumer d g :=
  fun c hc _ he => absurd (he ▸ (h.known c hc).1) hg

theorem neverSelector_of_fresh (h : Sound w role log) (hp : p ∉ w.containers) : w.NeverSelector p :=
  fun c hc hs => hp ((h.known c hc).2.1 p hs)

theorem withDescriptors_not_mem (h : Sound w role log) (g : CSRGraph) :
    g.withDescriptors w.store.next ∉ w.graphs := by
  intro hmem
  obtain ⟨i, n, hside⟩ := h.graph _ hmem .incoming
  have hi : some w.store.next = some i := hside.index
  have hlt := hside.index_lt
  cases hi
  exact Nat.lt_irrefl _ hlt

theorem lookup_links_of_ne {q : ℕ} (h : q ≠ p) (h' : q ≠ p + 1) :
    (CSRGraph.links p ++ log).lookup q = log.lookup q := by
  rw [CSRGraph.links, List.cons_append, List.cons_append, lookup_cons_of_ne h', lookup_cons_of_ne h]
  rfl

theorem lookup_links_incoming : (CSRGraph.links p ++ log).lookup p = some (p + 2) := by
  rw [CSRGraph.links, List.cons_append, List.cons_append, lookup_cons_of_ne (by omega),
    List.lookup_cons_self]

theorem lookup_links_outgoing : (CSRGraph.links p ++ log).lookup (p + 1) = some (p + 3) := by
  rw [CSRGraph.links, List.cons_append, List.lookup_cons_self]

theorem sound_graph (h : Sound w role log) (hs : w.store.IdsValid) (g : CSRGraph)
    (hw : (g.constructedStore w.store).nextID ≤ 2 ^ 64) :
    ∃ role', Sound (addGraph (g.withDescriptors w.store.next)
      { w with store := g.constructedStore w.store }) role' (CSRGraph.links w.store.next ++ log) := by
  have hnext := g.constructedStore_next w.store
  generalize hp : w.store.next = p at *
  set g' := g.withDescriptors p with hg'
  refine ⟨fun q =>
    if q = p then some (.index .incoming g') else if q = p + 1 then some (.index .outgoing g')
    else if q = p + 2 then some (.neighbors .incoming g')
    else if q = p + 3 then some (.neighbors .outgoing g') else role q, ?_⟩
  have hold : ∀ q < w.store.next, q ≠ p ∧ q ≠ p + 1 ∧ q ≠ p + 2 ∧ q ≠ p + 3 := by
    intro q hq
    omega
  have hfresh : ∀ q, p ≤ q → log.lookup q = none := fun q hq =>
    h.represents.lookup_fresh (hp ▸ hq)
  have hnew : ∀ d, w.NoConsumer d g' := fun d =>
    noConsumer_of_fresh h (by rw [hg', ← hp]; exact withDescriptors_not_mem h g)
  constructor
  · rw [← hp]
    exact CSRGraph.constructedStore_represents h.represents hs hw
  · intro g₀ hmem d
    rcases List.mem_cons.mp hmem with rfl | hmem
    · have hunlinked : ∀ q, p + 2 ≤ q → ((CSRGraph.links p ++ log).lookup q = none ↔
          w.NoConsumer d g') := by
        intro q hq
        rw [lookup_links_of_ne (by omega) (by omega)]
        exact iff_of_true (hfresh q (by omega)) (hnew d)
      have hlt : ∀ q < p + 4, q < (g.constructedStore w.store).next := by omega
      cases d with
      | incoming =>
        exact ⟨p, p + 2, rfl, rfl, hlt _ (by omega), hlt _ (by omega), by simp, by simp,
          lookup_links_incoming, hunlinked _ le_rfl⟩
      | outgoing =>
        exact ⟨p + 1, p + 3, rfl, rfl, hlt _ (by omega), hlt _ (by omega), by simp, by simp,
          lookup_links_outgoing, hunlinked _ (by omega)⟩
    · obtain ⟨i, n, hside⟩ := h.graph g₀ hmem d
      refine ⟨i, n, hside.later ?_ rfl ?_ ?_⟩
      · change w.store.next ≤ (g.constructedStore w.store).next
        omega
      · intro q hq
        obtain ⟨h0, h1, h2, h3⟩ := hold q hq
        simp only [h0, h1, h2, h3, ↓reduceIte]
      · intro q hq
        exact lookup_links_of_ne (hold q hq).1 (hold q hq).2.1
  · intro q hq
    obtain ⟨hlt, hr, hl⟩ := h.container q hq
    obtain ⟨h0, h1, h2, h3⟩ := hold q hlt
    refine ⟨?_, ?_, ?_⟩
    · change q < (g.constructedStore w.store).next
      omega
    · simpa only [h0, h1, h2, h3, ↓reduceIte] using hr
    · rw [lookup_links_of_ne h0 h1]
      exact hl
  · intro c hc
    exact (h.known c hc).mono (fun g₀ hg₀ => List.mem_cons_of_mem _ hg₀) fun _ hq => hq

theorem sound_container (h : Sound w role log) {t : Store} (hk : w.store.KeepsLinks t)
    (hn : t.next = w.store.next + 1) :
    ∃ role', Sound (addContainer (some w.store.next) { w with store := t }) role' log := by
  have hold : ∀ q < w.store.next, q ≠ w.store.next := fun q hq => Nat.ne_of_lt hq
  have hle : w.store.next ≤ t.next := by omega
  refine ⟨fun q => if q = w.store.next then some .container else role q, ?_, ?_, ?_, ?_⟩
  · exact h.represents.keeps hk
  · intro g hg d
    obtain ⟨i, n, hside⟩ := h.graph g hg d
    exact ⟨i, n, hside.later hle rfl (fun q hq => if_neg (hold q hq)) fun _ _ => rfl⟩
  · intro q hq
    rcases List.mem_cons.mp hq with rfl | hq
    · have hfresh : w.store.next ∉ w.containers := fun hmem =>
        Nat.lt_irrefl _ (h.container _ hmem).1
      refine ⟨?_, if_pos rfl, ?_⟩
      · change w.store.next < t.next
        omega
      · have hnever : w.NeverSelector w.store.next := neverSelector_of_fresh h hfresh
        exact iff_of_true (h.represents.lookup_fresh le_rfl) hnever
    · obtain ⟨hlt, hr, hl⟩ := h.container q hq
      exact ⟨hlt.trans_le hle, (if_neg (hold q hlt)).trans hr, hl⟩
  · intro c hc
    exact (h.known c hc).mono (fun _ hg => hg) fun _ hq => List.mem_cons_of_mem _ hq

theorem sound_change (h : Sound w role log) {t : Store} (hk : w.store.KeepsLinks t)
    (hn : t.next = w.store.next) : Sound { w with store := t } role log := by
  refine ⟨h.represents.keeps hk, ?_, ?_, ?_⟩
  · intro g hg d
    obtain ⟨i, n, hside⟩ := h.graph g hg d
    exact ⟨i, n, hside.later hn.ge rfl (fun _ _ => rfl) fun _ _ => rfl⟩
  · intro q hq
    obtain ⟨hlt, hrest⟩ := h.container q hq
    exact ⟨hlt.trans_le hn.ge, hrest⟩
  · intro c hc
    exact (h.known c hc).mono (fun _ hg => hg) fun _ hq => hq

structure Created (w : Client) (role : ℕ → Option ArrayRole) (log : LinkLog) (c : GraphCall)
    (a : GraphArrays) : Prop where
  selector : a.selector = c.selectorDescriptor
  consumer : a.consumer = c.consumerDescriptor
  side : SideSound w role log c.graph c.direction a.index a.neighbors
  live : a.Live w.store
  distinct : a.Distinct
  run : ∃ job, run c.create w.store = (.ok job, a.finalStore w.store) ∧
    PickleJob.Built c.kernelName a.arrays job (a.finalStore w.store)

theorem Sound.create (h : Sound w role log) (hs : Reachable w.store) {c : GraphCall}
    (hk : w.Knows c) (hd : c.Described) : ∃ a, Created w role log c a := by
  obtain ⟨i, n, hside⟩ := h.graph c.graph hk.1 c.direction
  have hcontainer : ∀ p ∈ w.containers, p ≠ i ∧ p ≠ n := by
    intro p hp
    have hrole := (h.container p hp).2.1
    constructor
    · rintro rfl
      cases hrole.symm.trans hside.index_role
    · rintro rfl
      cases hrole.symm.trans hside.neighbors_role
  have hin : i ≠ n := by
    rintro rfl
    cases hside.index_role.symm.trans hside.neighbors_role
  let a : GraphArrays := ⟨i, n, c.selectorDescriptor, c.consumerDescriptor⟩
  have hlive : a.Live w.store := by
    apply GraphArrays.live_of hside.index_lt hside.neighbors_lt
    intro p hp
    rcases List.mem_append.mp hp with hp | hp
    · exact (h.container p (hk.2.1 p (Option.mem_toList.mp hp))).1
    · exact (h.container p (hk.2.2 p (Option.mem_toList.mp hp))).1
  refine ⟨a, rfl, rfl, hside, hlive, ⟨hin, fun p hp => hcontainer p (hk.2.1 p hp),
    fun p hp => hcontainer p (hk.2.2 p hp)⟩, ?_⟩
  obtain ⟨job, hrun, hb⟩ :=
    GraphArrays.run_createGraphJob a w.store c.kernelName hd.selector hd.consumer
  refine ⟨job, ?_, hb hs hlive⟩
  rw [GraphCall.create_eq, hside.index, hside.neighbors]
  exact hrun

theorem sound_call (h : Sound w role log) (hs : Reachable w.store) {c : GraphCall} {a : GraphArrays}
    (hk : w.Knows c) (hd : c.Described) (ha : Created w role log c a)
    (hw : (a.finalStore w.store).nextID ≤ 2 ^ 64) :
    Sound (addCall c { w with store := a.finalStore w.store }) role (a.links ++ log) := by
  have hnext := a.finalStore_next w.store
  have hside := ha.side
  have hcon : a.consumer = none ↔ c.consumer = none := by
    rw [ha.consumer]
    exact hd.consumer_none
  have hselRole : ∀ p, a.selector = some p → role p = some .container := fun p hp =>
    (h.container p (hk.2.1 p (ha.selector ▸ hp))).2.1
  refine ⟨GraphArrays.finalStore_represents h.represents hs.idsValid ha.live hw, ?_, ?_, ?_⟩
  · intro g hg d
    obtain ⟨i, n, hi, hn, hilt, hnlt, hir, hnr, hl, hu⟩ := h.graph g hg d
    have hsi : a.selector ≠ some i := fun hc => by cases (hselRole i hc).symm.trans hir
    have hsn : a.selector ≠ some n := fun hc => by cases (hselRole n hc).symm.trans hnr
    have hin : i ≠ a.neighbors := by
      rintro rfl
      cases hir.symm.trans hside.neighbors_role
    refine ⟨i, n, hi, hn, hilt.trans_eq hnext.symm, hnlt.trans_eq hnext.symm, hir, hnr, ?_, ?_⟩
    · rw [GraphArrays.lookup_links, if_neg hin, if_neg hsi]
      exact hl
    · rw [GraphArrays.lookup_links_eq_none, hu]
      -- Two directions share their neighbors only if they are one direction of one graph.
      have hsame : n = a.neighbors ↔ c.direction = d ∧ c.graph = g := by
        constructor
        · rintro rfl
          cases hnr.symm.trans hside.neighbors_role
          exact ⟨rfl, rfl⟩
        · rintro ⟨rfl, rfl⟩
          exact Option.some.inj (hn.symm.trans hside.neighbors)
      simp only [NoConsumer, addCall, List.mem_cons, forall_eq_or_imp, hsame, hcon, and_imp]
      exact ⟨fun hall => ⟨hall.1, hall.2.2⟩, fun hall => ⟨hall.1, hsn, hall.2⟩⟩
  · intro p hp
    obtain ⟨hlt, hr, hl⟩ := h.container p hp
    have hpn : p ≠ a.neighbors := by
      rintro rfl
      cases hr.symm.trans hside.neighbors_role
    refine ⟨hlt.trans_eq hnext.symm, hr, ?_⟩
    rw [GraphArrays.lookup_links_eq_none, hl, ha.selector]
    simp only [NeverSelector, addCall, List.mem_cons, forall_eq_or_imp]
    exact ⟨fun hall => hall.2, fun hall => ⟨fun he => absurd he hpn, hall⟩⟩
  · intro c' hc'
    rcases List.mem_cons.mp hc' with rfl | hc'
    · exact hk
    · exact h.known c' hc'

def Valid (w : Client) : Prop :=
  Reachable w.store ∧ (w.store.nextID ≤ 2 ^ 64 → ∃ role log, Sound w role log)

theorem valid_init : init.Valid := ⟨.refl, fun _ => ⟨_, _, sound_init⟩⟩

theorem step_valid {op : ClientOp} (hv : w.Valid) (h : w.step op = some w') : w'.Valid := by
  have hstep := step_cases h
  have hk := Evolves.keeps hstep.evolves
  obtain ⟨hreach, hsound⟩ := hv
  refine ⟨hreach.evolves hstep.evolves, fun hw => ?_⟩
  obtain ⟨role, log, hs⟩ := hsound (hk.nextID_le.trans hw)
  cases hstep with
  | graph g =>
    obtain ⟨role', hs'⟩ := sound_graph hs hreach.idsValid g hw
    exact ⟨role', _, hs'⟩
  | container hkeep hn hdesc =>
    obtain ⟨role', hs'⟩ := sound_container hs hkeep hn
    exact ⟨role', _, hs'⟩
  | call hc hrun =>
    have hd := GraphCall.described_of_create hrun
    obtain ⟨a, ha⟩ := hs.create hreach hc hd
    obtain ⟨job, hrun', -⟩ := ha.run
    cases hrun.symm.trans hrun'
    exact ⟨role, _, sound_call hs hreach hc hd ha hw⟩
  | change c hrun =>
    obtain ⟨hkeep, hn⟩ := c.keepsLinks_call hrun
    exact ⟨role, log, sound_change hs hkeep hn⟩

theorem run_valid {ops : List ClientOp} (h : run step init ops = some w) : w.Valid :=
  run_invariant (fun _ _ _ hv hs => step_valid hv hs) valid_init h

end Client

end PickleDevice
