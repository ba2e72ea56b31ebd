import PickleDevice.ClientLinks
import PickleDevice.DescribedRanges
import PickleDevice.Library.Ownership

namespace PickleDevice

open StateEffect Store Runs Ownership

def CSRArrays.blocks : CSRArrays → List ℤ
  | undirected index neighs => [index, neighs]
  | directed outIndex outNeighs inIndex inNeighs => [outIndex, outNeighs, inIndex, inNeighs]

def CSRGraph.ownedArrays (g : CSRGraph) : List ℤ :=
  [g.outIndex, g.outNeighbors, g.inIndex, g.inNeighbors].filter (· ≠ 0)

structure Graphs where
  store : Store
  live : Objects CSRGraph
  heap : Ledger ℤ
  calls : List GraphCall

/-- Calls on the graphs `x` and `y`. In between, other containers may be built and graph jobs
created. -/
inductive GraphOp
  | default (x : ℕ) (T : ElementType)
  | construct (x : ℕ) (mem : Memory) (T : ElementType) (numNodes : ℕ) (arrays : CSRArrays)
  | moved (x y : ℕ)
  | moveAssign (x y : ℕ)
  | destroy (x : ℕ)
  | newDescriptor
  | createGraphJob (x : ℕ) (direction : EdgeDirection) (kernelName : List UInt8)
      (selector : Option Container) (consumer : Option PVector)

namespace Graphs

def empty : Graphs := ⟨.init, fun _ => none, .empty, []⟩

/-- `none` where the call cannot be made. The arrays of a new graph are distinct, and none of them is
an array that is still allocated. -/
def step (w : Graphs) : GraphOp → Option Graphs
  | .default x T =>
    match w.live x with
    | none => some { w with live := put w.live x (CSRGraph.default T) }
    | some _ => none
  | .construct x mem T numNodes arrays =>
    match w.live x, run (arrays.construct mem T numNodes) w.store with
    | none, (.ok g, s) =>
      if arrays.blocks.Nodup ∧ ∀ a ∈ arrays.blocks, a ≠ 0 ∧ a ∉ w.heap.live then
        some { w with store := s, live := put w.live x g, heap := w.heap.give arrays.blocks }
      else none
    | _, _ => none
  | .moved x y =>
    match w.live x, w.live y with
    | none, some h => some { w with live := put (put w.live x h.moved.1) y h.moved.2 }
    | _, _ => none
  | .moveAssign x y =>
    match w.live x, w.live y with
    | some g, some h =>
      if g.destType = h.destType then
        if x = y then some w
        else
          let ((g, h), deleted) := g.moveAssign h
          some { w with live := put (put w.live x g) y h, heap := w.heap.release deleted }
      else none
    | _, _ => none
  | .destroy x =>
    match w.live x with
    | some g =>
      some { w with live := remove w.live x, heap := w.heap.release g.releaseResources.2 }
    | none => none
  | .newDescriptor => some { w with store := w.store.alloc }
  | .createGraphJob x direction kernelName selector consumer =>
    match w.live x with
    | some g =>
      let c : GraphCall := ⟨direction, g, kernelName, selector, consumer⟩
      if ∀ p ∈ c.selectorDescriptor.toList ++ c.consumerDescriptor.toList, p < w.store.next then
        match run c.create w.store with
        | (.ok _, s) => some { w with store := s, calls := c :: w.calls }
        | (.error _, _) => none
      else none
    | none => none

end Graphs

namespace CSRGraph

inductive Shaped (g : CSRGraph) : Prop
  | null (ho : g.outIndex = 0) (hon : g.outNeighbors = 0) (hi : g.inIndex = 0)
      (hin : g.inNeighbors = 0)
  | undirected (hd : g.directed = false) (hi : g.inIndex = g.outIndex)
      (hn : g.inNeighbors = g.outNeighbors) (hnodup : [0, g.outIndex, g.outNeighbors].Nodup)
  | directed (hd : g.directed = true)
      (hnodup : [0, g.outIndex, g.outNeighbors, g.inIndex, g.inNeighbors].Nodup)

structure Emptied (g h : CSRGraph) : Prop where
  outIndex : h.outIndex = 0
  outNeighbors : h.outNeighbors = 0
  inIndex : h.inIndex = 0
  inNeighbors : h.inNeighbors = 0
  descriptors : ∀ d, h.indexOf d = g.indexOf d ∧ h.neighborsOf d = g.neighborsOf d ∨
    h.indexOf d = none

variable {g h : CSRGraph} {a : ℤ}

theorem mem_ownedArrays : a ∈ g.ownedArrays ↔
    a ≠ 0 ∧ (a = g.outIndex ∨ a = g.outNeighbors ∨ a = g.inIndex ∨ a = g.inNeighbors) := by
  simp only [ownedArrays, List.mem_filter, List.mem_cons, List.not_mem_nil, or_false,
    decide_eq_true_eq]
  exact and_comm

theorem ownedArrays_of_null (ho : g.outIndex = 0) (hon : g.outNeighbors = 0) (hi : g.inIndex = 0)
    (hin : g.inNeighbors = 0) : g.ownedArrays = [] := by
  simp [ownedArrays, ho, hon, hi, hin]

theorem Emptied.ownedArrays (h' : Emptied g h) : h.ownedArrays = [] :=
  ownedArrays_of_null h'.outIndex h'.outNeighbors h'.inIndex h'.inNeighbors

theorem Emptied.shaped (h' : Emptied g h) : h.Shaped :=
  .null h'.outIndex h'.outNeighbors h'.inIndex h'.inNeighbors

theorem moved_emptied (g : CSRGraph) : Emptied g g.moved.2 := by
  constructor
  case descriptors =>
    intro d
    left
    cases d <;> exact ⟨rfl, rfl⟩
  all_goals rfl

theorem moveAssign_emptied (g h : CSRGraph) : Emptied h (g.moveAssign h).1.2 := by
  constructor
  case descriptors =>
    intro d
    right
    cases d <;> rfl
  all_goals rfl

theorem moveAssign_fst (ht : g.destType = h.destType) : (g.moveAssign h).1.1 = h := by
  simp only [moveAssign, releaseResources, ht]

/-- `ReleaseResources` deletes every array the graph points to, and none twice: an undirected graph
points to each from both sides. -/
theorem Shaped.releaseResources (hs : g.Shaped) : g.releaseResources.2.Nodup ∧
    ∀ a, a ∈ g.releaseResources.2 ↔ a ∈ g.ownedArrays := by
  cases hs with
  | null ho hon hi hin =>
    simp [CSRGraph.releaseResources, CSRGraph.ownedArrays, deleteUnlessNull, ho, hon, hi, hin]
  | undirected hd hi hn hnodup =>
    simp only [List.nodup_cons, List.mem_cons, List.not_mem_nil, or_false, not_or, not_false_eq_true,
      List.nodup_nil, and_true] at hnodup
    obtain ⟨⟨ho, hon⟩, hne⟩ := hnodup
    have hdel : g.releaseResources.2 = [g.outIndex, g.outNeighbors] := by
      simp [CSRGraph.releaseResources, deleteUnlessNull, hd, Ne.symm ho, Ne.symm hon]
    have hown : g.ownedArrays = [g.outIndex, g.outNeighbors, g.outIndex, g.outNeighbors] := by
      simp [CSRGraph.ownedArrays, hi, hn, Ne.symm ho, Ne.symm hon]
    rw [hdel, hown]
    constructor
    · simp [hne]
    · intro a
      simp only [List.mem_cons, List.not_mem_nil, or_false]
      tauto
  | directed hd hnodup =>
    rw [List.nodup_cons] at hnodup
    obtain ⟨hmem, hnodup⟩ := hnodup
    simp only [List.mem_cons, List.not_mem_nil, or_false, not_or] at hmem
    obtain ⟨ho, hon, hi, hin⟩ := hmem
    have hdel : g.releaseResources.2 = [g.outIndex, g.outNeighbors, g.inIndex, g.inNeighbors] := by
      simp [CSRGraph.releaseResources, deleteUnlessNull, hd, Ne.symm ho, Ne.symm hon, Ne.symm hi,
        Ne.symm hin]
    have hown : g.ownedArrays = [g.outIndex, g.outNeighbors, g.inIndex, g.inNeighbors] := by
      simp [CSRGraph.ownedArrays, Ne.symm ho, Ne.symm hon, Ne.symm hi, Ne.symm hin]
    rw [hdel, hown]
    exact ⟨hnodup, fun _ => Iff.rfl⟩

theorem moveAssign_deleted (g h : CSRGraph) : (g.moveAssign h).2 = g.releaseResources.2 := rfl

end CSRGraph

theorem CSRArrays.run_construct (mem : Memory) (T : ElementType) (numNodes : ℕ) (arrays : CSRArrays)
    (s : Store) : ∃ g : CSRGraph, run (arrays.construct mem T numNodes) s =
        (.ok (g.withDescriptors s.next), g.constructedStore s) ∧
      (∀ a, a ∈ (g.withDescriptors s.next).ownedArrays ↔ a ≠ 0 ∧ a ∈ arrays.blocks) ∧
      (arrays.blocks.Nodup → (∀ a ∈ arrays.blocks, a ≠ 0) →
        (g.withDescriptors s.next).Shaped) := by
  cases arrays with
  | undirected index neighs =>
    refine ⟨_, CSRGraph.run_constructArrayDescriptors _ s, ?_, ?_⟩
    · intro a
      rw [CSRGraph.mem_ownedArrays]
      simp only [CSRGraph.withDescriptors, blocks, List.mem_cons, List.not_mem_nil, or_false]
      tauto
    · intro hnodup hne
      apply CSRGraph.Shaped.undirected rfl rfl rfl
      exact List.nodup_cons.mpr ⟨fun h => hne 0 h rfl, hnodup⟩
  | directed outIndex outNeighs inIndex inNeighs =>
    refine ⟨_, CSRGraph.run_constructArrayDescriptors _ s, ?_, ?_⟩
    · intro a
      rw [CSRGraph.mem_ownedArrays]
      simp only [CSRGraph.withDescriptors, blocks, List.mem_cons, List.not_mem_nil, or_false]
    · intro hnodup hne
      apply CSRGraph.Shaped.directed rfl
      exact List.nodup_cons.mpr ⟨fun h => hne 0 h rfl, hnodup⟩

namespace Store

def Describes (s : Store) (d : Option Ptr) (range : AddressRange) (size : UInt64) : Prop :=
  ∃ p, d = some p ∧ s.Shows p range size

def LinksTo (s : Store) (index neighbors : Option Ptr) : Prop :=
  ∃ i n, index = some i ∧ neighbors = some n ∧ (s.desc n).arrayId ≠ unassignedID ∧
    (s.desc i).dstIndexingArrayId = (s.desc n).arrayId

end Store

namespace Graphs

structure OwnershipSound (w : Graphs) : Prop where
  exclusive : Exclusive CSRGraph.ownedArrays w.live
  balanced : w.heap.Balanced
  owned : ∀ a, a ∈ w.heap.live ↔ Held CSRGraph.ownedArrays w.live a
  shaped : Each CSRGraph.Shaped w.live

variable {w w' : Graphs} {x y : ℕ} {g h u : CSRGraph} {s : Store}

theorem OwnershipSound.default (hw : w.OwnershipSound) (hx : w.live x = none) (T : ElementType) :
    OwnershipSound { w with live := put w.live x (CSRGraph.default T) } := by
  have hown : (CSRGraph.default T).ownedArrays = [] :=
    CSRGraph.ownedArrays_of_null rfl rfl rfl rfl
  constructor
  · apply hw.exclusive.put_fresh
    simp [hown]
  · exact hw.balanced
  · intro a
    rw [held_put hx, hown, hw.owned a]
    simp
  · exact hw.shaped.put (.null rfl rfl rfl rfl)

theorem OwnershipSound.construct (hw : w.OwnershipSound) (hx : w.live x = none) {blocks : List ℤ}
    (hown : ∀ a, a ∈ g.ownedArrays ↔ a ∈ blocks) (hnodup : blocks.Nodup)
    (hfresh : ∀ a ∈ blocks, a ∉ w.heap.live) (hg : g.Shaped) :
    OwnershipSound { w with store := s, live := put w.live x g, heap := w.heap.give blocks } := by
  constructor
  · apply hw.exclusive.put_fresh
    intro a ha hheld
    exact hfresh a ((hown a).mp ha) ((hw.owned a).mpr hheld)
  · exact hw.balanced.give hnodup hfresh
  · intro a
    rw [Ledger.mem_give, held_put hx, hw.owned a, hown a]
  · exact hw.shaped.put hg

theorem OwnershipSound.pass (hw : w.OwnershipSound) (hx : w.live x = none) (hy : w.live y = some g)
    (hh : g.Emptied h) : OwnershipSound { w with live := put (put w.live x g) y h } := by
  have hxy : x ≠ y := by
    rintro rfl
    rw [hx] at hy
    cases hy
  constructor
  · exact hw.exclusive.transfer hxy hy (List.Subset.refl _) hh.ownedArrays
  · exact hw.balanced
  · intro a
    rw [held_transfer hxy hx hy rfl hh.ownedArrays]
    exact hw.owned a
  · exact (hw.shaped.put (hw.shaped y g hy)).put hh.shaped

theorem OwnershipSound.destroy (hw : w.OwnershipSound) (hx : w.live x = some g) :
    OwnershipSound
      { w with live := remove w.live x, heap := w.heap.release g.releaseResources.2 } := by
  obtain ⟨hnodup, hdel⟩ := (hw.shaped x g hx).releaseResources
  constructor
  · exact hw.exclusive.remove
  · apply hw.balanced.release hnodup
    intro a ha
    exact (hw.owned a).mpr ⟨x, g, hx, (hdel a).mp ha⟩
  · intro a
    rw [Ledger.mem_release hw.balanced, held_remove hw.exclusive hx, hdel a, hw.owned a]
  · exact hw.shaped.remove

def SidesBelow (isIndex : ℕ → Prop) (next : ℕ) (g : CSRGraph) : Prop :=
  ∀ (d : EdgeDirection) (i n : ℕ), g.indexOf d = some i → g.neighborsOf d = some n →
    isIndex i ∧ ¬ isIndex n ∧ n = i + 2 ∧ n < next

def ShownIn (s : Store) (g : CSRGraph) : Prop :=
  g.ownedArrays ≠ [] → ∃ p, g = g.withDescriptors p ∧ g.ShownAt s p

theorem SidesBelow.extend {isIndex isIndex' : ℕ → Prop} {next next' : ℕ}
    (h : SidesBelow isIndex next g) (hold : ∀ i, isIndex i → isIndex' i)
    (hnew : ∀ i < next, isIndex' i → isIndex i) (hle : next ≤ next') :
    SidesBelow isIndex' next' g := by
  intro d i n hi hn
  obtain ⟨hii, hni, he, hlt⟩ := h d i n hi hn
  exact ⟨hold i hii, fun hc => hni (hnew n hlt hc), he, hlt.trans_le hle⟩

theorem sidesBelow_withDescriptors (g : CSRGraph) {isIndex : ℕ → Prop} {p : ℕ}
    (hlt : ∀ i, isIndex i → i < p) :
    SidesBelow (fun q => isIndex q ∨ q = p ∨ q = p + 1) (p + 4) (g.withDescriptors p) := by
  have hold : ∀ q, p + 2 ≤ q → ¬ (isIndex q ∨ q = p ∨ q = p + 1) := by
    rintro q hq (h | h | h)
    · have hqp := hlt q h
      omega
    · omega
    · omega
  intro d i n hi hn
  cases d with
  | incoming =>
    cases hi
    cases hn
    exact ⟨Or.inr (Or.inl rfl), hold _ le_rfl, rfl, by omega⟩
  | outgoing =>
    cases hi
    cases hn
    exact ⟨Or.inr (Or.inr rfl), hold _ (by omega), rfl, by omega⟩

theorem ShownIn.keeps {t : Store} (h : ShownIn s g) (hk : s.KeepsRanges t) : ShownIn t g := by
  intro hne
  obtain ⟨q, hq, hshown⟩ := h hne
  exact ⟨q, hq, hshown.keeps hk⟩

structure DescriptorsSound (w : Graphs) (isIndex : ℕ → Prop) (log : LinkLog) : Prop where
  ids : w.store.IdsValid
  represents : w.store.nextID ≤ 2 ^ 64 → w.store.Represents log
  index_lt : ∀ i, isIndex i → i < w.store.next
  sides : Each (SidesBelow isIndex w.store.next) w.live
  shown : Each (ShownIn w.store) w.live
  linked : ∀ i, isIndex i → (∀ c ∈ w.calls, c.selectorDescriptor ≠ some i) →
    log.lookup i = some (i + 2)

variable {isIndex : ℕ → Prop} {log : LinkLog} {k : Ledger ℤ}

theorem DescriptorsSound.withLive {live : Objects CSRGraph} (hw : w.DescriptorsSound isIndex log)
    (hsides : Each (SidesBelow isIndex w.store.next) live) (hshown : Each (ShownIn w.store) live) :
    DescriptorsSound { w with live := live, heap := k } isIndex log :=
  ⟨hw.ids, hw.represents, hw.index_lt, hsides, hshown, hw.linked⟩

theorem DescriptorsSound.default (hw : w.DescriptorsSound isIndex log) (T : ElementType) :
    DescriptorsSound { w with live := put w.live x (CSRGraph.default T) } isIndex log := by
  apply hw.withLive
  · apply hw.sides.put
    intro d i n hi
    cases d <;> cases hi
  · apply hw.shown.put
    intro hne
    exact absurd (CSRGraph.ownedArrays_of_null rfl rfl rfl rfl) hne

theorem DescriptorsSound.pass (hw : w.DescriptorsSound isIndex log) (hy : w.live y = some g)
    (hh : g.Emptied h) :
    DescriptorsSound { w with live := put (put w.live x g) y h, heap := k } isIndex log := by
  apply hw.withLive
  · apply (hw.sides.put (hw.sides y g hy)).put
    intro d i n hi hn
    rcases hh.descriptors d with ⟨hid, hnd⟩ | hnone
    · exact hw.sides y g hy d i n (hid.symm.trans hi) (hnd.symm.trans hn)
    · rw [hnone] at hi
      cases hi
  · apply (hw.shown.put (hw.shown y g hy)).put
    intro hne
    exact absurd hh.ownedArrays hne

theorem DescriptorsSound.destroy (hw : w.DescriptorsSound isIndex log) :
    DescriptorsSound { w with live := remove w.live x, heap := k } isIndex log :=
  hw.withLive hw.sides.remove hw.shown.remove

theorem DescriptorsSound.construct (hw : w.DescriptorsSound isIndex log) (g : CSRGraph) :
    ∃ isIndex' log', DescriptorsSound
      { w with
        store := g.constructedStore w.store
        live := put w.live x (g.withDescriptors w.store.next)
        heap := k } isIndex' log' := by
  have hnext := g.constructedStore_next w.store
  have hevolves := g.constructedStore_evolves w.store
  have hkeep := Evolves.keeps hevolves
  generalize hp : w.store.next = p at *
  refine ⟨fun q => isIndex q ∨ q = p ∨ q = p + 1, CSRGraph.links p ++ log, ?_⟩
  constructor
  · exact Evolves.idsValid hevolves hw.ids
  · intro hle
    rw [← hp]
    apply CSRGraph.constructedStore_represents _ hw.ids hle
    exact hw.represents (hkeep.nextID_le.trans hle)
  · intro i hi
    rw [hnext]
    rcases hi with hi | hi | hi
    · have hlt := hw.index_lt i hi
      omega
    · omega
    · omega
  · refine Each.put ?_ ?_
    · refine hw.sides.imp ?_
      intro g' hg'
      apply hg'.extend fun i hi => Or.inl hi
      · rintro i hlt (h | h | h)
        · exact h
        · omega
        · omega
      · rw [hnext, hp]
        omega
    · rw [hnext, ← hp]
      exact sidesBelow_withDescriptors g hw.index_lt
  · refine Each.put ?_ ?_
    · exact hw.shown.imp fun _ hg' => hg'.keeps (keepsRanges_constructedStore g w.store)
    · intro _
      refine ⟨p, rfl, ?_⟩
      rw [← hp]
      exact CSRGraph.shownAt_constructedStore g w.store
  · intro i hi hsel
    rcases hi with hi | rfl | rfl
    · have hlt := hw.index_lt i hi
      rw [Client.lookup_links_of_ne (by omega) (by omega)]
      exact hw.linked i hi hsel
    · exact Client.lookup_links_incoming
    · exact Client.lookup_links_outgoing

theorem DescriptorsSound.evolve (hw : w.DescriptorsSound isIndex log) {t : Store} {log' : LinkLog}
    {calls : List GraphCall} (hids : t.IdsValid) (hr : t.nextID ≤ 2 ^ 64 → t.Represents log')
    (hk : w.store.KeepsRanges t)
    (hl : ∀ i, isIndex i → (∀ c ∈ calls, c.selectorDescriptor ≠ some i) →
      log'.lookup i = some (i + 2)) :
    DescriptorsSound { w with store := t, calls := calls } isIndex log' := by
  constructor
  · exact hids
  · exact hr
  · intro i hi
    exact (hw.index_lt i hi).trans_le hk.next_le
  · exact hw.sides.imp fun _ hg' => hg'.extend (fun _ hi => hi) (fun _ _ hi => hi) hk.next_le
  · exact hw.shown.imp fun _ hg' => hg'.keeps hk
  · exact hl

theorem DescriptorsSound.newDescriptor (hw : w.DescriptorsSound isIndex log) :
    DescriptorsSound { w with store := w.store.alloc } isIndex log := by
  apply hw.evolve (idsValid_alloc hw.ids) _ (keepsRanges_alloc _) hw.linked
  intro hle
  exact (hw.represents hle).keeps (keepsLinks_alloc _)

theorem DescriptorsSound.createGraphJob (hw : w.DescriptorsSound isIndex log) {c : GraphCall}
    {job : PickleJob} {t : Store} (hg : w.live x = some c.graph)
    (hlive : ∀ p ∈ c.selectorDescriptor.toList ++ c.consumerDescriptor.toList, p < w.store.next)
    (hrun : run c.create w.store = (.ok job, t)) :
    ∃ log', DescriptorsSound { w with store := t, calls := c :: w.calls } isIndex log' := by
  have hevolves : Evolves w.store t := by
    have hf := c.follows_create w.store
    rwa [hrun] at hf
  obtain ⟨a, hi, hn, hs, hc, rfl⟩ := GraphCall.create_cases hrun
  obtain ⟨hii, hni, he, hlt⟩ := hw.sides x c.graph hg c.direction a.index a.neighbors hi hn
  have hal : a.Live w.store := by
    apply GraphArrays.live_of (by omega) hlt
    rw [hs, hc]
    exact hlive
  refine ⟨a.links ++ log, ?_⟩
  apply hw.evolve (Evolves.idsValid hevolves hw.ids) _ (keepsRanges_finalStore a w.store)
  · intro i hisi hsel
    have hne : i ≠ a.neighbors := by
      rintro rfl
      exact hni hisi
    have hnsel : a.selector ≠ some i := by
      rw [hs]
      exact hsel c List.mem_cons_self
    rw [GraphArrays.lookup_links, if_neg hne, if_neg hnsel]
    apply hw.linked i hisi
    intro c' hc'
    exact hsel c' (List.mem_cons_of_mem _ hc')
  · intro hle
    apply GraphArrays.finalStore_represents _ hw.ids hal hle
    exact hw.represents ((Evolves.keeps hevolves).nextID_le.trans hle)

def Sound (w : Graphs) : Prop :=
  w.OwnershipSound ∧ ∃ isIndex log, w.DescriptorsSound isIndex log

theorem empty_sound : empty.Sound := by
  refine ⟨⟨?_, Ledger.balanced_empty, ?_, ?_⟩, fun _ => False, [], idsValid_init, ?_, ?_, ?_, ?_, ?_⟩
  · intro x y v u _ hx
    cases hx
  · intro a
    constructor
    · intro ha
      cases ha
    · rintro ⟨x, v, hx, -⟩
      cases hx
  · intro x v hx
    cases hx
  · intro _
    exact represents_init
  · exact fun _ hi => hi.elim
  · intro x v hx
    cases hx
  · intro x v hx
    cases hx
  · exact fun _ hi => hi.elim

theorem step_sound {op : GraphOp} (hw : w.Sound) (h : w.step op = some w') : w'.Sound := by
  obtain ⟨hown, isIndex, log, hdesc⟩ := hw
  cases op with
  | default x T =>
    simp only [step] at h
    split at h
    case h_1 hx =>
      cases h
      exact ⟨hown.default hx T, isIndex, log, hdesc.default T⟩
    case h_2 => cases h
  | construct x mem T numNodes arrays =>
    obtain ⟨g, hrun, harr, hshaped⟩ := arrays.run_construct mem T numNodes w.store
    simp only [step, hrun] at h
    split at h
    case h_1 g' s hx hg =>
      split_ifs at h with hc
      cases h
      cases hg
      obtain ⟨hnodup, hfresh⟩ := hc
      have hmem : ∀ a, a ∈ (g.withDescriptors w.store.next).ownedArrays ↔ a ∈ arrays.blocks := by
        intro a
        rw [harr a]
        exact and_iff_right_of_imp fun ha => (hfresh a ha).1
      constructor
      · apply hown.construct hx hmem hnodup fun a ha => (hfresh a ha).2
        exact hshaped hnodup fun a ha => (hfresh a ha).1
      · exact hdesc.construct g
    case h_2 => cases h
  | moved x y =>
    simp only [step] at h
    split at h
    case h_1 g hx hy =>
      cases h
      have he := g.moved_emptied
      exact ⟨hown.pass hx hy he, isIndex, log, hdesc.pass hy he⟩
    case h_2 => cases h
  | moveAssign x y =>
    simp only [step] at h
    split at h
    case h_1 g h' hx hy =>
      split_ifs at h with ht hxy
      · cases h
        exact ⟨hown, isIndex, log, hdesc⟩
      · have he := g.moveAssign_emptied h'
        have hpass := (hown.destroy hx).pass remove_self ((remove_of_ne (Ne.symm hxy)).trans hy) he
        simp only [put_remove] at hpass
        cases h
        rw [CSRGraph.moveAssign_fst ht, CSRGraph.moveAssign_deleted]
        exact ⟨hpass, isIndex, log, hdesc.pass hy he⟩
    case h_2 => cases h
  | destroy x =>
    simp only [step] at h
    split at h
    case h_1 g hx =>
      cases h
      exact ⟨hown.destroy hx, isIndex, log, hdesc.destroy⟩
    case h_2 => cases h
  | newDescriptor =>
    cases h
    exact ⟨⟨hown.exclusive, hown.balanced, hown.owned, hown.shaped⟩, isIndex, log,
      hdesc.newDescriptor⟩
  | createGraphJob x d kernelName selector consumer =>
    simp only [step] at h
    split at h
    case h_1 g hx =>
      split_ifs at h with hlive
      split at h
      case h_1 job t hrun =>
        cases h
        refine ⟨⟨hown.exclusive, hown.balanced, hown.owned, hown.shaped⟩, isIndex, ?_⟩
        exact hdesc.createGraphJob (c := ⟨d, g, kernelName, selector, consumer⟩) hx hlive hrun
      case h_2 => cases h
    case h_2 => cases h

theorem run_sound {ops : List GraphOp} (h : Runs.run step empty ops = some w) : w.Sound :=
  Runs.run_invariant (fun _ _ _ hw h => step_sound hw h) empty_sound h

theorem DescriptorsSound.describes (hw : w.DescriptorsSound isIndex log) (hx : w.live x = some g)
    (hne : g.ownedArrays ≠ []) :
    w.store.Describes g.getInIndexArrayDescriptor g.getInIndexAddressRange g.getInIndexElementSize ∧
    w.store.Describes g.getOutIndexArrayDescriptor g.getOutIndexAddressRange
      g.getOutIndexElementSize ∧
    w.store.Describes g.getInNeighborsArrayDescriptor g.getInNeighborsAddressRange
      g.getInNeighborsElementSize ∧
    w.store.Describes g.getOutNeighborsArrayDescriptor g.getOutNeighborsAddressRange
      g.getOutNeighborsElementSize := by
  obtain ⟨p, hg, hshown⟩ := hw.shown x g hx hne
  refine ⟨⟨p, ?_, hshown.inIndex⟩, ⟨p + 1, ?_, hshown.outIndex⟩, ⟨p + 2, ?_, hshown.inNeighbors⟩,
    p + 3, ?_, hshown.outNeighbors⟩
  all_goals
    rw [hg]
    rfl

theorem DescriptorsSound.linksTo (hw : w.DescriptorsSound isIndex log) (hx : w.live x = some g)
    (hne : g.ownedArrays ≠ []) (hle : w.store.nextID ≤ 2 ^ 64) (d : EdgeDirection)
    (hsel : ∀ c ∈ w.calls, c.selectorDescriptor ≠ g.indexOf d) :
    w.store.LinksTo (g.indexOf d) (g.neighborsOf d) := by
  obtain ⟨p, hg, -⟩ := hw.shown x g hx hne
  obtain ⟨i, hi⟩ : ∃ i, g.indexOf d = some i := by
    rw [hg]
    cases d <;> exact ⟨_, rfl⟩
  obtain ⟨n, hn⟩ : ∃ n, g.neighborsOf d = some n := by
    rw [hg]
    cases d <;> exact ⟨_, rfl⟩
  obtain ⟨hii, -, rfl, -⟩ := hw.sides x g hx d i n hi hn
  have hr := hw.represents hle
  have hlook := hw.linked i hii fun c hc => hi ▸ hsel c hc
  refine ⟨i, i + 2, hi, hn, ?_, ?_⟩
  · exact hr.named _ (lookup_mem hlook)
  · rw [hr.dst i (hw.index_lt i hii)]
    simp only [linkId, hlook]

theorem run_owns {ops : List GraphOp} (h : Runs.run step empty ops = some w) :
    (∀ x y g h, x ≠ y → w.live x = some g → w.live y = some h →
      g.ownedArrays.Disjoint h.ownedArrays) ∧
    (∀ x g, w.live x = some g → g.ownedArrays ⊆ w.heap.live) ∧
    w.heap.live.Nodup ∧ w.heap.given.Perm (w.heap.released ++ w.heap.live) ∧
    ((∀ x, w.live x = none) → w.heap.released.Perm w.heap.given) ∧
    ∀ x g, w.live x = some g → g.ownedArrays ≠ [] →
      (w.store.Describes g.getInIndexArrayDescriptor g.getInIndexAddressRange
          g.getInIndexElementSize ∧
        w.store.Describes g.getOutIndexArrayDescriptor g.getOutIndexAddressRange
          g.getOutIndexElementSize ∧
        w.store.Describes g.getInNeighborsArrayDescriptor g.getInNeighborsAddressRange
          g.getInNeighborsElementSize ∧
        w.store.Describes g.getOutNeighborsArrayDescriptor g.getOutNeighborsAddressRange
          g.getOutNeighborsElementSize) ∧
      (w.store.nextID ≤ 2 ^ 64 → ∀ d, (∀ c ∈ w.calls, c.selectorDescriptor ≠ g.indexOf d) →
        w.store.LinksTo (g.indexOf d) (g.neighborsOf d)) := by
  obtain ⟨hown, isIndex, log, hdesc⟩ := run_sound h
  refine ⟨hown.exclusive, ?_, hown.balanced.nodup, hown.balanced.perm, ?_, ?_⟩
  · intro x g hx a ha
    exact (hown.owned a).mpr ⟨x, g, hx, ha⟩
  · intro hnone
    have hnil : w.heap.live = [] := by
      apply List.eq_nil_iff_forall_not_mem.mpr
      intro a ha
      obtain ⟨x, g, hx, -⟩ := (hown.owned a).mp ha
      rw [hnone x] at hx
      cases hx
    have hperm := hown.balanced.perm
    rw [hnil, List.append_nil] at hperm
    exact hperm.symm
  · intro x g hx hne
    exact ⟨hdesc.describes hx hne, fun hle d hsel => hdesc.linksTo hx hne hle d hsel⟩

def assignedRun : List GraphOp :=
  [.construct 0 CSRGraph.loopMemory intType 1 (.undirected 4096 8192),
    .construct 1 CSRGraph.loopMemory intType 1 (.directed 12288 16384 20480 24576),
    .moveAssign 0 1, .destroy 0]

theorem run_owns_assignedRun : ∃ w, Runs.run step empty assignedRun = some w ∧
    w.heap.given.Perm (w.heap.released ++ w.heap.live) := by
  obtain ⟨w, hrun⟩ : ∃ w, Runs.run step empty assignedRun = some w := ⟨_, rfl⟩
  exact ⟨w, hrun, (run_owns hrun).2.2.2.1⟩

end Graphs

end PickleDevice
