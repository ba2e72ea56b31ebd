import PickleDevice.GraphJobs
import PickleDevice.GraphRanges

namespace PickleDevice

namespace Store

def Shows (s : Store) (q : ℕ) (range : AddressRange) (size : UInt64) : Prop :=
  (s.desc q).addressRange = range ∧ (s.desc q).elementSize = size

structure KeepsRanges (s t : Store) : Prop where
  next_le : s.next ≤ t.next
  range : ∀ q < s.next, (t.desc q).addressRange = (s.desc q).addressRange
  elementSize : ∀ q < s.next, (t.desc q).elementSize = (s.desc q).elementSize

variable {s t u : Store} {f : PickleArrayDescriptor → PickleArrayDescriptor}

theorem KeepsRanges.refl (s : Store) : s.KeepsRanges s := ⟨le_rfl, fun _ _ => rfl, fun _ _ => rfl⟩

theorem KeepsRanges.trans (h : s.KeepsRanges t) (h' : t.KeepsRanges u) : s.KeepsRanges u := by
  refine ⟨h.next_le.trans h'.next_le, ?_, ?_⟩
  · intro q hq
    rw [h'.range q (hq.trans_le h.next_le), h.range q hq]
  · intro q hq
    rw [h'.elementSize q (hq.trans_le h.next_le), h.elementSize q hq]

theorem Shows.keeps {q : ℕ} {range : AddressRange} {size : UInt64} (h : s.Shows q range size)
    (hk : s.KeepsRanges t) (hq : q < s.next) : t.Shows q range size :=
  ⟨(hk.range q hq).trans h.1, (hk.elementSize q hq).trans h.2⟩

theorem keepsRanges_of_desc_eq (hn : s.next ≤ t.next) (h : ∀ q < s.next, t.desc q = s.desc q) :
    s.KeepsRanges t := by
  refine ⟨hn, ?_, ?_⟩
  · intro q hq
    rw [h q hq]
  · intro q hq
    rw [h q hq]

theorem keepsRanges_modify (s : Store) (p : ℕ) (hr : ∀ d, (f d).addressRange = d.addressRange)
    (he : ∀ d, (f d).elementSize = d.elementSize) : s.KeepsRanges (s.modify p f) := by
  refine ⟨le_rfl, ?_, ?_⟩
  · intro q _
    rw [modify_desc_apply]
    split
    · exact hr _
    · rfl
  · intro q _
    rw [modify_desc_apply]
    split
    · exact he _
    · rfl

theorem keepsRanges_withId (s : Store) (p : ℕ) : s.KeepsRanges (s.withId p) := by
  refine ⟨le_of_eq withId_next.symm, ?_, ?_⟩
  · intro q _
    rw [withId_desc]
    rfl
  · intro q _
    rw [withId_desc]

theorem keepsRanges_linked (s : Store) (p q : ℕ) : s.KeepsRanges (s.linked p q) :=
  (keepsRanges_withId s q).trans (keepsRanges_modify _ p (fun _ => rfl) fun _ => rfl)

theorem keepsRanges_alloc (s : Store) : s.KeepsRanges s.alloc := by
  apply keepsRanges_of_desc_eq (Nat.le_succ _)
  intro q hq
  exact alloc_desc_of_ne (Nat.ne_of_lt hq)

theorem keepsRanges_allocDescribed (s : Store) (start stop size : UInt64) :
    s.KeepsRanges (s.allocDescribed start stop size) := by
  apply keepsRanges_of_desc_eq (Nat.le_succ _)
  intro q hq
  rw [allocDescribed_desc, if_neg (Nat.ne_of_lt hq)]

theorem keepsRanges_constructedStore (g : CSRGraph) (s : Store) :
    s.KeepsRanges (g.constructedStore s) := by
  apply keepsRanges_of_desc_eq
  · rw [CSRGraph.constructedStore_next]
    exact Nat.le_add_right _ _
  · intro q hq
    exact g.constructedStore_desc_of_lt s hq

theorem keepsRanges_finalStore (a : GraphArrays) (s : Store) : s.KeepsRanges (a.finalStore s) := by
  have hadd : s.KeepsRanges (a.addedStore s) :=
    (keepsRanges_withId s a.index).trans (keepsRanges_withId _ a.neighbors)
  have hsel : s.KeepsRanges (a.selectedStore s) := by
    unfold GraphArrays.selectedStore
    cases a.selector with
    | none => exact hadd
    | some p => exact hadd.trans ((keepsRanges_withId _ p).trans (keepsRanges_linked _ p a.index))
  unfold GraphArrays.finalStore
  cases a.consumer with
  | none => exact hsel
  | some c => exact hsel.trans ((keepsRanges_withId _ c).trans (keepsRanges_linked _ a.neighbors c))

end Store

namespace CSRGraph

variable {g : CSRGraph} {s t : Store} {p : ℕ}

structure ShownAt (g : CSRGraph) (s : Store) (p : ℕ) : Prop where
  lt : p + 3 < s.next
  inIndex : s.Shows p g.getInIndexAddressRange g.getInIndexElementSize
  outIndex : s.Shows (p + 1) g.getOutIndexAddressRange g.getOutIndexElementSize
  inNeighbors : s.Shows (p + 2) g.getInNeighborsAddressRange g.getInNeighborsElementSize
  outNeighbors : s.Shows (p + 3) g.getOutNeighborsAddressRange g.getOutNeighborsElementSize

theorem ShownAt.keeps (h : g.ShownAt s p) (hk : s.KeepsRanges t) : g.ShownAt t p := by
  have hlt := h.lt
  constructor
  · exact hlt.trans_le hk.next_le
  · exact h.inIndex.keeps hk (by omega)
  · exact h.outIndex.keeps hk (by omega)
  · exact h.inNeighbors.keeps hk (by omega)
  · exact h.outNeighbors.keeps hk (by omega)

theorem shownAt_constructedStore (g : CSRGraph) (s : Store) :
    (g.withDescriptors s.next).ShownAt (g.constructedStore s) s.next := by
  obtain ⟨hii, hoi, hin, hon, -⟩ := g.constructedStore_new s
  obtain ⟨hii', hoi', hin', hon', -⟩ := g.describedStore_new s
  constructor
  · rw [constructedStore_next]
    omega
  · rw [Store.Shows, hii, hii']
    exact ⟨rfl, rfl⟩
  · rw [Store.Shows, hoi, hoi']
    exact ⟨rfl, rfl⟩
  · rw [Store.Shows, hin, hin']
    exact ⟨rfl, rfl⟩
  · rw [Store.Shows, hon, hon']
    exact ⟨rfl, rfl⟩

end CSRGraph

end PickleDevice
