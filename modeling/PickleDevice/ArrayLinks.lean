import PickleDevice.JobFormat

/-!
The links between arrays, apart from the ids that carry them: a log of the links
made, what it says of every destination id in the store, and the links that the
bytes of a job show.
-/

namespace PickleDevice

open StateEffect Store Renaming

/-- The links made, each from the first array to the second, the newest first. -/
abbrev LinkLog := List (ℕ × ℕ)

namespace Store

def linkId (s : Store) (log : LinkLog) (p : Ptr) : UInt64 :=
  match log.lookup p with
  | some q => (s.desc q).arrayId
  | none => noDestination

structure Represents (s : Store) (log : LinkLog) : Prop where
  dst : ∀ p < s.next, (s.desc p).dstIndexingArrayId = s.linkId log p
  live : ∀ l ∈ log, l.1 < s.next ∧ l.2 < s.next
  named : ∀ l ∈ log, (s.desc l.2).arrayId ≠ unassignedID

structure KeepsLinks (s t : Store) : Prop where
  evolves : Evolves s t
  dst : ∀ p < s.next, (t.desc p).dstIndexingArrayId = (s.desc p).dstIndexingArrayId
  fresh : ∀ p, s.next ≤ p → p < t.next → (t.desc p).dstIndexingArrayId = noDestination

variable {s t u : Store} {log : LinkLog} {p q : ℕ}

theorem represents_init : init.Represents [] :=
  ⟨fun _ h => absurd h (Nat.not_lt_zero _), by simp, by simp⟩

theorem KeepsLinks.refl (s : Store) : s.KeepsLinks s :=
  ⟨.refl, fun _ _ => rfl, fun _ h h' => absurd h' (Nat.not_lt.mpr h)⟩

theorem KeepsLinks.trans (h : s.KeepsLinks t) (h' : t.KeepsLinks u) : s.KeepsLinks u := by
  have hn := (Evolves.keeps h.evolves).next_le
  refine ⟨Relation.ReflTransGen.trans h.evolves h'.evolves, ?_, ?_⟩
  · intro p hp
    rw [h'.dst p (hp.trans_le hn), h.dst p hp]
  · intro p hp hpu
    by_cases hpt : p < t.next
    · rw [h'.dst p hpt, h.fresh p hp hpt]
    · exact h'.fresh p (Nat.not_lt.mp hpt) hpu

theorem keepsLinks_withId (s : Store) (p : Ptr) : s.KeepsLinks (s.withId p) := by
  refine ⟨.single (.getArrayId s p), ?_, ?_⟩
  · intro q _
    rw [withId_desc]
  · intro q hq hlt
    rw [withId_next] at hlt
    omega

theorem keepsLinks_alloc (s : Store) : s.KeepsLinks s.alloc := by
  refine ⟨.single (.newDescriptor s), ?_, ?_⟩
  · intro q hq
    rw [alloc_desc_of_ne (Nat.ne_of_lt hq)]
  · intro q hq hlt
    rw [alloc_next] at hlt
    obtain rfl : q = s.next := by omega
    rw [alloc_desc]
    rfl

theorem keepsLinks_modify {f : PickleArrayDescriptor → PickleArrayDescriptor} (s : Store) (p : Ptr)
    (hid : ∀ d, (f d).arrayId = d.arrayId)
    (hdst : ∀ d, (f d).dstIndexingArrayId = d.dstIndexingArrayId) : s.KeepsLinks (s.modify p f) := by
  refine ⟨.single (.write s p f hid), ?_, ?_⟩
  · intro q _
    rw [modify_desc_apply]
    split
    · exact hdst _
    · rfl
  · intro q hq hlt
    rw [modify_next] at hlt
    omega

theorem keepsLinks_allocDescribed (s : Store) (start stop size : UInt64) :
    s.KeepsLinks (s.allocDescribed start stop size) :=
  (keepsLinks_alloc s).trans (keepsLinks_modify s.alloc s.next (fun _ => rfl) (fun _ => rfl))

theorem lookup_cons_of_ne {r : ℕ} (h : p ≠ q) : ((q, r) :: log).lookup p = log.lookup p := by
  rw [List.lookup_cons, beq_false_of_ne h]

theorem lookup_mem (h : log.lookup p = some q) : (p, q) ∈ log := by
  obtain ⟨l, l', rfl, -⟩ := List.lookup_eq_some_iff.mp h
  simp

theorem Represents.live_of_lookup (h : s.Represents log) (hq : log.lookup p = some q) :
    p < s.next ∧ q < s.next := h.live _ (lookup_mem hq)

theorem Represents.lookup_fresh (h : s.Represents log) (hp : s.next ≤ p) : log.lookup p = none := by
  cases hl : log.lookup p with
  | none => rfl
  | some q => exact absurd (h.live_of_lookup hl).1 (Nat.not_lt.mpr hp)

theorem Represents.keeps (h : s.Represents log) (hk : s.KeepsLinks t) : t.Represents log := by
  have hkeep := Evolves.keeps hk.evolves
  have hid : ∀ l ∈ log, (t.desc l.2).arrayId = (s.desc l.2).arrayId := fun l hl =>
    hkeep.arrayId l.2 (h.live l hl).2 (h.named l hl)
  constructor
  · intro p hp
    cases hlook : log.lookup p with
    | none =>
      have hnone : ∀ u : Store, u.linkId log p = noDestination := fun u => by simp [linkId, hlook]
      by_cases hps : p < s.next
      · rw [hk.dst p hps, h.dst p hps, hnone, hnone]
      · rw [hk.fresh p (Nat.not_lt.mp hps) hp, hnone]
    | some q =>
      have hps := (h.live_of_lookup hlook).1
      rw [hk.dst p hps, h.dst p hps]
      simp only [linkId, hlook]
      exact (hid _ (lookup_mem hlook)).symm
  · intro l hl
    have hn := hkeep.next_le
    have := h.live l hl
    omega
  · intro l hl
    rw [hid l hl]
    exact h.named l hl

theorem linked_arrayId : ((s.linked p q).desc q).arrayId = s.idOf q := by
  rw [linked, modify_desc_apply]
  split_ifs
  · exact withId_arrayId
  · exact withId_arrayId

theorem Represents.link (h : s.Represents log) (hs : s.IdsValid) (hp : p < s.next) (hq : q < s.next)
    (hw : (s.linked p q).nextID ≤ 2 ^ 64) : (s.linked p q).Represents ((p, q) :: log) := by
  have hid := idOf_ne_unassigned q hs hw
  have hkeep := Evolves.keeps (linked_evolves s p q)
  have hids : ∀ l ∈ log, ((s.linked p q).desc l.2).arrayId = (s.desc l.2).arrayId := fun l hl =>
    hkeep.arrayId l.2 (h.live l hl).2 (h.named l hl)
  constructor
  · intro r hr
    by_cases hrp : r = p
    · subst hrp
      simp only [linkId, List.lookup_cons_self, linked_arrayId]
      rw [linked, modify_desc]
      rfl
    · have hdst : ((s.linked p q).desc r).dstIndexingArrayId = (s.desc r).dstIndexingArrayId := by
        rw [linked, modify_desc_of_ne hrp, withId_desc]
      rw [linked_next] at hr
      rw [hdst, h.dst r hr]
      have hlook : ((p, q) :: log).lookup r = log.lookup r := lookup_cons_of_ne hrp
      simp only [linkId, hlook]
      cases hl : log.lookup r with
      | none => rfl
      | some r' => exact (hids _ (lookup_mem hl)).symm
  · rintro l (_ | ⟨_, hl⟩)
    · simpa using ⟨hp, hq⟩
    · simpa using h.live l hl
  · rintro l (_ | ⟨_, hl⟩)
    · rwa [linked_arrayId]
    · rw [hids l hl]
      exact h.named l hl

end Store

def readLinks (bytes : List UInt8) : List (UInt64 × UInt64) :=
  (List.range (bytes.headD 0).toNat).map fun i => (fieldAt bytes i 0, fieldAt bytes i 1)

theorem readLinks_serialize (kernelName : List UInt8) {rs : List Record} (h : rs.length < 256) :
    readLinks (serialize kernelName rs) = rs.map fun r => (r.id, r.dst) := by
  have hcount : ((serialize kernelName rs).headD 0).toNat = rs.length := by
    simp only [serialize, List.headD_cons, UInt8.toNat_ofNat']
    exact Nat.mod_eq_of_lt h
  rw [readLinks, hcount]
  apply List.ext_getElem (by simp)
  intro i hi _
  have hir : i < rs.length := by simpa using hi
  simp [fieldAt_serialize kernelName rs i _ hir, Record.words]

def positionOf (arrays : List ℕ) (q : ℕ) : Option UInt64 :=
  (lastPosition arrays q).map UInt64.ofNat

def encodeLink (log : LinkLog) (arrays : List ℕ) (p : ℕ) : Option (UInt64 × UInt64) := do
  let id ← positionOf arrays p
  let dst ← (log.lookup p).elim (some noDestination) (positionOf arrays)
  return (id, dst)

def encodeLinks (log : LinkLog) (arrays : List ℕ) : Option (List (UInt64 × UInt64)) :=
  arrays.mapM (encodeLink log arrays)

theorem encodeLink_of_none {log : LinkLog} {arrays : List ℕ} {p : ℕ} {id : UInt64}
    (hid : positionOf arrays p = some id) (hl : log.lookup p = none) :
    encodeLink log arrays p = some (id, noDestination) := by
  simp [encodeLink, hid, hl]

theorem encodeLink_of_some {log : LinkLog} {arrays : List ℕ} {p q : ℕ} {id dst : UInt64}
    (hid : positionOf arrays p = some id) (hl : log.lookup p = some q)
    (hdst : positionOf arrays q = some dst) : encodeLink log arrays p = some (id, dst) := by
  simp [encodeLink, hid, hl, hdst]

theorem lookup_of_encodeLink {log : LinkLog} {arrays : List ℕ} {p : ℕ} {id : UInt64}
    (hlen : arrays.length < 2 ^ 64) (h : encodeLink log arrays p = some (id, noDestination)) :
    log.lookup p = none := by
  cases hl : log.lookup p with
  | none => rfl
  | some q =>
    obtain ⟨id', dst, hq, he⟩ : ∃ id' dst, positionOf arrays q = some dst ∧
        (id', dst) = (id, noDestination) := by
      cases hid : positionOf arrays p with
      | none => simp [encodeLink, hid] at h
      | some id' =>
        cases hq : positionOf arrays q with
        | none => simp [encodeLink, hid, hl, hq] at h
        | some dst => exact ⟨id', dst, rfl, by simpa [encodeLink, hid, hl, hq] using h⟩
    obtain ⟨j, hj, rfl⟩ := Option.map_eq_some_iff.mp hq
    have hlt := lastPosition_lt hj
    have hnat := congrArg UInt64.toNat (Prod.mk.inj he).2
    rw [UInt64.toNat_ofNat', Nat.mod_eq_of_lt (by omega)] at hnat
    have hd : noDestination.toNat = 2 ^ 64 - 1 := by decide
    omega

theorem mapM_map_option {α β γ : Type} (f : α → Option β) (g : β → γ) (l : List α) :
    (l.mapM f).map (List.map g) = l.mapM fun a => (f a).map g := by
  induction l with
  | nil => rfl
  | cons a l ih =>
    rw [List.mapM_cons, List.mapM_cons, ← ih]
    cases f a with
    | none => rfl
    | some b => cases l.mapM f <;> rfl

theorem mapM_congr_option {α β : Type} {f g : α → Option β} {l : List α} (h : ∀ a ∈ l, f a = g a) :
    l.mapM f = l.mapM g := by
  induction l with
  | nil => rfl
  | cons a l ih =>
    rw [List.mapM_cons, List.mapM_cons, h a List.mem_cons_self,
      ih fun b hb => h b (List.mem_cons_of_mem a hb)]

namespace PickleJob

variable {kernelName : List UInt8} {added : List Ptr} {job : PickleJob} {s : Store} {log : LinkLog}

theorem arrayRenameMap_arrayId (hb : Built kernelName added job s) (hw : s.nextID < 2 ^ 64) (q : ℕ) :
    job.arrayRenameMap (s.desc q).arrayId = positionOf job.arrays q := by
  have ha := hb.assigned hw.le
  have hids := hb.wellBuilt.reachable.idsValid
  have hpos : lastPosition (job.ids s) (s.desc q).arrayId = lastPosition job.arrays q :=
    lastPosition_map_of fun p hp he => hids.distinct hw.le p q (hb.wellBuilt.named ha p hp) he
  rw [hb.wellBuilt.map ha, positionOf]
  by_cases hmem : (s.desc q).arrayId ∈ job.ids s
  · obtain ⟨i, hi, hr⟩ := renamed_mem hmem
    rw [hr, ← hpos, hi]
    rfl
  · rw [renamed_not_mem hmem, if_neg (arrayId_ne_noDestination q hids hw), ← hpos,
      lastPosition_none.mpr hmem]
    rfl

theorem arrayRenameMap_noDestination (hb : Built kernelName added job s) (hw : s.nextID < 2 ^ 64) :
    job.arrayRenameMap noDestination = some noDestination := by
  have hmem : noDestination ∉ job.ids s :=
    noDestination_not_mem_ids hb.wellBuilt.reachable hw job.arrays
  rw [hb.wellBuilt.map (hb.assigned hw.le), renamed_not_mem hmem, if_pos rfl]

theorem record?_links (hb : Built kernelName added job s) (hw : s.nextID < 2 ^ 64)
    (hr : s.Represents log) {p : ℕ} (hp : p ∈ job.arrays) :
    (s.record? job.arrayRenameMap p).map (fun r => (r.id, r.dst)) =
      encodeLink log job.arrays p := by
  have hdst : job.arrayRenameMap (s.desc p).dstIndexingArrayId =
      (log.lookup p).elim (some noDestination) (positionOf job.arrays) := by
    rw [hr.dst p (hb.wellBuilt.live p hp), linkId]
    cases hl : log.lookup p with
    | none => exact arrayRenameMap_noDestination hb hw
    | some q => exact arrayRenameMap_arrayId hb hw q
  have hid := arrayRenameMap_arrayId hb hw p
  rw [Store.record?, encodeLink, hid, hdst]
  cases positionOf job.arrays p with
  | none => rfl
  | some id => cases (log.lookup p).elim (some noDestination) (positionOf job.arrays) <;> rfl

theorem getJobDescriptor_links (hb : Built kernelName added job s) (hw : s.nextID < 2 ^ 64)
    (hr : s.Represents log) (hlen : job.arrays.length < 256) (links : List (UInt64 × UInt64)) :
    (∃ bytes, run job.getJobDescriptor s = (.ok bytes, s) ∧ readLinks bytes = links) ↔
      encodeLinks log job.arrays = some links := by
  have hmap : (job.records? s).map (List.map fun r => (r.id, r.dst)) =
      encodeLinks log job.arrays := by
    rw [records?, mapM_map_option]
    exact mapM_congr_option fun p hp => record?_links hb hw hr hp
  rw [run_getJobDescriptor_of_assigned (hb.wellBuilt.named (hb.assigned hw.le)), ← hmap]
  cases hrs : job.records? s with
  | none => simp
  | some rs =>
    have hrlen : rs.length < 256 := by
      have := congrArg List.length (mapM_eq_some.mp hrs)
      simp only [List.length_map] at this
      omega
    simp [readLinks_serialize job.kernelName hrlen]

end PickleJob

end PickleDevice
