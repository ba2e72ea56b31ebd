import PickleDevice.GraphJobs

namespace PickleDevice

open Renaming

def chainLinks (selector consumer : Bool) : List (UInt64 × UInt64) :=
  let last : UInt64 := if selector then 3 else 2
  [(0, 1), (1, if consumer then last else noDestination)] ++
    (if selector then [(2, 0)] else []) ++ (if consumer then [(last, noDestination)] else [])

namespace GraphArrays

variable {a : GraphArrays} {log : LinkLog}

structure Distinct (a : GraphArrays) : Prop where
  neighbors : a.index ≠ a.neighbors
  selector : ∀ p ∈ a.selector, p ≠ a.index ∧ p ≠ a.neighbors
  consumer : ∀ p ∈ a.consumer, p ≠ a.index ∧ p ≠ a.neighbors

theorem arrays_length (a : GraphArrays) : a.arrays.length < 256 := by
  unfold arrays
  cases a.selector <;> cases a.consumer <;> simp

theorem encodeLinks_eq_some {links : List (UInt64 × UInt64)} :
    encodeLinks log a.arrays = some links ↔
      a.arrays.map (encodeLink log a.arrays) = links.map some := mapM_eq_some

theorem lookup_links (a : GraphArrays) (log : LinkLog) (q : ℕ) : (a.links ++ log).lookup q =
    ((if q = a.neighbors then a.consumer else none).or
      (if a.selector = some q then some a.index else none)).or (log.lookup q) := by
  unfold links
  cases a.consumer with
  | none =>
    cases a.selector with
    | none => simp
    | some p =>
      by_cases hp : q = p
      · subst hp
        simp
      · have hp' : some p ≠ some q := by simpa using Ne.symm hp
        simp [List.lookup_cons, beq_false_of_ne hp, hp']
  | some c =>
    by_cases hn : q = a.neighbors
    · subst hn
      simp
    · cases a.selector with
      | none => simp [List.lookup_cons, beq_false_of_ne hn, hn]
      | some p =>
        by_cases hp : q = p
        · subst hp
          simp [List.lookup_cons, beq_false_of_ne hn, hn]
        · have hp' : some p ≠ some q := by simpa using Ne.symm hp
          simp [List.lookup_cons, beq_false_of_ne hn, beq_false_of_ne hp, hn, hp']

theorem lookup_links_eq_none (a : GraphArrays) (log : LinkLog) (q : ℕ) :
    (a.links ++ log).lookup q = none ↔
      (q = a.neighbors → a.consumer = none) ∧ a.selector ≠ some q ∧ log.lookup q = none := by
  rw [lookup_links, Option.or_eq_none_iff, Option.or_eq_none_iff, and_assoc]
  simp

theorem chain_end (h : encodeLinks (a.links ++ log) a.arrays =
      some (chainLinks a.selector.isSome a.consumer.isSome)) :
    (a.consumer = none → log.lookup a.neighbors = none) ∧
      ∀ c, a.consumer = some c → a.selector ≠ some c ∧ log.lookup c = none := by
  have hlen : a.arrays.length < 2 ^ 64 := a.arrays_length.trans (by decide)
  have hmap := encodeLinks_eq_some.mp h
  constructor
  · intro hc
    have hn : encodeLink (a.links ++ log) a.arrays a.neighbors = some (1, noDestination) := by
      have hat := congrArg (·[1]?) hmap
      simpa [arrays, hc, chainLinks] using hat
    exact ((lookup_links_eq_none a log _).mp (lookup_of_encodeLink hlen hn)).2.2
  · intro c hc
    have hlast : ∃ id, encodeLink (a.links ++ log) a.arrays c = some (id, noDestination) := by
      have hat := congrArg (·.getLast?) hmap
      cases hs : a.selector with
      | none => exact ⟨2, by simpa [arrays, hc, hs, chainLinks] using hat⟩
      | some p => exact ⟨3, by simpa [arrays, hc, hs, chainLinks] using hat⟩
    obtain ⟨id, hid⟩ := hlast
    exact ((lookup_links_eq_none a log c).mp (lookup_of_encodeLink hlen hid)).2

theorem arrays_nodup (hd : a.Distinct) (hc : ∀ c, a.consumer = some c → a.selector ≠ some c) :
    a.arrays.Nodup := by
  have hin := hd.neighbors
  unfold arrays
  cases hs : a.selector with
  | none =>
    cases hcs : a.consumer with
    | none => simpa using hin
    | some c =>
      obtain ⟨hci, hcn⟩ := hd.consumer c hcs
      simp [hin, hci.symm, hcn.symm]
  | some p =>
    obtain ⟨hpi, hpn⟩ := hd.selector p hs
    cases hcs : a.consumer with
    | none => simp [hin, hpi.symm, hpn.symm]
    | some c =>
      obtain ⟨hci, hcn⟩ := hd.consumer c hcs
      have hpc : p ≠ c := by simpa [hs] using hc c hcs
      simp [hin, hpi.symm, hpn.symm, hci.symm, hcn.symm, hpc]

theorem positionOf_nodup {l : List ℕ} (hnd : l.Nodup) {k q : ℕ} (hk : l[k]? = some q) :
    positionOf l q = some (UInt64.ofNat k) := by
  obtain ⟨hlt, rfl⟩ := List.getElem?_eq_some_iff.mp hk
  rw [positionOf, lastPosition_nodup hnd hlt]
  rfl

theorem encodeLinks_chain (hd : a.Distinct) (hi : log.lookup a.index = some a.neighbors)
    (hn : a.consumer = none → log.lookup a.neighbors = none)
    (hc : ∀ c, a.consumer = some c → a.selector ≠ some c ∧ log.lookup c = none) :
    encodeLinks (a.links ++ log) a.arrays =
      some (chainLinks a.selector.isSome a.consumer.isSome) := by
  have hin := hd.neighbors
  have hindex : (a.links ++ log).lookup a.index = some a.neighbors := by
    have hs : a.selector ≠ some a.index := fun hs => (hd.selector _ hs).1 rfl
    rw [lookup_links, if_neg hin, if_neg hs, hi]
    rfl
  have hneighbors : (a.links ++ log).lookup a.neighbors = a.consumer := by
    have hs : a.selector ≠ some a.neighbors := fun hs => (hd.selector _ hs).2 rfl
    rw [lookup_links, if_pos rfl, if_neg hs]
    cases hcon : a.consumer with
    | none => simpa using hn hcon
    | some c => rfl
  have hselector : ∀ p ∈ a.selector, (a.links ++ log).lookup p = some a.index := by
    intro p (hp : a.selector = some p)
    rw [lookup_links, if_neg (hd.selector p hp).2, if_pos hp]
    rfl
  have hconsumer : ∀ c ∈ a.consumer, (a.links ++ log).lookup c = none := fun c hcon =>
    (lookup_links_eq_none a log c).mpr ⟨fun h => absurd h (hd.consumer c hcon).2, hc c hcon⟩
  have hpos : ∀ k q, a.arrays[k]? = some q → positionOf a.arrays q = some (UInt64.ofNat k) :=
    fun _ _ => positionOf_nodup (arrays_nodup hd fun c hcon => (hc c hcon).1)
  have hi0 := hpos 0 a.index (by simp [arrays])
  have hn1 := hpos 1 a.neighbors (by simp [arrays])
  have hilink := encodeLink_of_some hi0 hindex hn1
  rw [encodeLinks_eq_some]
  cases hs : a.selector with
  | none =>
    cases hcs : a.consumer with
    | none =>
      have hnlink := encodeLink_of_none hn1 (hneighbors.trans hcs)
      generalize encodeLink (a.links ++ log) a.arrays = link at *
      simp [arrays, hs, hcs, chainLinks, hilink, hnlink]
    | some c =>
      have hc2 := hpos 2 c (by simp [arrays, hs, hcs])
      have hnlink := encodeLink_of_some hn1 (hneighbors.trans hcs) hc2
      have hclink := encodeLink_of_none hc2 (hconsumer c hcs)
      generalize encodeLink (a.links ++ log) a.arrays = link at *
      simp [arrays, hs, hcs, chainLinks, hilink, hnlink, hclink]
  | some p =>
    have hp2 := hpos 2 p (by simp [arrays, hs])
    have hplink := encodeLink_of_some hp2 (hselector p hs) hi0
    cases hcs : a.consumer with
    | none =>
      have hnlink := encodeLink_of_none hn1 (hneighbors.trans hcs)
      generalize encodeLink (a.links ++ log) a.arrays = link at *
      simp [arrays, hs, hcs, chainLinks, hilink, hnlink, hplink]
    | some c =>
      have hc3 := hpos 3 c (by simp [arrays, hs, hcs])
      have hnlink := encodeLink_of_some hn1 (hneighbors.trans hcs) hc3
      have hclink := encodeLink_of_none hc3 (hconsumer c hcs)
      generalize encodeLink (a.links ++ log) a.arrays = link at *
      simp [arrays, hs, hcs, chainLinks, hilink, hnlink, hplink, hclink]

end GraphArrays

end PickleDevice
