import PickleDevice.ManagerRuns
import Mathlib.Data.List.Perm.Basic

namespace PickleDevice

open Interaction Program PickleDeviceManager Runs

def mappedPage : SysEvent → Option (UInt64 × ℕ)
  | ⟨.mmap length _, ptr⟩ => if ptr = mapFailed then none else some (ptr, length)
  | _ => none

def unmappedPage : SysEvent → Option (UInt64 × ℕ)
  | ⟨.munmap addr length, _⟩ => some (addr, length)
  | _ => none

def mappedPages (calls : List CallTrace) : List (UInt64 × ℕ) :=
  calls.flatMap fun c => c.trace.filterMap mappedPage

theorem mappedPages_append (calls : List CallTrace) (c : CallTrace) :
    mappedPages (calls ++ [c]) = mappedPages calls ++ c.trace.filterMap mappedPage := by
  simp [mappedPages]

theorem mappedPage_mmap {ptr : UInt64} (h : ptr ≠ mapFailed) (length : ℕ) (fd : ℤ) :
    mappedPage ⟨.mmap length fd, ptr⟩ = some (ptr, length) := if_neg h

section Traces

variable {trace : List SysEvent}

theorem CommandTrace.mappedPages (h : CommandTrace trace) : trace.filterMap mappedPage = [] := by
  cases h with
  | none => rfl
  | notOpened hfd => rfl
  | @closed fd c hfd writes =>
    rw [List.filterMap_cons_none rfl, List.filterMap_append, List.filterMap_map]
    simp [mappedPage, Function.comp_def]

theorem MapRun.mappedPages {mmapId ptr paddr : UInt64} {ok : Bool} (hptr : ptr ≠ mapFailed)
    (h : MapRun mmapId ptr paddr trace ok) : trace.filterMap mappedPage = [(ptr, 4096)] := by
  cases h with
  | @mapped fd fd' c t ok hfd hfd' h =>
    have ht : t.filterMap mappedPage = [] := h.trace.mappedPages
    rw [List.filterMap_append, ht, List.append_nil]
    exact List.filterMap_cons_some (mappedPage_mmap hptr 4096 fd)

end Traces

def PickleDeviceManager.pages (m : PickleDeviceManager) (ids : List UInt64) : List (UInt64 × ℕ) :=
  ids.map (fun mmapId => ((m.mmapIdToUcPtrMap mmapId).getD 0, 4096)) ++
    if m.perfPagePtr = 0 then [] else [(m.perfPagePtr, 8192)]

structure HoldsMapped (calls : List CallTrace) (m : PickleDeviceManager) (ids : List UInt64) :
    Prop where
  nodup : ids.Nodup
  mem : ∀ mmapId, mmapId ∈ ids ↔ m.mmapIdToUcPtrMap mmapId ≠ none
  placed : ∀ mmapId, m.mmapIdToUcPtrMap mmapId ≠ some 0
  pages : (mappedPages calls).Perm (m.pages ids)

namespace HoldsMapped

variable {calls : List CallTrace} {m m' : PickleDeviceManager} {ids : List UInt64} {c : CallTrace}

theorem same (h : HoldsMapped calls m ids) (htrace : c.trace.filterMap mappedPage = []) :
    HoldsMapped (calls ++ [c]) m ids := by
  refine ⟨h.nodup, h.mem, h.placed, ?_⟩
  rw [mappedPages_append, htrace, List.append_nil]
  exact h.pages

theorem registered (h : HoldsMapped calls m ids) {mmapId ptr paddr : UInt64}
    (hnone : m.mmapIdToUcPtrMap mmapId = none) (hplaced : ptr ≠ 0)
    (htrace : c.trace.filterMap mappedPage = [(ptr, 4096)]) :
    HoldsMapped (calls ++ [c]) (m.registerUncacheablePage mmapId ptr paddr) (mmapId :: ids) := by
  have hself := registerUncacheablePage_ptr m mmapId ptr paddr
  have hother : ∀ id ≠ mmapId, (m.registerUncacheablePage mmapId ptr paddr).mmapIdToUcPtrMap id =
      m.mmapIdToUcPtrMap id := fun id hid => UnorderedMap.insert_of_ne _ _ hid
  have hnew : mmapId ∉ ids := fun hmem => (h.mem mmapId).mp hmem hnone
  refine ⟨List.nodup_cons.mpr ⟨hnew, h.nodup⟩, ?_, ?_, ?_⟩
  · intro id
    by_cases hid : id = mmapId
    · subst hid
      simp [hself]
    · simp [hother id hid, hid, h.mem]
  · intro id
    by_cases hid : id = mmapId
    · subst hid
      simpa [hself] using hplaced
    · rw [hother id hid]
      exact h.placed id
  · have hids : ids.map (fun id =>
        (((m.registerUncacheablePage mmapId ptr paddr).mmapIdToUcPtrMap id).getD 0, 4096)) =
        ids.map fun id => ((m.mmapIdToUcPtrMap id).getD 0, 4096) := by
      apply List.map_congr_left
      intro id hmem
      rw [hother id fun he => hnew (he ▸ hmem)]
    rw [mappedPages_append, htrace, PickleDeviceManager.pages, List.map_cons, hself, hids]
    exact (List.perm_append_singleton _ _).trans (h.pages.cons _)

theorem perfMapped (h : HoldsMapped calls m ids) (hperf : m.perfPagePtr = 0) {ptr : UInt64}
    (hplaced : ptr ≠ 0) (htrace : c.trace.filterMap mappedPage = [(ptr, 8192)]) :
    HoldsMapped (calls ++ [c]) { m with perfPagePtr := ptr } ids := by
  refine ⟨h.nodup, h.mem, h.placed, ?_⟩
  have hpages := h.pages
  rw [PickleDeviceManager.pages, if_pos hperf, List.append_nil] at hpages
  rw [mappedPages_append, htrace, PickleDeviceManager.pages, if_neg hplaced]
  exact hpages.append_right _

theorem step (h : HoldsMapped calls m ids) (hc : CallCases m c m') (hp : ∀ e ∈ c.trace, Placed e) :
    ∃ ids', HoldsMapped (calls ++ [c]) m' ids' := by
  cases hc with
  | sent htrace => exact ⟨ids, h.same htrace.mappedPages⟩
  | ucFound hptr => exact ⟨ids, h.same rfl⟩
  | ucMapped hnone hptr hrun =>
    exact ⟨_, h.registered hnone (hrun.placed hp) (hrun.mappedPages hptr)⟩
  | perfFound hperf => exact ⟨ids, h.same rfl⟩
  | @perfMapped fd ptr hperf hfd hptr =>
    have hplaced : ptr ≠ 0 := hp ⟨.mmap 8192 fd, ptr⟩ (by simp)
    exact ⟨ids, h.perfMapped hperf hplaced (List.filterMap_cons_some (mappedPage_mmap hptr 8192 fd))⟩
  | specs hfd => exact ⟨ids, h.same rfl⟩

theorem perm_iff (h : HoldsMapped calls m ids) :
    List.Perm [((m.mmapIdToUcPtrMap 0).getD 0, 4096)] (mappedPages calls) ↔
      ids = [0] ∧ m.perfPagePtr = 0 := by
  have hpages : List.Perm [((m.mmapIdToUcPtrMap 0).getD 0, 4096)] (mappedPages calls) ↔
      m.pages ids = [((m.mmapIdToUcPtrMap 0).getD 0, 4096)] := by
    constructor
    · intro hp
      exact List.perm_singleton.mp (hp.trans h.pages).symm
    · intro he
      rw [← he]
      exact h.pages.symm
  rw [hpages, PickleDeviceManager.pages]
  by_cases hperf : m.perfPagePtr = 0
  · rw [if_pos hperf, List.append_nil]
    constructor
    · intro he
      obtain ⟨id, rfl, hid⟩ : ∃ id, ids = [id] ∧ ((m.mmapIdToUcPtrMap id).getD 0, 4096) =
          ((m.mmapIdToUcPtrMap 0).getD 0, 4096) := by
        simpa [List.map_eq_singleton_iff] using he
      -- An id other than 0 has a page, and 0 has none: it would be the null address.
      by_cases h0 : id = 0
      · exact ⟨by rw [h0], hperf⟩
      · obtain ⟨ptr, hptr⟩ := Option.ne_none_iff_exists'.mp ((h.mem id).mp (by simp))
        have hzero : m.mmapIdToUcPtrMap 0 = none := by
          by_contra hne
          exact h0 (List.mem_singleton.mp ((h.mem 0).mpr hne)).symm
        simp only [hptr, hzero, Option.getD_some, Option.getD_none, Prod.mk.injEq, and_true] at hid
        exact absurd (hid ▸ hptr) (h.placed id)
    · rintro ⟨rfl, -⟩
      rfl
  · rw [if_neg hperf]
    constructor
    · intro he
      have hmem : (m.perfPagePtr, 8192) ∈ [((m.mmapIdToUcPtrMap 0).getD 0, 4096)] := by
        rw [← he]
        simp
      simp at hmem
    · rintro ⟨-, h0⟩
      exact absurd h0 hperf

end HoldsMapped

theorem ManagerRun.holdsMapped {calls : List CallTrace} {m : PickleDeviceManager}
    (h : ManagerRun calls m) : ∃ ids, HoldsMapped calls m ids := by
  induction h with
  | refl =>
    exact ⟨[], List.nodup_nil, fun _ => by simp [PickleDeviceManager.new],
      fun _ => by simp [PickleDeviceManager.new], .nil⟩
  | tail h ho ih =>
    obtain ⟨ids, ih⟩ := ih
    exact ih.step (ho.1.cases ho.2.1) ho.2.2

theorem destroy_runs {m m' : PickleDeviceManager} {trace : List SysEvent}
    (h : Runs m.destroy trace m') :
    ∃ r : ℤ, trace = [⟨.munmap ((m.mmapIdToUcPtrMap 0).getD 0) 4096, r⟩] := by
  unfold destroy deallocateUncacheablePage UnorderedMap.fetch at h
  cases hptr : m.mmapIdToUcPtrMap 0 with
  | none =>
    rw [hptr] at h
    obtain ⟨r, t₁, h₁, rfl⟩ := runs_request_bind.mp h
    exact ⟨r, by rw [(runs_pure.mp h₁).1, Option.getD_none]⟩
  | some ptr =>
    rw [hptr] at h
    obtain ⟨r, t₁, h₁, rfl⟩ := runs_request_bind.mp h
    exact ⟨r, by rw [(runs_pure.mp h₁).1, Option.getD_some]⟩

/-- The destructor unmaps each page mapped before once, with its address and length, and no other. -/
def Released (calls : List CallTrace) (destructor : List SysEvent) : Prop :=
  (destructor.filterMap unmappedPage).Perm (mappedPages calls)

theorem ManagerRun.released_iff {calls : List CallTrace} {m m' : PickleDeviceManager}
    {trace : List SysEvent} (h : ManagerRun calls m) (hd : Runs m.destroy trace m') :
    Released calls trace ↔ Asked calls (.getUCPagePtr 0) ∧
      (∀ mmapId, Asked calls (.getUCPagePtr mmapId) → mmapId = 0) ∧
      ¬ Asked calls .getPerfPagePtr := by
  obtain ⟨ids, hids⟩ := h.holdsMapped
  obtain ⟨r, rfl⟩ := destroy_runs hd
  have hasked := h.holdsAsked
  change List.Perm [((m.mmapIdToUcPtrMap 0).getD 0, 4096)] (mappedPages calls) ↔ _
  rw [hids.perm_iff, ← hasked.perf, not_not, ← hasked.uc, ← hids.mem]
  simp only [← hasked.uc, ← hids.mem]
  constructor
  · rintro ⟨rfl, hperf⟩
    exact ⟨by simp, by simp, hperf⟩
  · rintro ⟨hmem, hall, hperf⟩
    refine ⟨?_, hperf⟩
    have hl := List.eq_replicate_of_mem hall
    have hlen : ids.length = 1 := by
      have hnd := hids.nodup
      rw [hl, List.nodup_replicate] at hnd
      have hpos := List.length_pos_of_mem hmem
      omega
    rw [hl, hlen]
    rfl

def pageCall (mmapId : UInt64) : CallTrace where
  call := .getUCPagePtr mmapId
  trace := [⟨.openDevice true, (3 : ℤ)⟩, ⟨.mmap 4096 3, (0x7f00 : UInt64)⟩, ⟨.openDevice true, (4 : ℤ)⟩,
    ⟨.ioctlMmapPaddr 4 mmapId, ((0, 0x5000) : ℤ × UInt64)⟩, ⟨.close 4, (0 : ℤ)⟩,
    ⟨.storeByte 0x7f00 0x42, ()⟩, ⟨.openDevice false, (-1 : ℤ)⟩]

def pageManager (mmapId : UInt64) : PickleDeviceManager :=
  PickleDeviceManager.new.registerUncacheablePage mmapId 0x7f00 0x5000

theorem pageCall_possible (mmapId : UInt64) : (pageCall mmapId).Possible := by
  constructor <;> simp [pageCall, Possible, Placed]

theorem pageCall_run_zero : ManagerRun [pageCall 0] (pageManager 0) := by
  have hreturns : (pageCall 0).Returns .new (pageManager 0) :=
    ⟨0x7f00, .ask _ (.ask _ (.ask _ (.ask _ (.ask _ (.ask _ (.ask _ (.done _)))))))⟩
  exact .tail .refl ⟨hreturns, pageCall_possible 0⟩

theorem pageCall_run_seven : ManagerRun [pageCall 7] (pageManager 7) := by
  have hreturns : (pageCall 7).Returns .new (pageManager 7) :=
    ⟨0x7f00, .ask _ (.ask _ (.ask _ (.ask _ (.ask _ (.ask _ (.ask _ (.done _)))))))⟩
  exact .tail .refl ⟨hreturns, pageCall_possible 7⟩

theorem ManagerRun.released_iff_pageCall :
    Released [pageCall 0] [⟨.munmap 0x7f00 4096, (0 : ℤ)⟩] ↔
      Asked [pageCall 0] (.getUCPagePtr 0) ∧
      (∀ mmapId, Asked [pageCall 0] (.getUCPagePtr mmapId) → mmapId = 0) ∧
      ¬ Asked [pageCall 0] .getPerfPagePtr := by
  have hd : Runs (pageManager 0).destroy [⟨.munmap 0x7f00 4096, (0 : ℤ)⟩] (pageManager 0) :=
    .ask _ (.done _)
  exact ManagerRun.released_iff pageCall_run_zero hd

theorem not_always_released : ¬ ∀ calls m m' trace, ManagerRun calls m →
    Runs m.destroy trace m' → Released calls trace := by
  intro h
  have hd : Runs (pageManager 7).destroy [⟨.munmap 0 4096, (0 : ℤ)⟩]
      { pageManager 7 with mmapIdToUcPtrMap := (pageManager 7).mmapIdToUcPtrMap.insert 0 0 } :=
    .ask _ (.done _)
  have hreleased := h _ _ _ _ pageCall_run_seven hd
  have hpages : mappedPages [pageCall 7] = [(0x7f00, 4096)] := by decide
  change List.Perm [(0, 4096)] (mappedPages [pageCall 7]) at hreleased
  rw [hpages] at hreleased
  exact absurd (List.perm_singleton.mp hreleased) (by decide)

end PickleDevice
