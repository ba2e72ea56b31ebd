import PickleDevice.ManagerRuns
import Mathlib.Data.Finset.Insert
import Mathlib.Data.Finset.Erase

namespace PickleDevice

open Interaction Program PickleDeviceManager Runs

namespace SysEvent

def openFds (fds : Finset ℤ) : SysEvent → Finset ℤ
  | ⟨.openDevice _, fd⟩ => if 0 ≤ fd then insert fd fds else fds
  | ⟨.close fd, _⟩ => fds.erase fd
  | _ => fds

def Fresh (fds : Finset ℤ) : SysEvent → Prop
  | ⟨.openDevice _, fd⟩ => 0 ≤ fd → fd ∉ fds
  | _ => True

end SysEvent

def openFds (fds : Finset ℤ) (trace : List SysEvent) : Finset ℤ :=
  trace.foldl SysEvent.openFds fds

def FreshFds (fds : Finset ℤ) : List SysEvent → Prop
  | [] => True
  | e :: trace => e.Fresh fds ∧ FreshFds (e.openFds fds) trace

theorem openFds_append (fds : Finset ℤ) (t t' : List SysEvent) :
    openFds fds (t ++ t') = openFds (openFds fds t) t' := List.foldl_append

theorem freshFds_append {fds : Finset ℤ} {t t' : List SysEvent} :
    FreshFds fds (t ++ t') ↔ FreshFds fds t ∧ FreshFds (openFds fds t) t' := by
  induction t generalizing fds with
  | nil => simp [FreshFds, openFds]
  | cons e t ih =>
    rw [List.cons_append, FreshFds, FreshFds, ih, and_assoc]
    rfl

section Events

variable {fds : Finset ℤ} {fd : ℤ} {t : List SysEvent}

theorem openFds_open (hfd : 0 ≤ fd) (sync : Bool) :
    openFds fds (⟨.openDevice sync, fd⟩ :: t) = openFds (insert fd fds) t := by
  change openFds (if 0 ≤ fd then insert fd fds else fds) t = _
  rw [if_pos hfd]

theorem openFds_open_failed (hfd : fd < 0) (sync : Bool) :
    openFds fds (⟨.openDevice sync, fd⟩ :: t) = openFds fds t := by
  change openFds (if 0 ≤ fd then insert fd fds else fds) t = _
  rw [if_neg (by omega)]

theorem openFds_close (c : ℤ) : openFds fds (⟨.close fd, c⟩ :: t) = openFds (fds.erase fd) t := rfl

theorem freshFds_open {sync : Bool} (hfd : 0 ≤ fd) (h : FreshFds fds (⟨.openDevice sync, fd⟩ :: t)) :
    fd ∉ fds ∧ FreshFds (insert fd fds) t := by
  obtain ⟨hfresh, h⟩ := h
  refine ⟨hfresh hfd, ?_⟩
  change FreshFds (if 0 ≤ fd then insert fd fds else fds) t at h
  rwa [if_pos hfd] at h

end Events

variable {fds : Finset ℤ} {trace : List SysEvent}

theorem openFds_writes (fd : ℤ) (writes : List (List UInt8 × ℕ × ℤ)) (t : List SysEvent) :
    openFds fds (writes.map (fun w => ⟨.pwrite fd w.1 w.2.1, w.2.2⟩) ++ t) = openFds fds t := by
  induction writes with
  | nil => rfl
  | cons w writes ih => exact ih

theorem CommandTrace.openFds (h : CommandTrace trace) (hf : FreshFds fds trace) :
    PickleDevice.openFds fds trace = fds := by
  cases h with
  | none => rfl
  | notOpened hfd => exact openFds_open_failed hfd false
  | closed hfd writes =>
    rw [openFds_open hfd, openFds_writes, openFds_close]
    exact Finset.erase_insert (freshFds_open hfd hf).1

theorem getPaddr_openFds {query : ℤ → SysProgram (ℤ × UInt64)} {paddr₀ : UInt64}
    {answer : Bool × UInt64} (hquery : ∀ fd t a fds, Runs (query fd) t a → openFds fds t = fds)
    (h : Runs (getPaddr query paddr₀) trace answer) (hf : FreshFds fds trace) :
    openFds fds trace = fds := by
  obtain ⟨fd, hfd, rfl, -⟩ | ⟨fd, err, c, found, t, hfd, ht, rfl, -⟩ := getPaddr_runs h
  · exact openFds_open_failed hfd true
  · rw [openFds_open hfd, openFds_append, hquery _ _ _ _ ht, openFds_close]
    exact Finset.erase_insert (freshFds_open hfd hf).1

/-- Unlike the allocations, the two address queries close the device whatever they answer. -/
theorem getPaddrs_openFds {mmapId paddr₀ : UInt64} {answer : Bool × UInt64}
    (h : Runs (getMmapPaddr mmapId paddr₀) trace answer ∨
      Runs (getPerfPagePaddr paddr₀) trace answer) (hf : FreshFds fds trace) :
    openFds fds trace = fds := by
  rcases h with h | h
  · refine getPaddr_openFds (fun fd t a fds ht => ?_) h hf
    obtain rfl := runs_request.mp ht
    rfl
  · refine getPaddr_openFds (fun fd t a fds ht => ?_) h hf
    obtain rfl := runs_request.mp ht
    rfl

/-- The descriptor that mapped the page is never closed. -/
theorem MapRun.openFds {mmapId ptr paddr : UInt64} {ok : Bool} (hf : FreshFds fds trace)
    (h : MapRun mmapId ptr paddr trace ok) :
    ∃ fd, fd ∉ fds ∧ PickleDevice.openFds fds trace = insert fd fds := by
  cases h with
  | @mapped fd fd' c t ok hfd hfd' h =>
    obtain ⟨hnew, hf⟩ := freshFds_open hfd hf
    obtain ⟨hnew', hf⟩ := freshFds_open hfd' hf.2
    have hclosed : (insert fd' (insert fd fds)).erase fd' = insert fd fds := Finset.erase_insert hnew'
    have hrest : FreshFds (insert fd fds) t := by
      rw [← hclosed]
      exact hf.2.2.2
    refine ⟨fd, hnew, ?_⟩
    rw [openFds_append, openFds_open hfd]
    -- `mmap`, `ioctl` and the store to the page open and close nothing.
    change PickleDevice.openFds
      (PickleDevice.openFds (insert fd fds) (⟨.openDevice true, fd'⟩ :: _)) t = _
    rw [openFds_open hfd']
    change PickleDevice.openFds
      (PickleDevice.openFds (insert fd' (insert fd fds)) (⟨.close fd', c⟩ :: _)) t = _
    rw [openFds_close, hclosed]
    exact h.trace.openFds hrest

/-- The calls that find what they need, after some earlier ones, without opening the device for
more than a command. -/
def ManagerCall.OpensNothing (earlier : List CallTrace) : ManagerCall → Prop
  | .sendJob .. => True
  | .getUCPagePtr mmapId => Asked earlier (.getUCPagePtr mmapId)
  | .getPerfPagePtr => Asked earlier .getPerfPagePtr
  | .getDevicePrefetcherSpecs .. => False

theorem insert_ne_self {fd : ℤ} (h : fd ∉ fds) : insert fd fds ≠ fds :=
  fun he => h (he ▸ Finset.mem_insert_self fd fds)

theorem CallCases.openFds_iff {earlier : List CallTrace} {m m' : PickleDeviceManager} {c : CallTrace}
    (h : CallCases m c m') (hm : HoldsAsked earlier m) (hf : FreshFds fds c.trace) :
    openFds fds c.trace = fds ↔ c.call.OpensNothing earlier := by
  cases h with
  | sent h => exact ⟨fun _ => trivial, fun _ => h.openFds hf⟩
  | @ucFound mmapId ptr hptr =>
    have hasked : Asked earlier (.getUCPagePtr mmapId) := by
      apply (hm.uc mmapId).mp
      simp [hptr]
    exact ⟨fun _ => hasked, fun _ => rfl⟩
  | @ucMapped mmapId ptr paddr trace ok hnone hptr hrun =>
    obtain ⟨fd, hnew, he⟩ := hrun.openFds hf
    rw [he]
    exact ⟨fun h => absurd h (insert_ne_self hnew), fun h => absurd hnone ((hm.uc mmapId).mpr h)⟩
  | perfFound hperf => exact ⟨fun _ => hm.perf.mp hperf, fun _ => rfl⟩
  | perfMapped hperf hfd hptr =>
    rw [openFds_open hfd]
    have hnew := (freshFds_open hfd hf).1
    exact ⟨fun h => absurd h (insert_ne_self hnew), fun h => absurd hperf (hm.perf.mpr h)⟩
  | specs hfd =>
    rw [openFds_open hfd]
    have hnew := (freshFds_open hfd hf).1
    exact ⟨fun h => absurd h (insert_ne_self hnew), False.elim⟩

def traceOf (calls : List CallTrace) : List SysEvent := calls.flatMap CallTrace.trace

theorem traceOf_append (calls calls' : List CallTrace) :
    traceOf (calls ++ calls') = traceOf calls ++ traceOf calls' := List.flatMap_append

namespace ManagerRun

variable {calls earlier : List CallTrace} {c : CallTrace} {m : PickleDeviceManager}

theorem last_keepsFds_iff (h : ManagerRun (earlier ++ [c]) m)
    (hf : FreshFds fds (traceOf (earlier ++ [c]))) :
    openFds (openFds fds (traceOf earlier)) c.trace = openFds fds (traceOf earlier) ↔
      c.call.OpensNothing earlier := by
  obtain ⟨m₁, h₁, hc, hp⟩ := History.last h
  have hm := ManagerRun.holdsAsked h₁
  rw [traceOf_append, freshFds_append] at hf
  apply (hc.cases hp.1).openFds_iff hm
  simpa [traceOf] using hf.2

theorem call_keepsFds_iff {later : List CallTrace} (h : ManagerRun (earlier ++ c :: later) m)
    (hf : FreshFds fds (traceOf (earlier ++ c :: later))) :
    openFds (openFds fds (traceOf earlier)) c.trace = openFds fds (traceOf earlier) ↔
      c.call.OpensNothing earlier := by
  rw [List.append_cons] at h hf
  obtain ⟨m', h'⟩ := History.earlier h
  rw [traceOf_append, freshFds_append] at hf
  exact last_keepsFds_iff h' hf.1

theorem openFds_of_sendJobs (h : ManagerRun calls m) (hf : FreshFds fds (traceOf calls))
    (hsend : ∀ c ∈ calls, ∃ job s, c.call = .sendJob job s) : openFds fds (traceOf calls) = fds := by
  induction h with
  | refl => rfl
  | @tail calls m₁ m₂ c h hc ih =>
    have hkeep := last_keepsFds_iff (.tail h hc) hf
    rw [traceOf_append, freshFds_append] at hf
    obtain ⟨job, s, hcall⟩ := hsend c (by simp)
    have ih := ih hf.1 fun c hmem => hsend c (List.mem_append_left _ hmem)
    rw [ih, hcall] at hkeep
    rw [traceOf_append, openFds_append, ih]
    simpa [traceOf] using hkeep.mpr trivial

theorem sendJobs_of_openFds (h : ManagerRun calls m) (hf : FreshFds fds (traceOf calls))
    (hkeep : ∀ earlier later, calls = earlier ++ later → openFds fds (traceOf earlier) = fds) :
    ∀ c ∈ calls, ∃ job s, c.call = .sendJob job s := by
  induction h with
  | refl => simp
  | @tail calls m₁ m₂ c h hc ih =>
    have hlast := last_keepsFds_iff (.tail h hc) hf
    have hbefore := hkeep calls [c] rfl
    have hafter := hkeep (calls ++ [c]) [] (by simp)
    rw [traceOf_append, freshFds_append] at hf
    have ih := ih hf.1 fun earlier later he =>
      hkeep earlier (later ++ [c]) (by rw [he, List.append_assoc])
    have hopens : c.call.OpensNothing calls := by
      apply hlast.mp
      rw [hbefore]
      rw [traceOf_append, openFds_append, hbefore] at hafter
      simpa [traceOf] using hafter
    -- A page cannot have been asked for before: so far there were only jobs.
    have hnone : ∀ call, Asked calls call → ∃ job s, call = .sendJob job s := by
      rintro _ ⟨c', hmem, rfl⟩
      exact ih c' hmem
    intro c' hmem
    rcases List.mem_append.mp hmem with hmem | hmem
    · exact ih c' hmem
    · obtain rfl := List.mem_singleton.mp hmem
      cases hcall : c'.call with
      | sendJob job s => exact ⟨job, s, rfl⟩
      | getUCPagePtr mmapId =>
        rw [hcall] at hopens
        exact hnone _ hopens
      | getPerfPagePtr =>
        rw [hcall] at hopens
        exact hnone _ hopens
      | getDevicePrefetcherSpecs single bulk =>
        rw [hcall] at hopens
        exact absurd hopens id

theorem keepsFds_iff (h : ManagerRun calls m) (hf : FreshFds fds (traceOf calls)) :
    (∀ earlier c later, calls = earlier ++ c :: later →
      (openFds (openFds fds (traceOf earlier)) c.trace = openFds fds (traceOf earlier) ↔
        c.call.OpensNothing earlier)) ∧
    ((∀ earlier later, calls = earlier ++ later → openFds fds (traceOf earlier) = fds) ↔
      ∀ c ∈ calls, ∃ job s, c.call = .sendJob job s) := by
  refine ⟨?_, fun hkeep => sendJobs_of_openFds h hf hkeep, ?_⟩
  · rintro earlier c later rfl
    exact call_keepsFds_iff h hf
  · rintro hsend earlier later rfl
    obtain ⟨m', h'⟩ := History.earlier h
    rw [traceOf_append, freshFds_append] at hf
    exact openFds_of_sendJobs h' hf.1 fun c hmem => hsend c (List.mem_append_left _ hmem)

end ManagerRun

def specsCall : CallTrace where
  call := .getDevicePrefetcherSpecs 0 1
  trace := [⟨.openDevice true, (3 : ℤ)⟩, ⟨.ioctlGetDeviceSpecs 3, ((0, ⟨1, 2, 0, 4⟩) : ℤ × DeviceSpecs)⟩]

theorem specsCall_run : ManagerRun [specsCall] .new := by
  have hreturns : specsCall.Returns .new .new := by
    refine ⟨rfl, ⟨1, 2, .singlePrefetch, 4⟩, ?_⟩
    exact .ask _ (.ask _ (.done _))
  have hpossible : specsCall.Possible := by
    constructor <;> simp [specsCall, Possible, Placed]
  exact .tail .refl ⟨hreturns, hpossible⟩

theorem specsCall_fresh : FreshFds ∅ (traceOf [specsCall]) :=
  ⟨fun _ => by simp, trivial, trivial⟩

theorem ManagerRun.keepsFds_iff_specsCall :
    (∀ earlier c later, [specsCall] = earlier ++ c :: later →
      (openFds (openFds ∅ (traceOf earlier)) c.trace = openFds ∅ (traceOf earlier) ↔
        c.call.OpensNothing earlier)) ∧
    ((∀ earlier later, [specsCall] = earlier ++ later → openFds ∅ (traceOf earlier) = ∅) ↔
      ∀ c ∈ [specsCall], ∃ job s, c.call = .sendJob job s) :=
  ManagerRun.keepsFds_iff specsCall_run specsCall_fresh

theorem not_always_keepsFds : ¬ ∀ calls m fds, ManagerRun calls m → FreshFds fds (traceOf calls) →
    ∀ earlier c later, calls = earlier ++ c :: later →
      openFds (openFds fds (traceOf earlier)) c.trace = openFds fds (traceOf earlier) := by
  intro h
  have hkeep := h [specsCall] .new ∅ specsCall_run specsCall_fresh [] specsCall [] rfl
  have hopen : openFds ∅ specsCall.trace ≠ ∅ := by decide
  exact hopen hkeep

end PickleDevice
