import PickleDevice.Library.Runs
import PickleDevice.PageRuns

namespace PickleDevice

open Interaction Program PickleDeviceManager Runs

inductive ManagerCall
  | sendJob (job : PickleJob) (store : Store)
  | getUCPagePtr (mmapId : UInt64)
  | getPerfPagePtr
  | getDevicePrefetcherSpecs (single bulk : UInt64)

structure CallTrace where
  call : ManagerCall
  trace : List SysEvent

def CallTrace.Returns (c : CallTrace) (m m' : PickleDeviceManager) : Prop :=
  match c.call with
  | .sendJob job s => m' = m ∧ ∃ r, Runs (sendJob job s) c.trace r
  | .getUCPagePtr mmapId => ∃ ptr, Runs (m.getUCPagePtr mmapId) c.trace (ptr, m')
  | .getPerfPagePtr => ∃ ptr, Runs m.getPerfPagePtr c.trace (ptr, m')
  | .getDevicePrefetcherSpecs single bulk =>
    m' = m ∧ ∃ specs, Runs (getDevicePrefetcherSpecs single bulk) c.trace specs

/-- A mapping is never placed at the null address. -/
def Placed : SysEvent → Prop
  | ⟨.mmap .., ptr⟩ => ptr ≠ 0
  | _ => True

def CallTrace.Possible (c : CallTrace) : Prop :=
  (∀ e ∈ c.trace, PickleDevice.Possible e) ∧ ∀ e ∈ c.trace, Placed e

def ManagerRun : List CallTrace → PickleDeviceManager → Prop :=
  History (fun m c m' => c.Returns m m' ∧ c.Possible) .new

inductive CommandTrace : List SysEvent → Prop
  | none : CommandTrace []
  | notOpened {fd : ℤ} (hfd : fd < 0) : CommandTrace [⟨.openDevice false, fd⟩]
  | closed {fd c : ℤ} (hfd : 0 ≤ fd) (writes : List (List UInt8 × ℕ × ℤ)) :
      CommandTrace (⟨.openDevice false, fd⟩ ::
        (writes.map (fun w => ⟨.pwrite fd w.1 w.2.1, w.2.2⟩) ++ [⟨.close fd, c⟩]))

theorem writeCommandToDevice_trace {commandType commandLength : UInt64} {command : List UInt8}
    {trace : List SysEvent} {ok : Bool}
    (h : Runs (writeCommandToDevice commandType commandLength command) trace ok) :
    CommandTrace trace := by
  unfold writeCommandToDevice at h
  obtain ⟨fd, t₁, h₁, rfl⟩ := runs_request_bind.mp h
  split at h₁
  case isTrue hfd =>
    rw [(runs_pure.mp h₁).1]
    exact .notOpened hfd
  case isFalse hfd =>
    have hfd := Int.not_lt.mp hfd
    obtain ⟨r, t₂, h₂, rfl⟩ := runs_request_bind.mp h₁
    split at h₂
    case isTrue =>
      obtain ⟨c, t₃, h₃, rfl⟩ := runs_request_bind.mp h₂
      rw [(runs_pure.mp h₃).1]
      exact .closed hfd [(_, 0, r)]
    case isFalse =>
      obtain ⟨k, t₃, h₃, rfl⟩ := runs_request_bind.mp h₂
      split at h₃
      all_goals
        obtain ⟨c, t₄, h₄, rfl⟩ := runs_request_bind.mp h₃
        rw [(runs_pure.mp h₄).1]
        exact .closed hfd [(_, 0, r), (_, 1, k)]

theorem sendJob_trace {job : PickleJob} {s : Store} {trace : List SysEvent}
    {r : Except Fault Bool × Store} (h : Runs (sendJob job s) trace r) : CommandTrace trace := by
  unfold sendJob at h
  split at h
  · obtain ⟨success, t₁, t₂, h₁, h₂, rfl⟩ := runs_bind.mp h
    rw [(runs_pure.mp h₂).1, List.append_nil]
    exact writeCommandToDevice_trace h₁
  · rw [(runs_pure.mp h).1]
    exact .none

theorem CommandRun.trace {commandType : UInt64} {command : List UInt8} {trace : List SysEvent}
    {ok : Bool} (h : CommandRun commandType command trace ok) : CommandTrace trace := by
  cases h with
  | notOpened hfd => exact .notOpened hfd
  | @controlFailed fd r c hfd hr0 hr => exact .closed hfd [(_, 0, r)]
  | @payloadFailed fd k c hfd hk0 hk => exact .closed hfd [(_, 0, 16), (_, 1, k)]
  | written hfd => exact .closed hfd [(_, 0, 16), (_, 1, _)]

inductive CallCases (m : PickleDeviceManager) : CallTrace → PickleDeviceManager → Prop
  | sent {job : PickleJob} {s : Store} {trace : List SysEvent} (h : CommandTrace trace) :
      CallCases m ⟨.sendJob job s, trace⟩ m
  | ucFound {mmapId ptr : UInt64} (hptr : m.mmapIdToUcPtrMap mmapId = some ptr) :
      CallCases m ⟨.getUCPagePtr mmapId, []⟩ m
  | ucMapped {mmapId ptr paddr : UInt64} {trace : List SysEvent} {ok : Bool}
      (hnone : m.mmapIdToUcPtrMap mmapId = none) (hptr : ptr ≠ mapFailed)
      (hrun : MapRun mmapId ptr paddr trace ok) :
      CallCases m ⟨.getUCPagePtr mmapId, trace⟩ (m.registerUncacheablePage mmapId ptr paddr)
  | perfFound (hperf : m.perfPagePtr ≠ 0) : CallCases m ⟨.getPerfPagePtr, []⟩ m
  | perfMapped {fd : ℤ} {ptr : UInt64} (hperf : m.perfPagePtr = 0) (hfd : 0 ≤ fd)
      (hptr : ptr ≠ mapFailed) :
      CallCases m ⟨.getPerfPagePtr, [⟨.openDevice true, fd⟩, ⟨.mmap 8192 fd, ptr⟩,
        ⟨.storeByte ptr 0xAA, ()⟩]⟩ { m with perfPagePtr := ptr }
  | specs {single bulk : UInt64} {fd : ℤ} {specs : DeviceSpecs} (hfd : 0 ≤ fd) :
      CallCases m ⟨.getDevicePrefetcherSpecs single bulk, [⟨.openDevice true, fd⟩,
        ⟨.ioctlGetDeviceSpecs fd, ((0, specs) : ℤ × DeviceSpecs)⟩]⟩ m

theorem getPerfPagePtr_runs {m m' : PickleDeviceManager} {trace : List SysEvent} {ptr : UInt64}
    (h : Runs m.getPerfPagePtr trace (ptr, m')) : CallCases m ⟨.getPerfPagePtr, trace⟩ m' := by
  unfold getPerfPagePtr at h
  split at h
  case isTrue hperf =>
    obtain ⟨⟨allocateSuccess, page⟩, t₁, t₂, h₁, h₂, rfl⟩ := runs_bind.mp h
    cases allocateSuccess with
    | false =>
      exact absurd h₂ not_runs_exit
    | true =>
      obtain ⟨hptr, fd, hfd, rfl⟩ := allocatePage_runs h₁
      obtain ⟨stored, t₃, h₃, rfl⟩ := runs_request_bind.mp h₂
      obtain ⟨rfl, he⟩ := runs_pure.mp h₃
      obtain ⟨rfl, rfl⟩ := Prod.mk.inj he
      exact .perfMapped hperf hfd hptr
  case isFalse hperf =>
    obtain ⟨rfl, he⟩ := runs_pure.mp h
    obtain ⟨rfl, rfl⟩ := Prod.mk.inj he
    exact .perfFound hperf

theorem getDeviceSpecs_runs {trace : List SysEvent} {specs : DeviceSpecs}
    (h : Runs getDeviceSpecs trace specs) : ∃ fd : ℤ, 0 ≤ fd ∧ trace = [⟨.openDevice true, fd⟩,
      ⟨.ioctlGetDeviceSpecs fd, ((0, specs) : ℤ × DeviceSpecs)⟩] := by
  unfold getDeviceSpecs at h
  obtain ⟨fd, t₁, h₁, rfl⟩ := runs_request_bind.mp h
  split at h₁
  case isTrue hfd =>
    obtain ⟨errno, t₂, h₂, rfl⟩ := runs_request_bind.mp h₁
    exact absurd h₂ not_runs_exit
  case isFalse hfd =>
    obtain ⟨⟨err, found⟩, t₂, h₂, rfl⟩ := runs_request_bind.mp h₁
    dsimp only at h₂
    split at h₂
    case isTrue herr =>
      obtain ⟨c, t₃, h₃, rfl⟩ := runs_request_bind.mp h₂
      obtain ⟨errno, t₄, h₄, rfl⟩ := runs_request_bind.mp h₃
      exact absurd h₄ not_runs_exit
    case isFalse herr =>
      obtain ⟨rfl, rfl⟩ := runs_pure.mp h₂
      obtain rfl := not_not.mp herr
      exact ⟨fd, Int.not_lt.mp hfd, rfl⟩

theorem getDevicePrefetcherSpecs_runs {m : PickleDeviceManager} {single bulk : UInt64}
    {trace : List SysEvent} {specs : PickleDevicePrefetcherSpecs}
    (h : Runs (getDevicePrefetcherSpecs single bulk) trace specs) :
    CallCases m ⟨.getDevicePrefetcherSpecs single bulk, trace⟩ m := by
  unfold getDevicePrefetcherSpecs at h
  obtain ⟨found, t₁, t₂, h₁, h₂, rfl⟩ := runs_bind.mp h
  obtain ⟨rfl, -⟩ := runs_pure.mp h₂
  obtain ⟨fd, hfd, rfl⟩ := getDeviceSpecs_runs h₁
  exact .specs hfd

theorem CallTrace.Returns.cases {c : CallTrace} {m m' : PickleDeviceManager} (h : c.Returns m m')
    (hp : ∀ e ∈ c.trace, PickleDevice.Possible e) : CallCases m c m' := by
  obtain ⟨call, trace⟩ := c
  cases call with
  | sendJob job s =>
    obtain ⟨rfl, r, h⟩ := h
    exact .sent (sendJob_trace h)
  | getUCPagePtr mmapId =>
    obtain ⟨ptr, h⟩ := h
    obtain ⟨hptr, htrace, rfl⟩ | ⟨hnone, hptr, paddr, ok, hrun, rfl⟩ := getUCPagePtr_runs hp h
    · cases htrace
      exact .ucFound hptr
    · exact .ucMapped hnone hptr hrun
  | getPerfPagePtr =>
    obtain ⟨ptr, h⟩ := h
    exact getPerfPagePtr_runs h
  | getDevicePrefetcherSpecs single bulk =>
    obtain ⟨rfl, specs, h⟩ := h
    exact getDevicePrefetcherSpecs_runs h

def Asked (calls : List CallTrace) (call : ManagerCall) : Prop := ∃ c ∈ calls, c.call = call

theorem asked_append {calls : List CallTrace} {c : CallTrace} {call : ManagerCall} :
    Asked (calls ++ [c]) call ↔ Asked calls call ∨ c.call = call := by
  simp [Asked, or_and_right, exists_or]

structure HoldsAsked (calls : List CallTrace) (m : PickleDeviceManager) : Prop where
  uc : ∀ mmapId, m.mmapIdToUcPtrMap mmapId ≠ none ↔ Asked calls (.getUCPagePtr mmapId)
  perf : m.perfPagePtr ≠ 0 ↔ Asked calls .getPerfPagePtr

theorem MapRun.placed {mmapId ptr paddr : UInt64} {trace : List SysEvent} {ok : Bool}
    (h : MapRun mmapId ptr paddr trace ok) (hp : ∀ e ∈ trace, Placed e) : ptr ≠ 0 := by
  cases h with
  | @mapped fd fd' c t ok hfd hfd' h =>
    exact hp ⟨.mmap 4096 fd, ptr⟩ (by simp)

theorem HoldsAsked.step {calls : List CallTrace} {m m' : PickleDeviceManager} {c : CallTrace}
    (h : HoldsAsked calls m) (hc : CallCases m c m') (hp : ∀ e ∈ c.trace, Placed e) :
    HoldsAsked (calls ++ [c]) m' := by
  constructor
  · intro mmapId
    rw [asked_append, ← h.uc mmapId]
    cases hc with
    | sent hs => simp
    | @ucFound mmapId' ptr hptr =>
      by_cases hid : mmapId' = mmapId
      · subst hid
        simp [hptr]
      · simp [hid]
    | @ucMapped mmapId' ptr paddr trace ok hnone hptr hrun =>
      by_cases hid : mmapId' = mmapId
      · subst hid
        simp [registerUncacheablePage_ptr]
      · have hother : (m.registerUncacheablePage mmapId' ptr paddr).mmapIdToUcPtrMap mmapId =
            m.mmapIdToUcPtrMap mmapId := UnorderedMap.insert_of_ne _ _ (Ne.symm hid)
        simp [hother, hid]
    | perfFound hperf => simp
    | perfMapped hperf hfd hptr => simp
    | specs hfd => simp
  · rw [asked_append, ← h.perf]
    cases hc with
    | sent hs => simp
    | ucFound hptr => simp
    | ucMapped hnone hptr hrun => simp [registerUncacheablePage]
    | perfFound hperf => simp [hperf]
    | @perfMapped fd ptr hperf hfd hptr =>
      have hplaced : ptr ≠ 0 := hp ⟨.mmap 8192 fd, ptr⟩ (by simp)
      simp [hplaced]
    | specs hfd => simp

theorem ManagerRun.holdsAsked {calls : List CallTrace} {m : PickleDeviceManager}
    (h : ManagerRun calls m) : HoldsAsked calls m := by
  induction h with
  | refl => exact ⟨fun _ => by simp [PickleDeviceManager.new, Asked], by
      simp [PickleDeviceManager.new, Asked]⟩
  | tail h ho ih => exact ih.step (ho.1.cases ho.2.1) ho.2.2

end PickleDevice
