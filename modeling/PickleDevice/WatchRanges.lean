import PickleDevice.CommandDelivery
import PickleDevice.PageRuns

namespace PickleDevice

open Interaction Program PickleDeviceManager

def watchCommand (paddr : UInt64) : Command :=
  ⟨PickleDeviceCommand.addWatchRange.toUInt64, rangeBytes paddr⟩

def reportedPaddr (mmapId : UInt64) : SysEvent → Option UInt64
  | ⟨.ioctlMmapPaddr _ asked, (err, paddr)⟩ => if asked = mmapId ∧ err = 0 then some paddr else none
  | _ => none

theorem CommandRun.reportedPaddr {commandType : UInt64} {command : List UInt8}
    {trace : List SysEvent} {ok : Bool} (h : CommandRun commandType command trace ok)
    (mmapId : UInt64) : trace.filterMap (PickleDevice.reportedPaddr mmapId) = [] := by
  cases h <;> rfl

namespace MapRun

variable {mmapId ptr paddr : UInt64} {trace : List SysEvent} {ok : Bool}

theorem reportedPaddr_self (h : MapRun mmapId ptr paddr trace ok) :
    trace.filterMap (reportedPaddr mmapId) = [paddr] := by
  cases h with
  | mapped hfd hfd' h => simp [List.filterMap_cons, reportedPaddr, h.reportedPaddr]

theorem reportedPaddr_of_ne (h : MapRun mmapId ptr paddr trace ok) {other : UInt64}
    (hne : mmapId ≠ other) : trace.filterMap (reportedPaddr other) = [] := by
  cases h with
  | mapped hfd hfd' h => simp [List.filterMap_cons, reportedPaddr, hne, h.reportedPaddr]

theorem receive_append (h : MapRun mmapId ptr paddr trace ok) (control : Option (UInt64 × UInt64)) :
    ∃ control', ∀ log, receive control (writeLog trace ++ log) =
      (if ok then [watchCommand paddr] else []) ++ receive control' log := by
  cases h with
  | @mapped fd fd' c t ok hfd hfd' h =>
    exact h.receive (rangeBytes_lt paddr) control

theorem receive_eq (h : MapRun mmapId ptr paddr trace ok) :
    receive none (writeLog trace) = if ok then [watchCommand paddr] else [] := by
  obtain ⟨control', h⟩ := h.receive_append none
  have hlog := h []
  rwa [List.append_nil, receive, List.append_nil] at hlog

theorem succeeded_iff (h : MapRun mmapId ptr paddr trace ok) :
    (∀ e ∈ trace, Succeeded e) ↔ ok = true := by
  cases h with
  | mapped hfd hfd' h => simp [Succeeded, hfd, hfd', ← h.succeeded_iff]

end MapRun

structure PageCall where
  mmapId : UInt64
  trace : List SysEvent
  ptr : UInt64

inductive PageRun : List PageCall → PickleDeviceManager → Prop
  | new : PageRun [] .new
  | call {calls : List PageCall} {m m' : PickleDeviceManager} (h : PageRun calls m) (call : PageCall)
      (hcall : Runs (m.getUCPagePtr call.mmapId) call.trace (call.ptr, m'))
      (hp : ∀ e ∈ call.trace, Possible e) : PageRun (calls ++ [call]) m'

def reported (calls : List PageCall) (mmapId : UInt64) : List UInt64 :=
  calls.flatMap fun call => call.trace.filterMap (reportedPaddr mmapId)

def received (calls : List PageCall) (mmapId : UInt64) : List Command :=
  (calls.filter fun call => call.mmapId = mmapId).flatMap fun call => receive none (writeLog call.trace)

def Undisturbed (calls : List PageCall) (mmapId : UInt64) : Prop :=
  ∀ call ∈ calls, call.mmapId = mmapId → ∀ e ∈ call.trace, Succeeded e

section Append

variable (calls : List PageCall) (call : PageCall) (mmapId : UInt64)

theorem reported_append : reported (calls ++ [call]) mmapId =
    reported calls mmapId ++ call.trace.filterMap (reportedPaddr mmapId) := by
  simp [reported]

theorem received_append : received (calls ++ [call]) mmapId = received calls mmapId ++
    if call.mmapId = mmapId then receive none (writeLog call.trace) else [] := by
  by_cases h : call.mmapId = mmapId <;> simp [received, h]

theorem forall_append (P : PageCall → Prop) :
    (∀ c ∈ calls ++ [call], P c) ↔ (∀ c ∈ calls, P c) ∧ P call := by
  rw [List.forall_mem_append, List.forall_mem_singleton]

theorem undisturbed_append : Undisturbed (calls ++ [call]) mmapId ↔
    Undisturbed calls mmapId ∧ (call.mmapId = mmapId → ∀ e ∈ call.trace, Succeeded e) :=
  forall_append calls call _

end Append

structure Tracked (calls : List PageCall) (m : PickleDeviceManager) : Prop where
  unmapped : ∀ mmapId, m.mmapIdToUcPtrMap mmapId = none → m.mmapIdToUcPaddrMap mmapId = none ∧
    reported calls mmapId = [] ∧ ∀ call ∈ calls, call.mmapId ≠ mmapId
  mapped : ∀ mmapId ptr, m.mmapIdToUcPtrMap mmapId = some ptr → ∃ paddr,
    m.mmapIdToUcPaddrMap mmapId = some paddr ∧ reported calls mmapId = [paddr] ∧
    (∀ call ∈ calls, call.mmapId = mmapId → call.ptr = ptr) ∧
    (received calls mmapId = [watchCommand paddr] ↔ Undisturbed calls mmapId)

theorem received_of_notCalled {calls : List PageCall} {mmapId : UInt64}
    (h : ∀ call ∈ calls, call.mmapId ≠ mmapId) : received calls mmapId = [] := by
  rw [received, List.filter_eq_nil_iff.mpr (by simpa using h)]
  rfl

theorem undisturbed_of_notCalled {calls : List PageCall} {mmapId : UInt64}
    (h : ∀ call ∈ calls, call.mmapId ≠ mmapId) : Undisturbed calls mmapId :=
  fun call hmem hid => absurd hid (h call hmem)

namespace Tracked

variable {calls : List PageCall} {call : PageCall} {m : PickleDeviceManager}

theorem found (h : Tracked calls m) (hptr : m.mmapIdToUcPtrMap call.mmapId = some call.ptr)
    (htrace : call.trace = []) : Tracked (calls ++ [call]) m where
  unmapped mmapId hnone := by
    obtain ⟨hpaddr, hreported, hcalls⟩ := h.unmapped mmapId hnone
    have hne : call.mmapId ≠ mmapId := by
      rintro rfl
      cases hptr.symm.trans hnone
    refine ⟨hpaddr, ?_, (forall_append _ _ _).mpr ⟨hcalls, hne⟩⟩
    rw [reported_append, hreported, htrace]
    rfl
  mapped mmapId ptr hsome := by
    obtain ⟨paddr, hpaddr, hreported, hcalls, hreceived⟩ := h.mapped mmapId ptr hsome
    have hsame : call.mmapId = mmapId → call.ptr = ptr := by
      rintro rfl
      exact Option.some.inj (hptr.symm.trans hsome)
    refine ⟨paddr, hpaddr, ?_, (forall_append _ _ _).mpr ⟨hcalls, hsame⟩, ?_⟩
    · rw [reported_append, hreported, htrace]
      rfl
    · rw [received_append, undisturbed_append, htrace, writeLog_nil, receive, ite_self,
        List.append_nil, hreceived]
      simp

theorem registered (h : Tracked calls m) (hnone : m.mmapIdToUcPtrMap call.mmapId = none)
    {paddr : UInt64} {ok : Bool} (hrun : MapRun call.mmapId call.ptr paddr call.trace ok) :
    Tracked (calls ++ [call]) (m.registerUncacheablePage call.mmapId call.ptr paddr) where
  unmapped mmapId hnone' := by
    by_cases hid : call.mmapId = mmapId
    · subst hid
      cases (registerUncacheablePage_ptr m _ _ _).symm.trans hnone'
    · have hne := Ne.symm hid
      obtain ⟨hpaddr, hreported, hcalls⟩ :=
        h.unmapped mmapId ((UnorderedMap.insert_of_ne _ _ hne).symm.trans hnone')
      refine ⟨(UnorderedMap.insert_of_ne _ _ hne).trans hpaddr, ?_,
        (forall_append _ _ _).mpr ⟨hcalls, hid⟩⟩
      rw [reported_append, hreported, hrun.reportedPaddr_of_ne hid]
      rfl
  mapped mmapId ptr hsome := by
    by_cases hid : call.mmapId = mmapId
    · subst hid
      obtain ⟨-, hreported, hcalls⟩ := h.unmapped call.mmapId hnone
      have hptr := Option.some.inj ((registerUncacheablePage_ptr m _ _ _).symm.trans hsome)
      have hearlier : ∀ c ∈ calls, c.mmapId = call.mmapId → c.ptr = ptr :=
        fun c hc hid => absurd hid (hcalls c hc)
      refine ⟨paddr, registerUncacheablePage_paddr m _ _ _, ?_,
        (forall_append _ _ _).mpr ⟨hearlier, fun _ => hptr⟩, ?_⟩
      · rw [reported_append, hreported, hrun.reportedPaddr_self]
        rfl
      · -- Nothing was received for a new id, so all depends on this call's notification.
        rw [received_append, received_of_notCalled hcalls, if_pos rfl, hrun.receive_eq,
          undisturbed_append, hrun.succeeded_iff]
        have hcalls := undisturbed_of_notCalled hcalls
        cases ok <;> simp [hcalls]
    · have hne := Ne.symm hid
      obtain ⟨paddr', hpaddr, hreported, hcalls, hreceived⟩ :=
        h.mapped mmapId ptr ((UnorderedMap.insert_of_ne _ _ hne).symm.trans hsome)
      refine ⟨paddr', (UnorderedMap.insert_of_ne _ _ hne).trans hpaddr, ?_,
        (forall_append _ _ _).mpr ⟨hcalls, fun hid' => absurd hid' hid⟩, ?_⟩
      · rw [reported_append, hreported, hrun.reportedPaddr_of_ne hid]
        rfl
      · rw [received_append, undisturbed_append, if_neg hid, List.append_nil, hreceived]
        simp [hid]

end Tracked

namespace PageRun

variable {calls : List PageCall} {m : PickleDeviceManager}

theorem tracked (h : PageRun calls m) : Tracked calls m := by
  induction h with
  | new =>
    constructor
    · exact fun _ _ => ⟨rfl, rfl, fun _ hc => absurd hc List.not_mem_nil⟩
    · exact fun _ _ hsome => nomatch hsome
  | call h call hcall hp ih =>
    obtain ⟨hptr, htrace, rfl⟩ | ⟨hnone, -, paddr, ok, hrun, rfl⟩ := getUCPagePtr_runs hp hcall
    · exact ih.found hptr htrace
    · exact ih.registered hnone hrun

theorem receive_append (h : PageRun calls m) : ∀ call ∈ calls, ∀ control, ∃ control', ∀ log,
    receive control (writeLog call.trace ++ log) =
      receive none (writeLog call.trace) ++ receive control' log := by
  induction h with
  | new => exact fun call hmem => absurd hmem List.not_mem_nil
  | call h call hcall hp ih =>
    intro c hmem control
    obtain hmem | hmem := List.mem_append.mp hmem
    · exact ih c hmem control
    · obtain rfl := List.mem_singleton.mp hmem
      obtain ⟨-, htrace, -⟩ | ⟨-, -, paddr, ok, hrun, -⟩ := getUCPagePtr_runs hp hcall
      · rw [htrace]
        exact ⟨control, fun log => rfl⟩
      · rw [hrun.receive_eq]
        exact hrun.receive_append control

theorem receive_log (h : PageRun calls m) : receive none (writeLog (calls.flatMap PageCall.trace)) =
    calls.flatMap fun call => receive none (writeLog call.trace) := by
  have hcalls := h.receive_append
  clear h
  suffices hcontrol : ∀ control, receive control (writeLog (calls.flatMap PageCall.trace)) =
      calls.flatMap fun call => receive none (writeLog call.trace) from hcontrol none
  induction calls with
  | nil => exact fun control => rfl
  | cons call calls ih =>
    intro control
    obtain ⟨control', h⟩ := hcalls call List.mem_cons_self control
    rw [List.flatMap_cons, writeLog_append, h, List.flatMap_cons,
      ih fun c hc => hcalls c (List.mem_cons_of_mem call hc)]

theorem ptr_last {call : PageCall} (h : PageRun (calls ++ [call]) m) :
    m.mmapIdToUcPtrMap call.mmapId = some call.ptr := by
  generalize hl : calls ++ [call] = l at h
  cases h with
  | new =>
    apply absurd hl
    simp
  | call h call' hcall hp =>
    obtain ⟨-, hcalls⟩ := List.append_inj' hl rfl
    obtain rfl := List.singleton_injective hcalls
    obtain ⟨hptr, -, rfl⟩ | ⟨-, -, paddr, ok, -, rfl⟩ := getUCPagePtr_runs hp hcall
    · exact hptr
    · exact registerUncacheablePage_ptr _ _ _ _

theorem earlier {later : List PageCall} (h : PageRun (calls ++ later) m) :
    ∃ m', PageRun calls m' := by
  generalize hl : calls ++ later = l at h
  induction h generalizing later with
  | new =>
    obtain ⟨rfl, -⟩ := List.append_eq_nil_iff.mp hl
    exact ⟨_, .new⟩
  | @call earlier m₁ m₂ h call hcall hp ih =>
    obtain rfl | ⟨later, last, rfl⟩ := List.eq_nil_or_concat later
    · rw [List.append_nil] at hl
      subst hl
      exact ⟨_, .call h call hcall hp⟩
    · rw [List.concat_eq_append, ← List.append_assoc] at hl
      obtain ⟨hl, -⟩ := List.append_inj' hl rfl
      exact ih hl

end PageRun

structure Returned (calls : List PageCall) (call : PageCall) (m : PickleDeviceManager) : Prop where
  delivered : ∃ paddr, reported (calls ++ [call]) call.mmapId = [paddr] ∧
    received (calls ++ [call]) call.mmapId = [watchCommand paddr]
  samePtr : ∀ earlier ∈ calls, earlier.mmapId = call.mmapId → earlier.ptr = call.ptr
  sameIds : ∀ mmapId, m.mmapIdToUcPtrMap mmapId = none ↔ m.mmapIdToUcPaddrMap mmapId = none

theorem Tracked.sameIds {calls : List PageCall} {m : PickleDeviceManager} (h : Tracked calls m)
    (mmapId : UInt64) : m.mmapIdToUcPtrMap mmapId = none ↔ m.mmapIdToUcPaddrMap mmapId = none := by
  constructor
  · exact fun hnone => (h.unmapped mmapId hnone).1
  · intro hnone
    by_contra hsome
    obtain ⟨ptr, hptr⟩ := Option.ne_none_iff_exists'.mp hsome
    obtain ⟨paddr, hpaddr, -⟩ := h.mapped mmapId ptr hptr
    cases hpaddr.symm.trans hnone

theorem PageRun.returned_iff_undisturbed {calls : List PageCall} {call : PageCall}
    {m : PickleDeviceManager} (h : PageRun (calls ++ [call]) m) :
    Returned calls call m ↔ Undisturbed (calls ++ [call]) call.mmapId := by
  obtain ⟨paddr, hpaddr, hreported, hptr, hreceived⟩ := h.tracked.mapped _ _ h.ptr_last
  constructor
  · rintro ⟨⟨paddr', hreported', hreceived'⟩, -, -⟩
    obtain rfl := List.singleton_injective (hreported.symm.trans hreported')
    exact hreceived.mp hreceived'
  · intro hundisturbed
    have hearlier : ∀ earlier ∈ calls, earlier.mmapId = call.mmapId → earlier.ptr = call.ptr :=
      fun earlier hmem hid => hptr earlier (List.mem_append_left _ hmem) hid
    exact ⟨⟨paddr, hreported, hreceived.mpr hundisturbed⟩, hearlier, h.tracked.sameIds⟩

theorem PageRun.always_returned_iff {calls : List PageCall} {m : PickleDeviceManager}
    (h : PageRun calls m) :
    (∀ earlier call later m', calls = earlier ++ call :: later → PageRun (earlier ++ [call]) m' →
      Returned earlier call m') ↔ ∀ call ∈ calls, ∀ e ∈ call.trace, Succeeded e := by
  constructor
  · intro hreturned call hmem
    obtain ⟨earlier, later, rfl⟩ := List.append_of_mem hmem
    rw [List.append_cons] at h
    obtain ⟨m', hrun⟩ := h.earlier
    have hundisturbed := hrun.returned_iff_undisturbed.mp (hreturned _ _ _ _ rfl hrun)
    exact hundisturbed call (by simp) rfl
  · rintro hsucceeded earlier call later m' rfl hrun
    apply hrun.returned_iff_undisturbed.mpr
    intro c hc _
    apply hsucceeded
    rw [List.append_cons]
    exact List.mem_append_left _ hc

theorem PageRun.returned_iff {calls : List PageCall} {m : PickleDeviceManager} (h : PageRun calls m) :
    (receive none (writeLog (calls.flatMap PageCall.trace)) =
      calls.flatMap fun call => receive none (writeLog call.trace)) ∧
    ((∀ earlier call later m', calls = earlier ++ call :: later → PageRun (earlier ++ [call]) m' →
      Returned earlier call m') ↔ ∀ call ∈ calls, ∀ e ∈ call.trace, Succeeded e) :=
  ⟨h.receive_log, h.always_returned_iff⟩

def pageSeven (notification : List SysEvent) : PageCall where
  mmapId := 7
  trace := [⟨.openDevice true, (3 : ℤ)⟩, ⟨.mmap 4096 3, (0x7f00 : UInt64)⟩, ⟨.openDevice true, (4 : ℤ)⟩,
    ⟨.ioctlMmapPaddr 4 7, ((0, 0x5000) : ℤ × UInt64)⟩, ⟨.close 4, (0 : ℤ)⟩,
    ⟨.storeByte 0x7f00 0x42, ()⟩] ++ notification
  ptr := 0x7f00

def notifiedPage : PageCall :=
  pageSeven [⟨.openDevice false, (4 : ℤ)⟩, ⟨.pwrite 4 (controlBytes 1 16) 0, (16 : ℤ)⟩,
    ⟨.pwrite 4 (rangeBytes 0x5000) 1, (16 : ℤ)⟩, ⟨.close 4, (0 : ℤ)⟩]

def lostPage : PageCall := pageSeven [⟨.openDevice false, (-1 : ℤ)⟩]

theorem lostPage_run :
    PageRun [lostPage] (PickleDeviceManager.new.registerUncacheablePage 7 0x7f00 0x5000) := by
  have hp : ∀ e ∈ lostPage.trace, Possible e := by simp [lostPage, pageSeven, Possible]
  apply PageRun.call .new lostPage ?_ hp
  exact .ask _ (.ask _ (.ask _ (.ask _ (.ask _ (.ask _ (.ask _ (.done _)))))))

theorem notifiedPage_run :
    PageRun [notifiedPage] (PickleDeviceManager.new.registerUncacheablePage 7 0x7f00 0x5000) := by
  have hp : ∀ e ∈ notifiedPage.trace, Possible e := by
    simp [notifiedPage, pageSeven, Possible, rangeBytes, controlBytes]
  apply PageRun.call .new notifiedPage ?_ hp
  exact .ask _ (.ask _ (.ask _ (.ask _ (.ask _ (.ask _ (.ask _ (.ask _ (.ask _ (.ask _ (.done _))))))))))

theorem PageRun.returned_iff_notifiedPage :
    (receive none (writeLog ([notifiedPage].flatMap PageCall.trace)) =
      [notifiedPage].flatMap fun call => receive none (writeLog call.trace)) ∧
    ((∀ earlier call later m', [notifiedPage] = earlier ++ call :: later →
      PageRun (earlier ++ [call]) m' → Returned earlier call m') ↔
      ∀ call ∈ [notifiedPage], ∀ e ∈ call.trace, Succeeded e) :=
  PageRun.returned_iff notifiedPage_run

theorem not_always_returned : ¬ ∀ calls m, PageRun calls m → ∀ earlier call later m',
    calls = earlier ++ call :: later → PageRun (earlier ++ [call]) m' → Returned earlier call m' := by
  intro h
  obtain ⟨⟨paddr, -, hreceived⟩, -, -⟩ := h [lostPage] _ lostPage_run [] lostPage [] _ rfl lostPage_run
  have hlost : received [lostPage] lostPage.mmapId = [] := by decide
  cases hlost.symm.trans hreceived

end PickleDevice
