import PickleDevice.DeviceManager

namespace PickleDevice

open ByteWords Interaction Program

/-- A `pwrite` fails with `-1` or writes some first part of its bytes. -/
def Possible : SysEvent → Prop
  | ⟨.pwrite _ bytes _, r⟩ => -1 ≤ r ∧ r ≤ bytes.length
  | _ => True

def Succeeded : SysEvent → Prop
  | ⟨.openDevice _, fd⟩ => 0 ≤ fd
  | ⟨.pwrite _ bytes _, r⟩ => r = bytes.length
  | _ => True

structure DeviceWrite where
  offset : ℕ
  bytes : List UInt8
  deriving DecidableEq, Repr

/-- What a system call delivers to the device: a `pwrite` answered `k` the first `k` bytes. -/
def deviceWrite : SysEvent → Option DeviceWrite
  | ⟨.pwrite _ bytes offset, r⟩ => if 0 ≤ r then some ⟨offset, bytes.take r.toNat⟩ else none
  | _ => none

def writeLog (trace : List SysEvent) : List DeviceWrite := trace.filterMap deviceWrite

@[simp] theorem writeLog_nil : writeLog [] = [] := rfl

@[simp] theorem writeLog_openDevice (sync : Bool) (fd : ℤ) (t : List SysEvent) :
    writeLog (⟨.openDevice sync, fd⟩ :: t) = writeLog t := rfl

@[simp] theorem writeLog_close (fd c : ℤ) (t : List SysEvent) :
    writeLog (⟨.close fd, c⟩ :: t) = writeLog t := rfl

theorem writeLog_pwrite {r : ℤ} (h : 0 ≤ r) (fd : ℤ) (bytes : List UInt8) (offset : ℕ)
    (t : List SysEvent) : writeLog (⟨.pwrite fd bytes offset, r⟩ :: t) =
      ⟨offset, bytes.take r.toNat⟩ :: writeLog t :=
  List.filterMap_cons_some (if_pos h)

theorem writeLog_pwrite_failed {r : ℤ} (h : ¬ 0 ≤ r) (fd : ℤ) (bytes : List UInt8) (offset : ℕ)
    (t : List SysEvent) : writeLog (⟨.pwrite fd bytes offset, r⟩ :: t) = writeLog t :=
  List.filterMap_cons_none (if_neg h)

theorem possible_pwrite {fd r : ℤ} {bytes : List UInt8} {offset : ℕ}
    (h : Possible ⟨.pwrite fd bytes offset, r⟩) : -1 ≤ r ∧ r ≤ (bytes.length : ℤ) := h

@[simp] theorem writeLog_append (t t' : List SysEvent) :
    writeLog (t ++ t') = writeLog t ++ writeLog t' := List.filterMap_append

theorem controlBytes_length (commandType commandLength : UInt64) :
    (controlBytes commandType commandLength).length = 16 := by
  simp [controlBytes]

theorem ofInt_eq_iff {r : ℤ} {n : UInt64} (hn : n.toNat < 2 ^ 63) (hr : -1 ≤ r) (hr' : r < 2 ^ 63) :
    UInt64.ofInt r = n ↔ r = n.toNat := by
  rw [← UInt64.toNat_inj]
  by_cases h0 : r < 0
  · obtain rfl : r = -1 := by omega
    have hneg : (UInt64.ofInt (-1)).toNat = 2 ^ 64 - 1 := by decide
    omega
  · have hmod : r % 2 ^ 64 = r := Int.emod_eq_of_lt (by omega) (by omega)
    rw [UInt64.ofInt, UInt64.toNat_ofNat', hmod, Nat.mod_eq_of_lt (by omega)]
    omega

def announce (commandType : UInt64) (command : List UInt8) : List UInt8 :=
  controlBytes commandType (UInt64.ofNat command.length)

@[simp] theorem announce_length (commandType : UInt64) (command : List UInt8) :
    (announce commandType command).length = 16 :=
  controlBytes_length _ _

theorem writeLog_announce (commandType : UInt64) (command : List UInt8) (fd : ℤ) (t : List SysEvent) :
    writeLog (⟨.pwrite fd (announce commandType command) 0, (16 : ℤ)⟩ :: t) =
      ⟨0, announce commandType command⟩ :: writeLog t := by
  have htake : (announce commandType command).take (16 : ℤ).toNat = announce commandType command :=
    List.take_of_length_le (announce_length commandType command).le
  rw [writeLog_pwrite (by decide), htake]

inductive CommandRun (commandType : UInt64) (command : List UInt8) : List SysEvent → Bool → Prop
  | notOpened {fd : ℤ} (hfd : fd < 0) :
      CommandRun commandType command [⟨.openDevice false, fd⟩] false
  | controlFailed {fd r c : ℤ} (hfd : 0 ≤ fd) (hr0 : -1 ≤ r) (hr : r < 16) :
      CommandRun commandType command [⟨.openDevice false, fd⟩,
        ⟨.pwrite fd (announce commandType command) 0, r⟩, ⟨.close fd, c⟩] false
  | payloadFailed {fd k c : ℤ} (hfd : 0 ≤ fd) (hk0 : -1 ≤ k) (hk : k < command.length) :
      CommandRun commandType command [⟨.openDevice false, fd⟩,
        ⟨.pwrite fd (announce commandType command) 0, (16 : ℤ)⟩, ⟨.pwrite fd command 1, k⟩,
        ⟨.close fd, c⟩] false
  | written {fd c : ℤ} (hfd : 0 ≤ fd) :
      CommandRun commandType command [⟨.openDevice false, fd⟩,
        ⟨.pwrite fd (announce commandType command) 0, (16 : ℤ)⟩,
        ⟨.pwrite fd command 1, (command.length : ℤ)⟩, ⟨.close fd, c⟩] true

theorem toNat_size {command : List UInt8} (hlt : command.length < 2 ^ 63) :
    (UInt64.ofNat command.length).toNat = command.length := by
  apply UInt64.toNat_ofNat_of_lt'
  change command.length < 2 ^ 64
  omega

theorem commandRun_of_runs {commandType : UInt64} {command : List UInt8} {trace : List SysEvent}
    {ok : Bool} (hlt : command.length < 2 ^ 63) (hp : ∀ e ∈ trace, Possible e)
    (h : Runs (writeCommandToDevice commandType (UInt64.ofNat command.length) command) trace ok) :
    CommandRun commandType command trace ok := by
  have hlen := toNat_size hlt
  unfold writeCommandToDevice at h
  rw [hlen, List.take_length] at h
  obtain ⟨fd, t₁, h₁, rfl⟩ := runs_request_bind.mp h
  split at h₁
  case isTrue hfd =>
    obtain ⟨rfl, rfl⟩ := runs_pure.mp h₁
    exact .notOpened hfd
  case isFalse hfd =>
    have hfd := Int.not_lt.mp hfd
    obtain ⟨r, t₂, h₂, rfl⟩ := runs_request_bind.mp h₁
    obtain ⟨hr0, hr⟩ := possible_pwrite (hp _ (List.mem_cons_of_mem _ List.mem_cons_self))
    rw [controlBytes_length] at hr
    have hfull : UInt64.ofInt r = 16 ↔ r = 16 := ofInt_eq_iff (by decide) hr0 (by omega)
    split at h₂
    case isTrue hne =>
      rw [ne_eq, hfull] at hne
      obtain ⟨c, t₃, h₃, rfl⟩ := runs_request_bind.mp h₂
      obtain ⟨rfl, rfl⟩ := runs_pure.mp h₃
      exact .controlFailed hfd hr0 (lt_of_le_of_ne hr hne)
    case isFalse hne =>
      obtain rfl : r = 16 := hfull.mp (not_not.mp hne)
      obtain ⟨k, t₃, h₃, rfl⟩ := runs_request_bind.mp h₂
      obtain ⟨hk0, hk⟩ := possible_pwrite
        (hp _ (List.mem_cons_of_mem _ (List.mem_cons_of_mem _ List.mem_cons_self)))
      have hfull : UInt64.ofInt k = UInt64.ofNat command.length ↔ k = command.length := by
        rw [ofInt_eq_iff (by omega) hk0 (by omega), hlen]
      split at h₃
      case isTrue hne =>
        rw [ne_eq, hfull] at hne
        obtain ⟨c, t₄, h₄, rfl⟩ := runs_request_bind.mp h₃
        obtain ⟨rfl, rfl⟩ := runs_pure.mp h₄
        exact .payloadFailed hfd hk0 (lt_of_le_of_ne hk hne)
      case isFalse hne =>
        obtain rfl : k = command.length := hfull.mp (not_not.mp hne)
        obtain ⟨c, t₄, h₄, rfl⟩ := runs_request_bind.mp h₃
        obtain ⟨rfl, rfl⟩ := runs_pure.mp h₄
        exact .written hfd

theorem CommandRun.succeeded_iff {commandType : UInt64} {command : List UInt8}
    {trace : List SysEvent} {ok : Bool} (h : CommandRun commandType command trace ok) :
    (∀ e ∈ trace, Succeeded e) ↔ ok = true := by
  cases h with
  | notOpened hfd => simpa [Succeeded] using hfd
  | controlFailed hfd hr0 hr => simp [Succeeded, hr.ne]
  | payloadFailed hfd hk0 hk => simp [Succeeded, hk.ne]
  | written hfd => simpa [Succeeded] using hfd

end PickleDevice
