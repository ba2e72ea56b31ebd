import PickleDevice.CommandRuns

/-!
A receiver that reads the writes that reach the device recovers exactly the
commands whose calls reported success.
-/

namespace PickleDevice

open ByteWords Interaction Program

structure Command where
  commandType : UInt64
  payload : List UInt8
  deriving DecidableEq, Repr

def DeviceWrite.control? (w : DeviceWrite) : Option (UInt64 × UInt64) :=
  if w.offset = 0 ∧ w.bytes.length = 16 then
    some (readWord64 (w.bytes.take 8), readWord64 (w.bytes.drop 8))
  else none

def DeviceWrite.payload? (w : DeviceWrite) (control : Option (UInt64 × UInt64)) : Option Command :=
  match control with
  | some (commandType, commandLength) =>
    if w.offset = 1 ∧ w.bytes.length = commandLength.toNat then some ⟨commandType, w.bytes⟩ else none
  | none => none

/-- The receiver: it remembers the latest complete control and accepts payloads of its length. -/
def receive (control : Option (UInt64 × UInt64)) : List DeviceWrite → List Command
  | [] => []
  | w :: log => (w.payload? control).toList ++ receive (w.control?.or control) log

theorem control?_controlBytes (commandType commandLength : UInt64) :
    (⟨0, controlBytes commandType commandLength⟩ : DeviceWrite).control? =
      some (commandType, commandLength) := by
  have htake : (controlBytes commandType commandLength).take 8 = word64 commandType := by
    rw [controlBytes, List.take_append_of_le_length (by simp), List.take_of_length_le (by simp)]
  have hdrop : (controlBytes commandType commandLength).drop 8 = word64 commandLength := by
    rw [controlBytes, List.drop_append_of_le_length (by simp), List.drop_of_length_le (by simp),
      List.nil_append]
  rw [DeviceWrite.control?, if_pos ⟨rfl, controlBytes_length _ _⟩, htake, hdrop, readWord64_word64,
    readWord64_word64]

theorem control?_take {bytes : List UInt8} {k : ℕ} (hk : k ≠ 16) (hle : k ≤ bytes.length) :
    (⟨0, bytes.take k⟩ : DeviceWrite).control? = none := by
  rw [DeviceWrite.control?, if_neg]
  rintro ⟨-, hl⟩
  rw [List.length_take, Nat.min_eq_left hle] at hl
  exact hk hl

theorem payload?_offset_zero (bytes : List UInt8) (control : Option (UInt64 × UInt64)) :
    (⟨0, bytes⟩ : DeviceWrite).payload? control = none := by
  cases control <;> simp [DeviceWrite.payload?]

theorem receive_control (commandType commandLength : UInt64) (control : Option (UInt64 × UInt64))
    (log : List DeviceWrite) :
    receive control (⟨0, controlBytes commandType commandLength⟩ :: log) =
      receive (some (commandType, commandLength)) log := by
  rw [receive, payload?_offset_zero, control?_controlBytes]
  rfl

theorem receive_cut_control {bytes : List UInt8} {k : ℕ} (hk : k ≠ 16) (hle : k ≤ bytes.length)
    (control : Option (UInt64 × UInt64)) (log : List DeviceWrite) :
    receive control (⟨0, bytes.take k⟩ :: log) = receive control log := by
  rw [receive, payload?_offset_zero, control?_take hk hle]
  rfl

theorem receive_payload (commandType commandLength : UInt64) (bytes : List UInt8)
    (log : List DeviceWrite) :
    receive (some (commandType, commandLength)) (⟨1, bytes⟩ :: log) =
      (if bytes.length = commandLength.toNat then [⟨commandType, bytes⟩] else []) ++
        receive (some (commandType, commandLength)) log := by
  have hcontrol : (⟨1, bytes⟩ : DeviceWrite).control? = none := by simp [DeviceWrite.control?]
  rw [receive, hcontrol, DeviceWrite.payload?]
  split_ifs <;> simp_all

theorem receive_announced {commandType : UInt64} {command : List UInt8} (fd k c : ℤ)
    (hlt : command.length < 2 ^ 63) (hk0 : -1 ≤ k) (hk : k ≤ command.length)
    (control : Option (UInt64 × UInt64)) (log : List DeviceWrite) :
    receive control (writeLog [⟨.openDevice false, fd⟩,
      ⟨.pwrite fd (announce commandType command) 0, (16 : ℤ)⟩, ⟨.pwrite fd command 1, k⟩,
      ⟨.close fd, c⟩] ++ log) =
      (if k = command.length then [⟨commandType, command⟩] else []) ++
        receive (some (commandType, UInt64.ofNat command.length)) log := by
  have hlen := toNat_size hlt
  rw [writeLog_openDevice, writeLog_announce]
  by_cases h0 : 0 ≤ k
  · rw [writeLog_pwrite h0, writeLog_close, writeLog_nil, List.cons_append, announce, receive_control,
      List.singleton_append, receive_payload, hlen, List.length_take, Nat.min_eq_left (by omega)]
    by_cases hfull : k = command.length
    · rw [if_pos (by omega), if_pos hfull, List.take_of_length_le (by omega)]
    · rw [if_neg (by omega), if_neg hfull]
  · rw [writeLog_pwrite_failed h0, writeLog_close, writeLog_nil, List.singleton_append, announce,
      receive_control, if_neg (by omega)]
    rfl

theorem CommandRun.receive {commandType : UInt64} {command : List UInt8} {trace : List SysEvent}
    {ok : Bool} (h : CommandRun commandType command trace ok) (hlt : command.length < 2 ^ 63)
    (control : Option (UInt64 × UInt64)) :
    ∃ control', ∀ log, PickleDevice.receive control (writeLog trace ++ log) =
      (if ok then [⟨commandType, command⟩] else []) ++ PickleDevice.receive control' log := by
  cases h with
  | notOpened hfd => exact ⟨control, fun log => rfl⟩
  | @controlFailed fd r c hfd hr0 hr =>
    refine ⟨control, fun log => ?_⟩
    rw [writeLog_openDevice]
    by_cases h0 : 0 ≤ r
    · rw [writeLog_pwrite h0]
      exact receive_cut_control (by omega) (by rw [announce_length]; omega) control log
    · rw [writeLog_pwrite_failed h0]
      rfl
  | payloadFailed hfd hk0 hk =>
    refine ⟨some (commandType, UInt64.ofNat command.length), fun log => ?_⟩
    rw [receive_announced _ _ _ hlt hk0 hk.le, if_neg hk.ne]
    rfl
  | written hfd =>
    refine ⟨some (commandType, UInt64.ofNat command.length), fun log => ?_⟩
    rw [receive_announced _ _ _ hlt (by omega) le_rfl, if_pos rfl]
    rfl

/-- A command the manager is asked to write; no `std::vector` holds `2 ^ 63` bytes. -/
inductive CommandRequest
  | sendJob (job : PickleJob) (s : Store)
      (fits : ∀ bytes t, StateEffect.run job.getJobDescriptor s = (.ok bytes, t) →
        bytes.length < 2 ^ 63)
  | watchRange (m : PickleDeviceManager) (mmapId : UInt64)

namespace CommandRequest

def program : CommandRequest → SysProgram (Except Fault Bool)
  | .sendJob job s _ => do
    let (answer, _) ← PickleDeviceManager.sendJob job s
    return answer
  | .watchRange m mmapId => do
    let (success, _) ← m.writeUncacheablePagePaddr mmapId
    return .ok success

def command : CommandRequest → Option Command
  | .sendJob job s _ =>
    match (StateEffect.run job.getJobDescriptor s).1 with
    | .ok jobDescriptor => some ⟨PickleDeviceCommand.sendJobDescriptor.toUInt64, jobDescriptor⟩
    | .error _ => none
  | .watchRange m mmapId =>
    some ⟨PickleDeviceCommand.addWatchRange.toUInt64,
      PickleDeviceManager.rangeBytes (m.mmapIdToUcPaddrMap.fetch mmapId).1⟩

theorem runs_program {request : CommandRequest} {trace : List SysEvent} {answer : Except Fault Bool}
    (hp : ∀ e ∈ trace, Possible e) (h : Runs request.program trace answer) :
    (request.command = none ∧ trace = [] ∧ ∃ fault, answer = .error fault) ∨
      ∃ command ok, request.command = some command ∧ answer = .ok ok ∧
        command.payload.length < 2 ^ 63 ∧
        CommandRun command.commandType command.payload trace ok := by
  cases request with
  | sendJob job s fits =>
    obtain ⟨⟨a, u⟩, t₁, t₂, h₁, h₂, rfl⟩ := runs_bind.mp h
    obtain ⟨rfl, rfl⟩ := runs_pure.mp h₂
    rw [PickleDeviceManager.sendJob] at h₁
    split at h₁
    case h_1 jobDescriptor t hrun =>
      obtain ⟨ok, t₃, t₄, h₃, h₄, rfl⟩ := runs_bind.mp h₁
      obtain ⟨rfl, hpair⟩ := runs_pure.mp h₄
      obtain ⟨rfl, rfl⟩ := Prod.mk.inj hpair
      refine .inr ⟨⟨PickleDeviceCommand.sendJobDescriptor.toUInt64, jobDescriptor⟩, ok, ?_, rfl,
        fits _ _ hrun, ?_⟩
      · simp only [command, hrun]
      · rw [List.append_nil, List.append_nil] at hp ⊢
        exact commandRun_of_runs (fits _ _ hrun) hp h₃
    case h_2 fault t hrun =>
      obtain ⟨rfl, hpair⟩ := runs_pure.mp h₁
      obtain ⟨rfl, rfl⟩ := Prod.mk.inj hpair
      exact .inl ⟨by simp only [command, hrun], rfl, fault, rfl⟩
  | watchRange m mmapId =>
    obtain ⟨⟨ok, u⟩, t₁, t₂, h₁, h₂, rfl⟩ := runs_bind.mp h
    obtain ⟨rfl, rfl⟩ := runs_pure.mp h₂
    obtain ⟨ok', t₃, t₄, h₃, h₄, rfl⟩ := runs_bind.mp h₁
    obtain ⟨rfl, hpair⟩ := runs_pure.mp h₄
    obtain ⟨rfl, rfl⟩ := Prod.mk.inj hpair
    have hlt := PickleDeviceManager.rangeBytes_lt (m.mmapIdToUcPaddrMap.fetch mmapId).1
    refine .inr ⟨_, ok, rfl, rfl, hlt, ?_⟩
    rw [List.append_nil, List.append_nil] at hp ⊢
    exact commandRun_of_runs hlt hp h₃

end CommandRequest

structure CommandCall where
  request : CommandRequest
  trace : List SysEvent
  answer : Except Fault Bool
  runs : Runs request.program trace answer
  possible : ∀ e ∈ trace, Possible e

namespace CommandCall

def delivered (call : CommandCall) : Option Command :=
  match call.answer with
  | .ok true => call.request.command
  | _ => none

theorem receive (call : CommandCall) (control : Option (UInt64 × UInt64)) :
    ∃ control', ∀ log, PickleDevice.receive control (writeLog call.trace ++ log) =
      call.delivered.toList ++ PickleDevice.receive control' log := by
  obtain ⟨-, htrace, fault, hanswer⟩ | ⟨command, ok, hcommand, hanswer, hlt, hrun⟩ :=
    CommandRequest.runs_program call.possible call.runs
  · refine ⟨control, fun log => ?_⟩
    rw [htrace, delivered, hanswer]
    rfl
  · obtain ⟨control', h⟩ := hrun.receive hlt control
    refine ⟨control', fun log => ?_⟩
    rw [h log, delivered, hanswer]
    cases ok with
    | false => rfl
    | true => simp only [hcommand]; rfl

theorem receive_calls (calls : List CommandCall) (control : Option (UInt64 × UInt64)) :
    PickleDevice.receive control (writeLog (calls.flatMap trace)) = calls.filterMap delivered := by
  induction calls generalizing control with
  | nil => rfl
  | cons call calls ih =>
    obtain ⟨control', h⟩ := call.receive control
    rw [List.flatMap_cons, writeLog_append, h, ih control', List.filterMap_cons]
    cases call.delivered <;> rfl

theorem receive_eq_delivered (calls : List CommandCall) :
    PickleDevice.receive none (writeLog (calls.flatMap trace)) = calls.filterMap delivered :=
  receive_calls calls none

end CommandCall

def succeededTrace (fd : ℤ) (command : Command) : List SysEvent :=
  [⟨.openDevice false, fd⟩, ⟨.pwrite fd (announce command.commandType command.payload) 0, (16 : ℤ)⟩,
    ⟨.pwrite fd command.payload 1, (command.payload.length : ℤ)⟩, ⟨.close fd, (0 : ℤ)⟩]

theorem succeeded_succeededTrace {fd : ℤ} (hfd : 0 ≤ fd) (command : Command) :
    ∀ e ∈ succeededTrace fd command, Succeeded e := by
  simp [succeededTrace, Succeeded, hfd]

theorem possible_succeededTrace (fd : ℤ) (command : Command) :
    ∀ e ∈ succeededTrace fd command, Possible e := by
  simp [succeededTrace, Possible]

end PickleDevice
