import PickleDevice.CommandDelivery

namespace PickleDevice

open ByteWords Interaction Program

def markedLog (steps : List (Bool × SysEvent)) : List (Bool × DeviceWrite) :=
  steps.filterMap fun x => (deviceWrite x.2).map (Prod.mk x.1)

def order (log : List (Bool × DeviceWrite)) : List (Bool × ℕ) := log.map fun x => (x.1, x.2.offset)

/-- Each control is followed by the payload of its own command before another control. -/
def Paired : List (Bool × ℕ) → Prop
  | [] => True
  | (side, offset) :: later => (offset = 0 → (side, 1) ∈ later.takeWhile (·.2 ≠ 0)) ∧ Paired later

instance decidablePaired : (writes : List (Bool × ℕ)) → Decidable (Paired writes)
  | [] => .isTrue trivial
  | (side, offset) :: later =>
    have := decidablePaired later
    inferInstanceAs (Decidable ((offset = 0 → (side, 1) ∈ later.takeWhile (·.2 ≠ 0)) ∧ Paired later))

def PayloadFirst (writes : List (Bool × ℕ)) : Prop :=
  ∃ side : Bool, [(side, 1), (!side, 0)].Sublist writes

instance (writes : List (Bool × ℕ)) : Decidable (PayloadFirst writes) :=
  inferInstanceAs (Decidable (∃ side : Bool, [(side, 1), (!side, 0)].Sublist writes))

def commandWrites (command : Command) : List DeviceWrite :=
  [⟨0, announce command.commandType command.payload⟩, ⟨1, command.payload⟩]

section Orders

variable {commandA commandB : Command} {log : List (Bool × DeviceWrite)}

theorem paired_order_iff (h : Interleaving (commandWrites commandA) (commandWrites commandB) log) :
    Paired (order log) ↔ PayloadFirst (order log) := by
  rcases h.pairs with rfl | rfl | rfl | rfl | rfl | rfl <;>
    simp only [order, List.map_cons, List.map_nil] <;> decide

theorem log_of_payloadFirst (h : Interleaving (commandWrites commandA) (commandWrites commandB) log)
    (hfirst : PayloadFirst (order log)) :
    log.map Prod.snd = commandWrites commandA ++ commandWrites commandB ∨
      log.map Prod.snd = commandWrites commandB ++ commandWrites commandA := by
  rcases h.pairs with rfl | rfl | rfl | rfl | rfl | rfl <;>
    simp only [order, List.map_cons, List.map_nil] at hfirst
  case inl => exact .inl rfl
  case inr.inr.inr.inr.inr => exact .inr rfl
  all_goals exact absurd hfirst (by decide)

end Orders

theorem receive_commandWrites {command : Command} (hlt : command.payload.length < 2 ^ 63)
    (control : Option (UInt64 × UInt64)) (log : List DeviceWrite) :
    ∃ control', receive control (commandWrites command ++ log) = command :: receive control' log := by
  have hlen := toNat_size hlt
  refine ⟨some (command.commandType, UInt64.ofNat command.payload.length), ?_⟩
  rw [commandWrites, List.cons_append, announce, receive_control, List.singleton_append,
    receive_payload, if_pos hlen.symm]
  rfl

theorem receive_both {commandA commandB : Command} (hA : commandA.payload.length < 2 ^ 63)
    (hB : commandB.payload.length < 2 ^ 63) :
    receive none (commandWrites commandA ++ commandWrites commandB) = [commandA, commandB] := by
  obtain ⟨control, h⟩ := receive_commandWrites hA none (commandWrites commandB)
  obtain ⟨control', h'⟩ := receive_commandWrites hB control []
  rw [List.append_nil] at h'
  rw [h, h']
  rfl

theorem CommandRun.writeLog_eq {command : Command} {trace : List SysEvent} {ok : Bool}
    (h : CommandRun command.commandType command.payload trace ok) (hs : ∀ e ∈ trace, Succeeded e) :
    writeLog trace = commandWrites command := by
  obtain rfl := h.succeeded_iff.mp hs
  cases h with
  | @written fd c hfd =>
    rw [writeLog_openDevice, writeLog_announce, writeLog_pwrite (by omega), Int.toNat_natCast,
      List.take_length]
    rfl

namespace CommandCall

theorem writeLog_eq {call : CommandCall} {command : Command}
    (hcommand : call.request.command = some command) (hs : ∀ e ∈ call.trace, Succeeded e) :
    writeLog call.trace = commandWrites command ∧ command.payload.length < 2 ^ 63 := by
  obtain ⟨hnone, -⟩ | ⟨command', ok, hcommand', -, hlt, hrun⟩ :=
    CommandRequest.runs_program call.possible call.runs
  · cases hnone.symm.trans hcommand
  · obtain rfl := Option.some.inj (hcommand.symm.trans hcommand')
    exact ⟨hrun.writeLog_eq hs, hlt⟩

theorem paired_iff {a b : CommandCall} {commandA commandB : Command} {steps : List (Bool × SysEvent)}
    (hA : a.request.command = some commandA) (hB : b.request.command = some commandB)
    (ha : ∀ e ∈ a.trace, Succeeded e) (hb : ∀ e ∈ b.trace, Succeeded e)
    (h : Interleaving a.trace b.trace steps) :
    (Paired (order (markedLog steps)) ↔ PayloadFirst (order (markedLog steps))) ∧
      (PayloadFirst (order (markedLog steps)) →
        PickleDevice.receive none ((markedLog steps).map Prod.snd) = [commandA, commandB] ∨
          PickleDevice.receive none ((markedLog steps).map Prod.snd) = [commandB, commandA]) := by
  obtain ⟨hlogA, hltA⟩ := writeLog_eq hA ha
  obtain ⟨hlogB, hltB⟩ := writeLog_eq hB hb
  have hlog : Interleaving (commandWrites commandA) (commandWrites commandB) (markedLog steps) := by
    rw [← hlogA, ← hlogB]
    exact h.filterMap deviceWrite
  refine ⟨paired_order_iff hlog, fun hfirst => ?_⟩
  obtain hwrites | hwrites := log_of_payloadFirst hlog hfirst
  · left
    rw [hwrites, receive_both hltA hltB]
  · right
    rw [hwrites, receive_both hltB hltA]

def bfsCommand : Command := ⟨2, [0, 98, 102, 115]⟩

theorem run_bfs : StateEffect.run (PickleJob.new [98, 102, 115]).getJobDescriptor Store.init =
    (.ok bfsCommand.payload, Store.init) := rfl

def bfsCall : CommandCall where
  request := .sendJob (PickleJob.new [98, 102, 115]) Store.init fun bytes t h => by
    cases run_bfs.symm.trans h
    decide
  trace := succeededTrace 3 bfsCommand
  answer := .ok true
  runs := .ask _ (.ask _ (.ask _ (.ask _ (.done _))))
  possible := possible_succeededTrace 3 bfsCommand

def pageCommand : Command := ⟨1, PickleDeviceManager.rangeBytes 0x5000⟩

def pageCall : CommandCall where
  request := .watchRange (PickleDeviceManager.new.registerUncacheablePage 7 0x7f00 0x5000) 7
  trace := succeededTrace 4 pageCommand
  answer := .ok true
  runs := .ask _ (.ask _ (.ask _ (.ask _ (.done _))))
  possible := possible_succeededTrace 4 pageCommand

theorem paired_iff_bfsCall : ∃ steps, Interleaving bfsCall.trace pageCall.trace steps ∧
    PayloadFirst (order (markedLog steps)) ∧ Paired (order (markedLog steps)) ∧
      (PickleDevice.receive none ((markedLog steps).map Prod.snd) = [bfsCommand, pageCommand] ∨
        PickleDevice.receive none ((markedLog steps).map Prod.snd) = [pageCommand, bfsCommand]) := by
  have hbfs : ∀ e ∈ bfsCall.trace, Succeeded e := succeeded_succeededTrace (by decide) _
  have hpage : ∀ e ∈ pageCall.trace, Succeeded e := succeeded_succeededTrace (by decide) _
  have h : Interleaving bfsCall.trace pageCall.trace _ :=
    .right (.left (.left (.left (.right (.right (.left (.right .nil)))))))
  obtain ⟨hiff, hboth⟩ := paired_iff rfl rfl hbfs hpage h
  refine ⟨_, h, ?hfirst, hiff.mpr ?hfirst, hboth ?hfirst⟩
  decide

theorem not_always_paired : ¬ ∀ (a b : CommandCall) (commandA commandB : Command)
    (steps : List (Bool × SysEvent)), a.request.command = some commandA →
    b.request.command = some commandB → (∀ e ∈ a.trace, Succeeded e) → (∀ e ∈ b.trace, Succeeded e) →
    Interleaving a.trace b.trace steps → Paired (order (markedLog steps)) ∧
      (PickleDevice.receive none ((markedLog steps).map Prod.snd) = [commandA, commandB] ∨
        PickleDevice.receive none ((markedLog steps).map Prod.snd) = [commandB, commandA]) := by
  intro hall
  have hbfs : ∀ e ∈ bfsCall.trace, Succeeded e := succeeded_succeededTrace (by decide) _
  have hpage : ∀ e ∈ pageCall.trace, Succeeded e := succeeded_succeededTrace (by decide) _
  have h : Interleaving bfsCall.trace pageCall.trace _ :=
    .left (.right (.left (.right (.left (.right (.left (.right .nil)))))))
  exact absurd (hall _ _ _ _ _ rfl rfl hbfs hpage h).1 (by decide)

end CommandCall

end PickleDevice
