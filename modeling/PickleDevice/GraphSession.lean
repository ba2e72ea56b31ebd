import PickleDevice.CreatedJobs
import PickleDevice.DeviceSession
import PickleDevice.Library.Refinement

/-!
A client of the library and its device manager together: from the graph a job is
created for to what the device understands when the job is sent, whatever else
is done before and in between.
-/

namespace PickleDevice

open StateEffect Store

structure Store.OnlyNames (s t : Store) : Prop where
  links : s.KeepsLinks t
  next : t.next = s.next
  ranges : s.KeepsRanges t
  named : ∀ q, (s.desc q).arrayId ≠ unassignedID → t.desc q = s.desc q

namespace Store

variable {s t u : Store}

theorem OnlyNames.refl (s : Store) : s.OnlyNames s := ⟨.refl s, rfl, .refl s, fun _ _ => rfl⟩

theorem OnlyNames.trans (h : s.OnlyNames t) (h' : t.OnlyNames u) : s.OnlyNames u := by
  refine ⟨h.links.trans h'.links, h'.next.trans h.next, h.ranges.trans h'.ranges, ?_⟩
  intro q hq
  have hst := h.named q hq
  rw [h'.named q (by rwa [hst]), hst]

theorem onlyNames_withId (s : Store) (p : ℕ) : s.OnlyNames (s.withId p) :=
  ⟨keepsLinks_withId s p, withId_next, keepsRanges_withId s p, fun _ hq => withId_desc_of_assigned hq⟩

theorem onlyNames_bind {α β : Type} {x : Action α} {f : α → Action β} (hx : Follows OnlyNames x)
    (hf : ∀ a, Follows OnlyNames (f a)) : Follows OnlyNames (x >>= f) :=
  follows_bind (R := OnlyNames) (fun h h' => h.trans h') hx hf

theorem onlyNames_pure {α : Type} (a : α) : Follows OnlyNames (pure a : Action α) :=
  follows_pure OnlyNames.refl a

end Store

namespace PickleJob

theorem follows_at (m : RenameMap) (key : UInt64) : Follows OnlyNames (m.at' key) := by
  intro s
  rw [run_at]
  exact .refl s

theorem follows_readRecord (m : RenameMap) (p : Ptr) : Follows OnlyNames (readRecord m p) := by
  have hid : Follows OnlyNames (getArrayId p) := by
    intro s
    rw [run_getArrayId]
    exact onlyNames_withId s p
  have hget : Follows OnlyNames (get : Action Store) := OnlyNames.refl
  apply onlyNames_bind hid
  intro id
  apply onlyNames_bind (follows_at m id)
  intro id
  apply onlyNames_bind hget
  intro s
  apply onlyNames_bind (follows_at m _)
  exact fun dst => onlyNames_pure _

theorem follows_readRecords (m : RenameMap) (l : List Ptr) : Follows OnlyNames (readRecords m l) := by
  induction l with
  | nil => exact onlyNames_pure _
  | cons p l ih =>
    apply onlyNames_bind (follows_readRecord m p)
    intro r
    exact onlyNames_bind ih fun rs => onlyNames_pure _

theorem follows_getJobDescriptor (job : PickleJob) : Follows OnlyNames job.getJobDescriptor := by
  intro s
  rw [run_getJobDescriptor]
  exact onlyNames_bind (follows_readRecords _ _) (fun rs => onlyNames_pure _) s

theorem keepsRanges_changeByArrayId (change : PickleArrayDescriptor → PickleArrayDescriptor)
    (hr : ∀ d, (change d).addressRange = d.addressRange)
    (he : ∀ d, (change d).elementSize = d.elementSize) (id : UInt64) (l : List Ptr) (s : Store) :
    s.KeepsRanges (run (changeByArrayId change id l) s).2 := by
  induction l generalizing s with
  | nil => exact .refl s
  | cons p l ih =>
    rw [changeByArrayId, run_bind_ok (run_getArrayId p s), run_ite]
    split
    · exact (keepsRanges_withId s p).trans (keepsRanges_modify _ p hr he)
    · exact (keepsRanges_withId s p).trans (ih _)

end PickleJob

theorem PickleDeviceManager.sendJob_store {job : PickleJob} {s t : Store} {trace : List SysEvent}
    {answer : Except Fault Bool} (h : Interaction.Program.Runs (sendJob job s) trace (answer, t)) :
    s.OnlyNames t := by
  have hf := job.follows_getJobDescriptor s
  unfold sendJob at h
  split at h
  case h_1 bytes t' hrun =>
    rw [hrun] at hf
    obtain ⟨success, t₁, t₂, -, h, -⟩ := Interaction.Program.runs_bind.mp h
    cases (Interaction.Program.runs_pure.mp h).2
    exact hf
  case h_2 fault t' hrun =>
    rw [hrun] at hf
    cases (Interaction.Program.runs_pure.mp h).2
    exact hf

def CSRGraph.indexRange (g : CSRGraph) : EdgeDirection → AddressRange
  | .incoming => g.getInIndexAddressRange
  | .outgoing => g.getOutIndexAddressRange

def CSRGraph.neighborsRange (g : CSRGraph) : EdgeDirection → AddressRange
  | .incoming => g.getInNeighborsAddressRange
  | .outgoing => g.getOutNeighborsAddressRange

structure Record.Shows (r : Record) (range : AddressRange) (size : ℕ) : Prop where
  range : (⟨r.vaddrStart, r.vaddrEnd⟩ : AddressRange) = range
  elementSize : r.elementSize = UInt64.ofNat size

namespace Client

variable {w w' : Client} {c : GraphCall}

theorem Valid.names {t : Store} (h : w.Valid) (hn : w.store.OnlyNames t) :
    Valid { w with store := t } := by
  obtain ⟨hs, hsound⟩ := h
  refine ⟨hs.evolves hn.links.evolves, fun hw => ?_⟩
  obtain ⟨role, log, hsound⟩ := hsound ((Evolves.keeps hn.links.evolves).nextID_le.trans hw)
  exact ⟨role, log, sound_change hsound hn.links hn.next⟩

def GraphsShown (w : Client) : Prop :=
  ∀ g ∈ w.graphs, ∃ g₀ p, g = CSRGraph.withDescriptors g₀ p ∧ g.ShownAt w.store p

theorem GraphsShown.keeps {t : Store} (h : w.GraphsShown) (hk : w.store.KeepsRanges t) :
    GraphsShown { w with store := t } := by
  intro g hg
  obtain ⟨g₀, p, he, hshown⟩ := h g hg
  exact ⟨g₀, p, he, hshown.keeps hk⟩

theorem step_graphsShown {op : ClientOp} (h : w.GraphsShown) (hs : w.step op = some w') :
    w'.GraphsShown := by
  cases step_cases hs with
  | graph g =>
    have hold := h.keeps (keepsRanges_constructedStore g w.store)
    intro g' hg
    rcases List.mem_cons.mp hg with rfl | hg
    · exact ⟨g, w.store.next, rfl, g.shownAt_constructedStore w.store⟩
    · exact hold g' hg
  | container hk hn hdesc =>
    apply h.keeps
    apply keepsRanges_of_desc_eq _ hdesc
    omega
  | call hc hrun =>
    obtain ⟨a, -, -, -, -, rfl⟩ := GraphCall.create_cases hrun
    exact h.keeps (keepsRanges_finalStore a w.store)
  | @change c job id t hrun =>
    have hk := PickleJob.keepsRanges_changeByArrayId c.change (fun d => by cases c <;> rfl)
      (fun d => by cases c <;> rfl) id job.arrays w.store
    rw [← c.call_eq, hrun] at hk
    exact h.keeps hk

end Client

structure Session where
  client : Client
  manager : PickleDeviceManager
  calls : List CallTrace

inductive SessionOp
  | client (op : ClientOp)
  | send (job : PickleJob) (trace : List SysEvent)
  | manage (call : CallTrace)

namespace Session

open PickleDeviceManager

def start : Session := ⟨.init, .new, []⟩

/-- `sendJob` reads the job as it is when it is called. -/
inductive Step (w : Session) : SessionOp → Session → Prop
  | client {op : ClientOp} {client : Client} (h : w.client.step op = some client) :
      Step w (.client op) { w with client := client }
  | send {job : PickleJob} {trace : List SysEvent} {answer : Except Fault Bool} {t : Store}
      (hj : w.client.Holds job)
      (hrun : Interaction.Program.Runs (sendJob job w.client.store) trace (answer, t))
      (hp : CallTrace.Possible ⟨.sendJob job w.client.store, trace⟩) :
      Step w (.send job trace) { w with
        client := { w.client with store := t }
        calls := w.calls ++ [⟨.sendJob job w.client.store, trace⟩] }
  | manage {call : CallTrace} {m : PickleDeviceManager}
      (hcall : ∀ job s, call.call ≠ .sendJob job s) (hr : call.Returns w.manager m)
      (hp : call.Possible) :
      Step w (.manage call) { w with manager := m, calls := w.calls ++ [call] }

def Undisturbed (job : PickleJob) (w : Session) : SessionOp → Prop
  | .client op => job.Undisturbed w.client op
  | _ => True

structure Valid (w : Session) : Prop where
  client : w.client.Valid
  shown : w.client.GraphsShown
  manager : ManagerRun w.calls w.manager

variable {w w' : Session} {op : SessionOp} {c : GraphCall} {job : PickleJob} {s : Store}
  {trace : List SysEvent}

theorem valid_start : start.Valid := by
  constructor
  · exact Client.valid_init
  · intro g hg
    cases hg
  · exact .refl

theorem Step.valid (hs : Step w op w') (h : w.Valid) : w'.Valid := by
  cases hs with
  | client hop => exact ⟨Client.step_valid h.client hop, Client.step_graphsShown h.shown hop, h.manager⟩
  | send hj hrun hp =>
    have hn := sendJob_store hrun
    refine ⟨h.client.names hn, h.shown.keeps hn.ranges, ?_⟩
    exact h.manager.tail ⟨⟨rfl, _, hrun⟩, hp⟩
  | manage hcall hr hp => exact ⟨h.client, h.shown, h.manager.tail ⟨hr, hp⟩⟩

theorem run_valid {ops : List SessionOp} (h : Runs.History Step start ops w) : w.Valid := by
  induction h with
  | refl => exact valid_start
  | tail h ho ih => exact ho.valid ih

end Session

end PickleDevice
