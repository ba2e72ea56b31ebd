import PickleDevice.JobChain
import PickleDevice.Library.Runs

/-!
A client of the library: it constructs graphs and containers, creates graph jobs
from them in any order and changes fields of jobs it holds.
-/

namespace PickleDevice

open StateEffect Store Runs

inductive Container
  | pvector (v : PVector)
  | slidingQueue (q : SlidingQueue)

instance : ArrayContainer Container where
  getArrayDescriptor
    | .pvector v => v.getArrayDescriptor
    | .slidingQueue q => q.getArrayDescriptor

inductive EdgeDirection
  | incoming
  | outgoing
  deriving DecidableEq

namespace CSRGraph

def indexOf (g : CSRGraph) : EdgeDirection → Option Ptr
  | .incoming => g.getInIndexArrayDescriptor
  | .outgoing => g.getOutIndexArrayDescriptor

def neighborsOf (g : CSRGraph) : EdgeDirection → Option Ptr
  | .incoming => g.getInNeighborsArrayDescriptor
  | .outgoing => g.getOutNeighborsArrayDescriptor

end CSRGraph

structure GraphCall where
  direction : EdgeDirection
  graph : CSRGraph
  kernelName : List UInt8
  selector : Option Container
  consumer : Option PVector

namespace GraphCall

def create (c : GraphCall) : Action PickleJob :=
  match c.direction with
  | .incoming => createGraphJobUsingIncomingEdges c.graph c.kernelName c.selector c.consumer
  | .outgoing => createGraphJobUsingOutgoingEdges c.graph c.kernelName c.selector c.consumer

def selectorDescriptor (c : GraphCall) : Option ℕ := c.selector.bind ArrayContainer.getArrayDescriptor

def consumerDescriptor (c : GraphCall) : Option ℕ := c.consumer.bind PVector.getArrayDescriptor

structure Described (c : GraphCall) : Prop where
  selector : c.selector.map ArrayContainer.getArrayDescriptor = c.selectorDescriptor.map some
  consumer : c.consumer.map PVector.getArrayDescriptor = c.consumerDescriptor.map some

theorem create_eq (c : GraphCall) : c.create = createGraphJob (c.graph.indexOf c.direction)
    (c.graph.neighborsOf c.direction) (indexedBy (c.graph.indexOf c.direction)) c.kernelName c.selector
    c.consumer := by
  rcases c with ⟨d, g, k, sel, con⟩
  cases d <;> rfl

theorem follows_create (c : GraphCall) : Follows Evolves c.create := by
  rw [create_eq]
  exact follows_createGraphJob _ _ _ _ _

theorem described_of_create {c : GraphCall} {s t : Store} {job : PickleJob}
    (h : run c.create s = (.ok job, t)) : c.Described := by
  rw [create_eq] at h
  obtain ⟨-, -, hsel, hcon⟩ := createGraphJob_ok h
  constructor
  · unfold selectorDescriptor
    cases hs : c.selector with
    | none => rfl
    | some x =>
      obtain ⟨p, hp⟩ := hsel x hs
      simp [hp]
  · unfold consumerDescriptor
    cases hs : c.consumer with
    | none => rfl
    | some x =>
      obtain ⟨p, hp⟩ := hcon x hs
      simp [hp]

theorem Described.consumer_none {c : GraphCall} (h : c.Described) :
    c.consumerDescriptor = none ↔ c.consumer = none := by
  have hmap := h.consumer
  cases hc : c.consumer <;> cases hd : c.consumerDescriptor <;> simp [hc, hd] at hmap ⊢

theorem create_cases {c : GraphCall} {s t : Store} {job : PickleJob}
    (h : run c.create s = (.ok job, t)) :
    ∃ a : GraphArrays, c.graph.indexOf c.direction = some a.index ∧
      c.graph.neighborsOf c.direction = some a.neighbors ∧ a.selector = c.selectorDescriptor ∧
      a.consumer = c.consumerDescriptor ∧ t = a.finalStore s := by
  have hd := described_of_create h
  rw [create_eq] at h
  obtain ⟨⟨i, hi⟩, ⟨n, hn⟩, -, -⟩ := createGraphJob_ok h
  let a : GraphArrays := ⟨i, n, c.selectorDescriptor, c.consumerDescriptor⟩
  obtain ⟨job', hrun, -⟩ := GraphArrays.run_createGraphJob a s c.kernelName hd.selector hd.consumer
  rw [hi, hn] at h
  cases h.symm.trans hrun
  exact ⟨a, hi, hn, rfl, rfl, rfl⟩

end GraphCall

/-- The store, the graphs constructed, the descriptors given to containers when they were
constructed, and the graph jobs created so far, the newest first. A container may hand its
descriptor on to another one, so containers are known here by the descriptor they hold. -/
structure Client where
  store : Store
  graphs : List CSRGraph
  containers : List ℕ
  calls : List GraphCall

inductive ClientOp
  | undirected (mem : Memory) (T : ElementType) (numNodes index neighs : ℤ)
  | fromDirected (mem : Memory) (T : ElementType) (numNodes outIndex outNeighs inIndex inNeighs : ℤ)
  | default (T : ElementType)
  | sized (T : ElementType) (numElements : ℕ) (new : ℤ)
  | filled (T : ElementType) (numElements : ℕ) (new : ℤ)
  | copied (T : ElementType) (copyBegin copyEnd new : ℤ)
  | queue (T : ElementType) (sharedSize : ℕ) (new : ℤ)
  | createJob (call : GraphCall)
  | changeAccessType (job : PickleJob) (arrayId : UInt64) (accessType : AccessType)
  | changeAddressingMode (job : PickleJob) (arrayId : UInt64) (addressingMode : AddressingMode)

namespace Client

def init : Client := ⟨.init, [], [], []⟩

def perform {α : Type} (w : Client) (action : Action α) (record : α → Client → Client) :
    Option Client :=
  match run action w.store with
  | (.ok a, s) => some (record a { w with store := s })
  | (.error _, _) => none

def addGraph (g : CSRGraph) (w : Client) : Client := { w with graphs := g :: w.graphs }

def addContainer (descriptor : Option ℕ) (w : Client) : Client :=
  { w with containers := descriptor.toList ++ w.containers }

def addCall (c : GraphCall) (w : Client) : Client := { w with calls := c :: w.calls }

def Knows (w : Client) (c : GraphCall) : Prop :=
  c.graph ∈ w.graphs ∧ (∀ p ∈ c.selectorDescriptor, p ∈ w.containers) ∧
    ∀ p ∈ c.consumerDescriptor, p ∈ w.containers

instance (w : Client) (c : GraphCall) : Decidable (w.Knows c) := inferInstanceAs (Decidable (_ ∧ _))

def Holds (w : Client) (job : PickleJob) : Prop := ∀ p ∈ job.arrays, p < w.store.next

instance (w : Client) (job : PickleJob) : Decidable (w.Holds job) := List.decidableBAll _ _

def step (w : Client) : ClientOp → Option Client
  | .undirected mem T numNodes index neighs =>
    w.perform (CSRGraph.undirected mem T numNodes index neighs) addGraph
  | .fromDirected mem T numNodes outIndex outNeighs inIndex inNeighs =>
    w.perform (CSRGraph.fromDirected mem T numNodes outIndex outNeighs inIndex inNeighs) addGraph
  | .default T => w.perform (PVector.default T) fun v => addContainer v.getArrayDescriptor
  | .sized T n new => w.perform (PVector.sized T n new) fun v => addContainer v.getArrayDescriptor
  | .filled T n new => w.perform (PVector.filled T n new) fun v => addContainer v.getArrayDescriptor
  | .copied T b e new =>
    w.perform (PVector.copied T b e new) fun v => addContainer v.getArrayDescriptor
  | .queue T n new => w.perform (SlidingQueue.sized T n new) fun q => addContainer q.getArrayDescriptor
  | .createJob c => if w.Knows c then w.perform c.create fun _ => addCall c else none
  | .changeAccessType job id t =>
    if w.Holds job then w.perform (job.changeAccessTypeByArrayId id t) fun _ w => w else none
  | .changeAddressingMode job id m =>
    if w.Holds job then w.perform (job.changeAddressingModeByArrayId id m) fun _ w => w else none

end Client

end PickleDevice
