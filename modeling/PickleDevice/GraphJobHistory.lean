import PickleDevice.ClientLinks
import PickleDevice.GraphRanges

namespace PickleDevice

open StateEffect Store Runs

namespace Client

variable {w : Client} {c : GraphCall} {role : ℕ → Option ArrayRole} {log : LinkLog}

def YieldsChain (w : Client) (c : GraphCall) : Prop :=
  ∃ job s bytes t, run c.create w.store = (.ok job, s) ∧
    run job.getJobDescriptor s = (.ok bytes, t) ∧
    readLinks bytes = chainLinks c.selector.isSome c.consumer.isSome

/-- The array at the end of the chain was never linked on: without a consumer these are the
neighbors, which keep the link to the consumer of an earlier job; with one it is the consumer, which
keeps the link it got as a selector. -/
structure FreshEnd (w : Client) (c : GraphCall) : Prop where
  described : c.Described
  missing : c.consumer = none → w.NoConsumer c.direction c.graph
  given : ∀ p, c.consumerDescriptor = some p → c.selectorDescriptor ≠ some p ∧ w.NeverSelector p

theorem isSome_of_described {α : Type} {f : α → Option ℕ} {x : Option α} {y : Option ℕ}
    (h : x.map f = y.map some) : x.isSome = y.isSome := by
  cases x <;> cases y <;> simp at h ⊢

theorem Created.yieldsChain_iff_encodeLinks {a : GraphArrays} (ha : Created w role log c a)
    (hr : w.store.Represents log) (hs : Reachable w.store) (hd : c.Described)
    (hw : w.store.nextID + 6 < 2 ^ 64) : w.YieldsChain c ↔
      encodeLinks (a.links ++ log) a.arrays =
        some (chainLinks a.selector.isSome a.consumer.isSome) := by
  obtain ⟨job, hrun, hb⟩ := ha.run
  have harr := hb.arrays_eq
  have hn := a.finalStore_nextID_le w.store
  have hr' := GraphArrays.finalStore_represents hr hs.idsValid ha.live (by omega)
  have hlinks := PickleJob.getJobDescriptor_links hb (by omega) hr' (by rw [harr]; exact a.arrays_length)
    (chainLinks a.selector.isSome a.consumer.isSome)
  have hsel : c.selector.isSome = a.selector.isSome := by
    rw [ha.selector]
    exact isSome_of_described hd.selector
  have hcon : c.consumer.isSome = a.consumer.isSome := by
    rw [ha.consumer]
    exact isSome_of_described hd.consumer
  rw [← harr, ← hlinks, YieldsChain, hsel, hcon]
  constructor
  · rintro ⟨job', s, bytes, t, hrun', hget, hread⟩
    cases hrun.symm.trans hrun'
    have hnamed := hb.wellBuilt.named (hb.assigned (by omega))
    rw [PickleJob.run_getJobDescriptor_of_assigned hnamed] at hget ⊢
    obtain ⟨hget, -⟩ := Prod.mk.inj hget
    exact ⟨bytes, by rw [hget], hread⟩
  · rintro ⟨bytes, hget, hread⟩
    exact ⟨job, _, bytes, _, hrun, hget, hread⟩

theorem yieldsChain_iff {ops : List ClientOp} (h : run step init ops = some w) (hk : w.Knows c)
    (hw : w.store.nextID + 6 < 2 ^ 64) : w.YieldsChain c ↔ w.FreshEnd c := by
  obtain ⟨hs, hsound⟩ := run_valid h
  obtain ⟨role, log, hsound⟩ := hsound (by omega)
  by_cases hd : c.Described
  · obtain ⟨a, ha⟩ := hsound.create hs hk hd
    have hcon : a.consumer = none ↔ c.consumer = none := by
      rw [ha.consumer]
      exact hd.consumer_none
    rw [ha.yieldsChain_iff_encodeLinks hsound.represents hs hd hw]
    constructor
    · intro hchain
      obtain ⟨hmissing, hgiven⟩ := GraphArrays.chain_end hchain
      refine ⟨hd, fun hc => ha.side.unlinked.mp (hmissing (hcon.mpr hc)), fun p hp => ?_⟩
      obtain ⟨hsel, hlook⟩ := hgiven p (ha.consumer.trans hp)
      exact ⟨ha.selector ▸ hsel, ((hsound.container p (hk.2.2 p hp)).2.2).mp hlook⟩
    · rintro ⟨-, hmissing, hgiven⟩
      refine GraphArrays.encodeLinks_chain ha.distinct ha.side.linked
        (fun hc => ha.side.unlinked.mpr (hmissing (hcon.mp hc))) fun p hp => ?_
      rw [ha.consumer] at hp
      obtain ⟨hsel, hnever⟩ := hgiven p hp
      exact ⟨ha.selector ▸ hsel, ((hsound.container p (hk.2.2 p hp)).2.2).mpr hnever⟩
  · refine iff_of_false ?_ fun hf => hd hf.described
    rintro ⟨job, s, bytes, t, hrun, -⟩
    exact hd (GraphCall.described_of_create hrun)

def chainOps : List ClientOp :=
  [.fromDirected CSRGraph.loopMemory intType 1 4096 8192 12288 16384, .default intType]

def chainGraph : CSRGraph :=
  ⟨intType, true, 1, 2, 4096, 8192, 12288, 16384, some 0, some 1, some 2, some 3⟩

def chainCall (consumer : Option PVector) : GraphCall :=
  ⟨.incoming, chainGraph, [107], none, consumer⟩

def chainContainer : PVector := ⟨intType, 0, 0, 0, some 4⟩

def earlierOps : List ClientOp :=
  chainOps ++ [.sized pointerType 2 12288, .createJob (chainCall none),
    .createJob ⟨.outgoing, chainGraph, [107], some (.pvector chainContainer), none⟩]

def selectedCall : GraphCall :=
  ⟨.incoming, chainGraph, [107], some (.pvector chainContainer),
    some ⟨pointerType, 12288, 12304, 12304, some 5⟩⟩

theorem yieldsChain_iff_selectedCall :
    ∃ w, run step init earlierOps = some w ∧ (w.YieldsChain selectedCall ↔ w.FreshEnd selectedCall) := by
  have heval : (run step init earlierOps).map (fun w => (decide (w.Knows selectedCall),
      decide (w.store.nextID + 6 < 2 ^ 64))) = some (true, true) := by decide +kernel
  obtain ⟨w, hw, heval⟩ := Option.map_eq_some_iff.mp heval
  simp only [Prod.mk.injEq, decide_eq_true_eq] at heval
  exact ⟨w, hw, yieldsChain_iff hw heval.1 heval.2⟩

/-- The bytes of the job of a call that is created and encoded at once. -/
def createdBytes (w : Client) (c : GraphCall) : Option (List UInt8) :=
  (run (c.create >>= fun job => job.getJobDescriptor) w.store).1.toOption

theorem createdBytes_eq_some {bytes : List UInt8} : w.createdBytes c = some bytes ↔
    ∃ job s t, run c.create w.store = (.ok job, s) ∧ run job.getJobDescriptor s = (.ok bytes, t) := by
  rw [createdBytes, run_bind]
  rcases run c.create w.store with ⟨fault | job, s⟩
  · simp [Except.toOption]
  · rcases hget : run job.getJobDescriptor s with ⟨fault | bytes', t⟩
    · simp [Except.toOption, hget]
    · simp [Except.toOption, hget]

theorem not_yieldsChain :
    ¬ ∀ (ops : List ClientOp) (w : Client) (c : GraphCall), run step init ops = some w →
      w.Knows c → c.Described → (∀ p, c.consumerDescriptor = some p → c.selectorDescriptor ≠ some p) →
      w.store.nextID + 6 < 2 ^ 64 → w.YieldsChain c := by
  intro hall
  let ops := chainOps ++ [.createJob (chainCall (some chainContainer))]
  have heval : (run step init ops).map (fun w => (decide (w.Knows (chainCall none)),
      decide (w.store.nextID + 6 < 2 ^ 64), w.createdBytes (chainCall none))) =
      some (true, true, none) := by decide +kernel
  obtain ⟨w, hw, heval⟩ := Option.map_eq_some_iff.mp heval
  simp only [Prod.mk.injEq, decide_eq_true_eq] at heval
  obtain ⟨hk, hn, hnone⟩ := heval
  obtain ⟨job, s, bytes, t, hrun, hget, -⟩ :=
    hall ops w (chainCall none) hw hk ⟨rfl, rfl⟩ (fun p hp => by cases hp) hn
  have hsome : w.createdBytes (chainCall none) = some bytes :=
    createdBytes_eq_some.mpr ⟨job, s, t, hrun, hget⟩
  cases hnone.symm.trans hsome

end Client

end PickleDevice
