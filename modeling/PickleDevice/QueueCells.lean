import PickleDevice.GraphDump
import PickleDevice.QueueDelivery

namespace PickleDevice

open Ownership Reservation

def QueueContents.write {α : Type} (q : QueueContents α) (msg : String) : Dump (Option α) :=
  ⟨msg, q.allocSize, (List.range q.allocSize).map q.shared⟩

/-- A queue since its last `reset`, and what the array held then. -/
structure Rewound (α : Type) where
  now : Appended α
  beneath : List α

namespace Rewound

variable {α : Type} {r : Rewound α} {ops : List (Appended.Op α)}

def nothing : Rewound α := ⟨.nothing, []⟩

def cells (r : Rewound α) : List α := r.now.values ++ r.beneath.drop r.now.values.length

def step (r : Rewound α) : Appended.Op α → Rewound α
  | .reset => ⟨r.now.step .reset, r.cells⟩
  | op => ⟨r.now.step op, r.beneath⟩

theorem length_cells (r : Rewound α) :
    r.cells.length = max r.now.values.length r.beneath.length := by
  simp only [cells, List.length_append, List.length_drop]
  omega

theorem getElem?_cells {i : ℕ} (hi : r.now.values.length ≤ i) : r.cells[i]? = r.beneath[i]? := by
  rw [cells, List.getElem?_append_right hi, List.getElem?_drop]
  congr 1
  omega

theorem foldl_now : (ops.foldl step r).now = ops.foldl Appended.step r.now := by
  induction ops generalizing r with
  | nil => rfl
  | cons op ops ih =>
    rw [List.foldl_cons, ih, List.foldl_cons]
    cases op <;> rfl

theorem foldl_beneath (hno : Appended.Op.reset ∉ ops) :
    (ops.foldl step r).beneath = r.beneath := by
  induction ops generalizing r with
  | nil => rfl
  | cons op ops ih =>
    rw [List.mem_cons, not_or] at hno
    rw [List.foldl_cons, ih hno.2]
    cases op with
    | reset => exact absurd rfl hno.1
    | _ => rfl

end Rewound

namespace SharedQueue

variable {α : Type} {s u : SharedQueue α} {a : Appended α} {r : Rewound α} {e : Event α}
  {events : List (Event α)} {n i : ℕ}

theorem step_shared (hs : s.step e = some u) (hi : i ∉ s.targets e) :
    u.queue.shared i = s.queue.shared i := by
  cases e with
  | create b n =>
    obtain ⟨-, rfl⟩ := step_create hs
    rfl
  | pushBack b x =>
    obtain ⟨q, -, -, ⟨-, rfl⟩ | ⟨-, rfl⟩⟩ := step_pushBack hs
    · rfl
    · rfl
  | flush b =>
    obtain ⟨q, -, -, rfl⟩ := step_flush hs
    rfl
  | copy b =>
    obtain ⟨w, x, hw, -, -, -, hqueue, -⟩ := board_copy [] hs
    rw [target_mem [] hw] at hi
    rw [hqueue]
    exact Function.update_of_ne hi _ _
  | finish b =>
    obtain ⟨q, f, -, -, -, -, rfl⟩ := step_finish hs
    rfl
  | destroy b =>
    obtain ⟨q, -, -, rfl⟩ := step_destroy hs
    rfl
  | queuePushBack x =>
    obtain ⟨-, rfl⟩ := step_queuePushBack hs
    exact Function.update_of_ne (by simpa [targets] using hi) _ _
  | slideWindow =>
    cases hs
    rfl
  | reset =>
    cases hs
    rfl

theorem reset_notMem_ops (he : e ≠ .reset) : Appended.Op.reset ∉ s.ops e := by
  cases e with
  | pushBack b x =>
    simp only [ops]
    split <;> simp
  | reset => exact absurd rfl he
  | _ => simp [ops]

def Owed (s : SharedQueue α) (i : ℕ) : Prop :=
  ∃ b q f, s.busy b = some (q, f) ∧ f.copyStart + f.copied ≤ i ∧
    i < f.copyStart + q.localQueue.length

theorem Follows.settled_iff_owed (h : Follows s a) :
    (s.board a.values).Settled i ↔ i < s.queue.sharedIn ∧ ¬ s.Owed i := by
  rw [settled_iff, h.length_values]
  apply and_congr_right
  intro _
  constructor
  · rintro hno ⟨b, q, f, hb, ho⟩
    exact hno b q f hb ho
  · intro hno b q f hb ho
    exact hno ⟨b, q, f, hb, ho⟩

theorem Quiet.not_owed (hq : s.Quiet) : ¬ s.Owed i := by
  rintro ⟨b, q, f, hb, -⟩
  cases (hq b).symm.trans hb

structure Rewinds (s : SharedQueue α) (r : Rewound α) : Prop where
  follows : Follows s r.now
  beneath : ∀ i, ¬ (s.board r.now.values).Settled i → s.queue.shared i = r.beneath[i]?

theorem Rewinds.shared_eq (h : Rewinds s r) (i : ℕ) : (¬ s.Owed i → s.queue.shared i = r.cells[i]?) ∧
    (s.Owed i → s.queue.shared i = r.beneath[i]?) := by
  constructor
  · intro ho
    by_cases hi : i < s.queue.sharedIn
    · have hlt : i < r.now.values.length := h.follows.length_values ▸ hi
      rw [h.follows.shows i (h.follows.settled_iff_owed.mpr ⟨hi, ho⟩), Rewound.cells,
        List.getElem?_append_left hlt]
      rfl
    · have hle : r.now.values.length ≤ i := by
        rw [h.follows.length_values]
        omega
      rw [Rewound.getElem?_cells hle]
      exact h.beneath i fun hs => hi (h.follows.settled_iff_owed.mp hs).1
  · intro ho
    exact h.beneath i fun hs => (h.follows.settled_iff_owed.mp hs).2 ho

theorem Rewinds.new (n : ℕ) : Rewinds (new n : SharedQueue α) .nothing :=
  ⟨Follows.new n, fun _ _ => rfl⟩

theorem Rewinds.step (h : Rewinds s r) (hc : s.Alone e) (hs : s.step e = some u) :
    Rewinds u ((s.ops e).foldl Rewound.step r) := by
  constructor
  · rw [Rewound.foldl_now]
    exact h.follows.step hc hs
  · intro i hi
    by_cases he : e = .reset
    · subst he
      cases hs
      exact (h.shared_eq i).1 hc.not_owed
    · rw [Rewound.foldl_now, h.follows.settled_step he hs, not_or] at hi
      rw [Rewound.foldl_beneath (reset_notMem_ops he), step_shared hs hi.2]
      exact h.beneath i hi.1

theorem Rewinds.length_cells (h : Rewinds s r) :
    r.cells.length = max s.queue.sharedIn r.beneath.length := by
  rw [Rewound.length_cells, h.follows.length_values]

theorem step_sharedIn_le (h : Follows s a) (he : e ≠ .reset) (hc : s.Alone e)
    (hs : s.step e = some u) : s.queue.sharedIn ≤ u.queue.sharedIn := by
  have hu := h.step hc hs
  rw [h.claimed, hu.claimed]
  cases e with
  | pushBack b x =>
    simp only [ops]
    split
    · simp [Appended.step, Appended.content]
    · exact Nat.le_refl _
  | reset => exact absurd rfl he
  | _ => simp [ops, Appended.step, Appended.content]

theorem Rewinds.length_cells_step (h : Rewinds s r) (hc : s.Alone e) (hs : s.step e = some u) :
    ((s.ops e).foldl Rewound.step r).cells.length = max r.cells.length u.queue.sharedIn := by
  rw [(h.step hc hs).length_cells]
  by_cases he : e = .reset
  · subst he
    cases hs
    exact Nat.max_comm _ _
  · have hle := step_sharedIn_le h.follows he hc hs
    rw [Rewound.foldl_beneath (reset_notMem_ops he), h.length_cells]
    omega

theorem run_rewinds (hc : Runs.EachStep step Alone (new n) events)
    (h : Runs.run step (new n) events = some u) :
    Rewinds u ((Refinement.trace step ops (new n) events).foldl Rewound.step .nothing) := by
  apply Refinement.run_related _ (Rewinds.new n) hc h
  intro s e t r hr he hs
  exact hr.step he hs

theorem run_allocSize (h : Runs.run step s events = some u) :
    u.queue.allocSize = s.queue.allocSize := by
  apply Runs.run_invariant (P := fun t => t.queue.allocSize = s.queue.allocSize) _ rfl h
  intro t e v ht hv
  exact (step_allocSize hv).trans ht

theorem reset_notMem_trace (hno : Event.reset ∉ events) (h : Runs.run step s events = some u) :
    Appended.Op.reset ∉ Refinement.trace step ops s events := by
  induction events generalizing s with
  | nil => exact List.not_mem_nil
  | cons e events ih =>
    obtain ⟨t, ht, h⟩ := Option.bind_eq_some_iff.mp h
    rw [List.mem_cons, not_or] at hno
    rw [Refinement.trace_cons ht, List.mem_append, not_or]
    exact ⟨reset_notMem_ops (Ne.symm hno.1), ih hno.2 h⟩

theorem run_rewinds_of_no_reset (hc : Runs.EachStep step Alone (new n) events)
    (hno : Event.reset ∉ events) (h : Runs.run step (new n) events = some u) :
    Rewinds u ⟨(Refinement.trace step ops (new n) events).foldl Appended.step .nothing, []⟩ := by
  have hr := run_rewinds hc h
  have hbeneath := Rewound.foldl_beneath (r := .nothing) (reset_notMem_trace hno h)
  have hnow : ((Refinement.trace step ops (new n) events).foldl Rewound.step .nothing).now = _ :=
    Rewound.foldl_now
  generalize (Refinement.trace step ops (new n) events).foldl Rewound.step .nothing = r at *
  obtain ⟨now, beneath⟩ := r
  cases hnow
  cases hbeneath
  exact hr

/-- What `write` prints while no flush is under way: the elements since the last `reset`, and behind
them those of the array that were not replaced. A cell never written is among them exactly when
`shared_in` was at all moments less than the size of the array. -/
theorem write_shows (hc : Runs.EachStep step Alone (new n) events)
    (h : Runs.run step (new n) events = some u) (hq : u.Quiet) (msg : String) :
    let r := (Refinement.trace step ops (new n) events).foldl Rewound.step .nothing
    u.queue.write msg = ⟨msg, n, (List.range n).map fun i => r.cells[i]?⟩ ∧
      (none ∈ (u.queue.write msg).entries ↔
        Runs.Always step (fun t => t.queue.sharedIn < n) (new n) events) := by
  have hr := run_rewinds hc h
  have hpeak := Refinement.peak_lt_iff (k := n) (fun s : SharedQueue α => s.queue.sharedIn)
    (fun r : Rewound α => r.cells.length)
    (fun s e t r hr he hs => ⟨hr.step he hs, hr.length_cells_step he hs⟩) (Rewinds.new n)
    (Nat.zero_le _) hc h
  generalize (Refinement.trace step ops (new n) events).foldl Rewound.step .nothing = r at *
  have hsize : u.queue.allocSize = n := run_allocSize h
  have hcells : u.queue.shared = fun i => r.cells[i]? := by
    funext i
    exact (hr.shared_eq i).1 hq.not_owed
  have hwrite : u.queue.write msg = ⟨msg, n, (List.range n).map fun i => r.cells[i]?⟩ := by
    rw [QueueContents.write, hsize, hcells]
  refine ⟨hwrite, ?_⟩
  have hnone : none ∈ (u.queue.write msg).entries ↔ r.cells.length < n := by
    simp only [hwrite, List.mem_map, List.mem_range, List.getElem?_eq_none_iff]
    constructor
    · rintro ⟨i, hi, hle⟩
      omega
    · intro hlt
      exact ⟨r.cells.length, hlt, Nat.le_refl _⟩
  rw [hnone, hpeak]
  constructor
  · exact fun hall => hall.2
  · intro hall
    exact ⟨hall.head, hall⟩

theorem write_shows_reset : ∃ u : SharedQueue ℕ,
    Runs.run step (new 3) [.queuePushBack 10, .queuePushBack 20, .reset, .queuePushBack 30] = some u ∧
      (u.queue.write "queue").entries = [some 30, some 20, none] := by
  have hc : Runs.EachStep step Alone (new 3 : SharedQueue ℕ)
      [.queuePushBack 10, .queuePushBack 20, .reset, .queuePushBack 30] := by
    iterate 4
      intro t ht
      cases ht
      refine ⟨fun b => rfl, ?_⟩
    trivial
  exact ⟨_, rfl, congrArg Dump.entries (write_shows hc rfl (fun b => rfl) "queue").1⟩

end SharedQueue

end PickleDevice
