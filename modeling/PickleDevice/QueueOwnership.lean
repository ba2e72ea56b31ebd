import PickleDevice.SlidingQueue
import PickleDevice.Library.Ownership
import PickleDevice.Library.Runs

/-!
Any number of queues, some made or overwritten from others. The class declares a
destructor that deletes the array, and leaves copying to the compiler.
-/

namespace PickleDevice

open Ownership

def SlidingQueue.destroyed (q : SlidingQueue) : List ℤ := [q.shared]

structure Queues where
  store : Store
  live : Objects SlidingQueue
  heap : Ledger ℤ

inductive QueueOp
  | sized (x : ℕ) (T : ElementType) (sharedSize : ℕ) (new : ℤ)
  | copy (x y : ℕ)
  | assign (x y : ℕ)
  | destroy (x : ℕ)
  deriving DecidableEq

namespace QueueOp

def isCopy : QueueOp → Bool
  | copy _ _ => true
  | _ => false

/-- No second queue gets hold of an array: none is copied, and none assigned but to itself. -/
def Single : QueueOp → Prop
  | copy _ _ => False
  | assign x y => x = y
  | _ => True

instance : DecidablePred Single := fun op => by
  cases op <;> unfold Single <;> infer_instance

end QueueOp

namespace Queues

def empty : Queues := ⟨.init, fun _ => none, .empty⟩

/-- `none` where the call cannot be made. A new array is not one that is still allocated. -/
def step (w : Queues) : QueueOp → Option Queues
  | .sized x T sharedSize new =>
    match w.live x, StateEffect.run (SlidingQueue.sized T sharedSize new) w.store with
    | none, (.ok q, s) =>
      if new ∉ w.heap.live then some ⟨s, put w.live x q, w.heap.give [new]⟩ else none
    | _, _ => none
  | .copy x y =>
    match w.live x, w.live y with
    | none, some other =>
      some { w with live := put (put w.live y other.moved.2) x other.moved.1 }
    | _, _ => none
  | .assign x y =>
    match w.live x, w.live y with
    | some q, some other =>
      if q.elementType = other.elementType then
        some { w with live := put (put w.live y (q.moveAssign other).2) x (q.moveAssign other).1 }
      else none
    | _, _ => none
  | .destroy x =>
    match w.live x with
    | some q => some { w with live := remove w.live x, heap := w.heap.release q.destroyed }
    | none => none

inductive Stepped (w : Queues) : QueueOp → Queues → Prop
  | sized {x T sharedSize new q s} (hx : w.live x = none) (hq : q.shared = new)
      (hnew : new ∉ w.heap.live) :
      Stepped w (.sized x T sharedSize new) ⟨s, put w.live x q, w.heap.give [q.shared]⟩
  | copy {x y q} (hx : w.live x = none) (hy : w.live y = some q) :
      Stepped w (.copy x y) { w with live := put w.live x q }
  | assign {x y q other q'} (hx : w.live x = some q) (hy : w.live y = some other)
      (hq : q'.shared = other.shared) :
      Stepped w (.assign x y) { w with live := put w.live x q' }
  | destroy {x q} (hx : w.live x = some q) :
      Stepped w (.destroy x)
        { w with live := remove w.live x, heap := w.heap.release [q.shared] }

variable {w u : Queues} {op : QueueOp} {ops : List QueueOp} {a : ℤ} {k : ℕ}

theorem put_same {α : Type} {l : Objects α} {x : ℕ} {v : α} (h : l x = some v) : put l x v = l :=
  Function.update_eq_self_iff.mpr h.symm

theorem step_stepped (h : w.step op = some u) : Stepped w op u := by
  cases op with
  | sized x T sharedSize new =>
    simp only [step] at h
    split at h
    · next q s hx hrun =>
      cases hrun
      split_ifs at h with hnew
      cases h
      exact .sized hx rfl hnew
    · cases h
  | copy x y =>
    simp only [step] at h
    split at h
    · next other hx hy =>
      cases h
      have hsame := Stepped.copy hx hy
      rwa [← put_same (l := w.live) hy] at hsame
    · cases h
  | assign x y =>
    simp only [step] at h
    split at h
    · next q other hx hy =>
      split_ifs at h
      cases h
      have hsame : Stepped w (.assign x y) { w with live := put w.live x (q.moveAssign other).1 } :=
        .assign hx hy rfl
      rwa [← put_same (l := w.live) hy] at hsame
    · cases h
  | destroy x =>
    simp only [step] at h
    split at h
    · next q hx =>
      cases h
      exact .destroy hx
    · cases h

structure Clean (w : Queues) : Prop where
  balanced : w.heap.Balanced
  exclusive : Exclusive SlidingQueue.destroyed w.live
  owned : ∀ a, a ∈ w.heap.live ↔ Held SlidingQueue.destroyed w.live a

structure Lost (a : ℤ) (w : Queues) : Prop where
  count : w.heap.given.count a = w.heap.released.count a + 1
  live : a ∈ w.heap.live
  unheld : ¬ Held SlidingQueue.destroyed w.live a

/-- Each queue ever made is alive or was destroyed: in all as many as arrays, and `k` more. -/
def Counted (k : ℕ) (w : Queues) : Prop :=
  ∃ names : List ℕ, names.Nodup ∧ (∀ x, w.live x ≠ none ↔ x ∈ names) ∧
    w.heap.given.length + k = w.heap.released.length + names.length

theorem clean_empty : empty.Clean := by
  constructor
  · exact Ledger.balanced_empty
  · intro x y v u _ hx
    cases hx
  · simp [empty, Ledger.empty, Held]

theorem counted_empty : Counted 0 empty := ⟨[], List.nodup_nil, by simp [empty], rfl⟩

theorem Clean.step (h : Clean w) (hop : op.Single) (hs : Stepped w op u) : Clean u := by
  cases hs with
  | @sized x T sharedSize new q s hx hq hnew =>
    subst hq
    have hfresh : ∀ a ∈ q.destroyed, ¬ Held SlidingQueue.destroyed w.live a := by
      intro a ha
      cases List.mem_singleton.mp ha
      rwa [← h.owned]
    constructor
    · apply h.balanced.give (List.nodup_singleton _)
      simpa using hnew
    · exact h.exclusive.put_fresh hfresh
    · intro a
      rw [Ledger.mem_give, h.owned, held_put hx]
      rfl
  | copy hx hy => exact hop.elim
  | @assign x y q other q' hx hy hq =>
    obtain rfl : x = y := hop
    cases hx.symm.trans hy
    have hsame : q'.destroyed = q.destroyed := congrArg (fun a => [a]) hq
    constructor
    · exact h.balanced
    · exact h.exclusive.replace hx (by rw [hsame]; exact List.Subset.refl _)
    · intro a
      rw [h.owned, held_replace hx hsame]
  | @destroy x q hx =>
    have hmem : ∀ a ∈ [q.shared], a ∈ w.heap.live := by
      intro a ha
      exact (h.owned a).mpr ⟨x, q, hx, ha⟩
    constructor
    · exact h.balanced.release (List.nodup_singleton _) hmem
    · exact h.exclusive.remove
    · intro a
      rw [Ledger.mem_release h.balanced, h.owned, held_remove h.exclusive hx]
      rfl

theorem Lost.step (h : Lost a w) (hs : Stepped w op u) : Lost a u := by
  -- what a queue holds, `a` is not
  have hne : ∀ {y q}, w.live y = some q → q.shared ≠ a := by
    rintro y q hy rfl
    exact h.unheld ⟨y, q, hy, List.mem_singleton_self _⟩
  have hput : ∀ {x q}, q.shared ≠ a →
      ¬ Held SlidingQueue.destroyed (put w.live x q) a := by
    rintro x q hq ⟨z, v, hz, ha⟩
    rcases put_cases hz with ⟨-, rfl⟩ | ⟨-, hz⟩
    · exact hq (List.mem_singleton.mp ha).symm
    · exact h.unheld ⟨z, v, hz, ha⟩
  obtain ⟨hcount, hlive, hunheld⟩ := h
  cases hs with
  | @sized x T sharedSize new q s hx hq hnew =>
    have hqa : q.shared ≠ a := by
      rintro rfl
      exact hnew (hq ▸ hlive)
    refine ⟨?_, Ledger.mem_give.mpr (Or.inl hlive), hput hqa⟩
    simpa [Ledger.give, List.count_append, hqa] using hcount
  | copy hx hy => exact ⟨hcount, hlive, hput (hne hy)⟩
  | assign hx hy hq => exact ⟨hcount, hlive, hput (hq ▸ hne hy)⟩
  | @destroy x q hx =>
    refine ⟨?_, ?_, ?_⟩
    · simpa [Ledger.release, List.count_append, hne hx] using hcount
    · exact List.mem_diff_of_mem hlive (by simpa using (hne hx).symm)
    · rintro ⟨z, v, hz, ha⟩
      exact hunheld ⟨z, v, (remove_cases hz).2, ha⟩

theorem Clean.lost (h : Clean w) (hop : ¬ op.Single) (hcopy : ¬ op.isCopy) (hs : Stepped w op u) :
    ∃ a, Lost a u := by
  cases hs with
  | sized => exact absurd trivial hop
  | copy => exact absurd rfl hcopy
  | destroy => exact absurd trivial hop
  | @assign x y q other q' hx hy hq =>
    have hxy : x ≠ y := hop
    have hlive : q.shared ∈ w.heap.live :=
      (h.owned _).mpr ⟨x, q, hx, List.mem_singleton_self _⟩
    refine ⟨q.shared, ?_, hlive, ?_⟩
    · have hcount := h.balanced.perm.count_eq q.shared
      rwa [List.count_append, List.count_eq_one_of_mem h.balanced.nodup hlive] at hcount
    · rintro ⟨z, v, hz, ha⟩
      rcases put_cases hz with ⟨-, rfl⟩ | ⟨hzx, hz⟩
      · have hdisj := h.exclusive x y q other hxy hx hy
        apply hdisj (List.mem_singleton_self _)
        exact List.mem_singleton.mpr ((List.mem_singleton.mp ha).trans hq)
      · exact h.exclusive x z q v hzx.symm hx hz (List.mem_singleton_self _) ha

theorem Counted.step (h : Counted k w) (hs : Stepped w op u) :
    Counted (k + if op.isCopy then 1 else 0) u := by
  obtain ⟨names, hnodup, hnames, hcount⟩ := h
  -- a name is taken or not as before, but for the one put in
  have hput : ∀ {x q}, w.live x = none → (x :: names).Nodup ∧
      ∀ y, put w.live x q y ≠ none ↔ y ∈ x :: names := by
    intro x q hx
    have hnew : x ∉ names := by
      rw [← hnames, not_ne_iff]
      exact hx
    refine ⟨List.nodup_cons.mpr ⟨hnew, hnodup⟩, fun y => ?_⟩
    by_cases hyx : y = x
    · subst hyx
      simp [put_self]
    · rw [put_of_ne hyx, hnames]
      simp [hyx]
  cases hs with
  | @sized x T sharedSize new q s hx hq hnew =>
    obtain ⟨hnodup', hnames'⟩ := hput (q := q) hx
    refine ⟨x :: names, hnodup', hnames', ?_⟩
    simp only [Ledger.give, QueueOp.isCopy, List.length_append, List.length_cons, List.length_nil]
    simp
    omega
  | @copy x y q hx hy =>
    obtain ⟨hnodup', hnames'⟩ := hput (q := q) hx
    refine ⟨x :: names, hnodup', hnames', ?_⟩
    simp only [QueueOp.isCopy, List.length_cons, if_true]
    omega
  | @assign x y q other q' hx hy hq =>
    refine ⟨names, hnodup, fun z => ?_, hcount⟩
    change put w.live x q' z ≠ none ↔ z ∈ names
    by_cases hzx : z = x
    · subst hzx
      simp [put_self, ← hnames, hx]
    · rw [put_of_ne hzx, hnames]
  | @destroy x q hx =>
    have hmem : x ∈ names := (hnames x).mp (by simp [hx])
    refine ⟨names.erase x, hnodup.erase x, fun y => ?_, ?_⟩
    · rw [hnodup.mem_erase_iff, ← hnames]
      by_cases hyx : y = x
      · subst hyx
        simp [remove_self]
      · simp [remove_of_ne hyx, hyx]
    · have hpos := List.length_pos_of_mem hmem
      simp only [Ledger.release, QueueOp.isCopy, List.length_append, List.length_singleton,
        List.length_erase_of_mem hmem, Bool.false_eq_true, if_false]
      omega

theorem Clean.run (h : Clean w) (hsingle : ∀ op ∈ ops, op.Single)
    (hrun : Runs.run Queues.step w ops = some u) : Clean u := by
  apply Runs.EachStep.run_invariant (C := fun _ op => op.Single) _ h _ hrun
  · intro w op u hw hop hs
    exact hw.step hop (step_stepped hs)
  · exact Runs.EachStep.of_forall (fun op hop _ => hsingle op hop) w

theorem Counted.run (h : Counted k w) (hrun : Runs.run Queues.step w ops = some u) :
    Counted (k + ops.countP QueueOp.isCopy) u := by
  induction ops generalizing w k with
  | nil =>
    cases hrun
    exact h
  | cons op ops ih =>
    obtain ⟨v, hv, hrun⟩ := Option.bind_eq_some_iff.mp hrun
    rw [List.countP_cons, Nat.add_comm (ops.countP _), ← Nat.add_assoc]
    exact ih (h.step (step_stepped hv)) hrun

theorem Clean.lost_run (h : Clean w) (hcopy : ∀ op ∈ ops, ¬ op.isCopy)
    (hbad : ¬ ∀ op ∈ ops, op.Single) (hrun : Runs.run Queues.step w ops = some u) : ∃ a, Lost a u := by
  induction ops generalizing w with
  | nil => exact absurd (by simp) hbad
  | cons op ops ih =>
    obtain ⟨v, hv, hrun⟩ := Option.bind_eq_some_iff.mp hrun
    by_cases hop : op.Single
    · apply ih (h.step hop (step_stepped hv))
      · exact fun op' hop' => hcopy op' (List.mem_cons_of_mem op hop')
      · intro hall
        exact hbad (List.forall_mem_cons.mpr ⟨hop, hall⟩)
      · exact hrun
    · obtain ⟨a, ha⟩ := h.lost hop (hcopy op List.mem_cons_self) (step_stepped hv)
      refine ⟨a, Runs.run_invariant (fun w op u hw hs => ?_) ha hrun⟩
      exact hw.step (step_stepped hs)

theorem buffersFreed_iff (hrun : Runs.run Queues.step empty ops = some w) (hend : ∀ x, w.live x = none) :
    w.heap.released.Perm w.heap.given ↔ ∀ op ∈ ops, op.Single := by
  constructor
  · intro hperm
    by_contra hbad
    obtain ⟨names, -, hnames, hcount⟩ := Counted.run counted_empty hrun
    have hnone : names = [] := by
      apply List.eq_nil_iff_forall_not_mem.mpr
      intro x hx
      exact (hnames x).mpr hx (hend x)
    have hlen := hperm.length_eq
    rw [hnone, List.length_nil] at hcount
    have hzero : ops.countP QueueOp.isCopy = 0 := by omega
    obtain ⟨a, ha⟩ := clean_empty.lost_run (List.countP_eq_zero.mp hzero) hbad hrun
    have hsame := hperm.count_eq a
    have hmore := ha.count
    omega
  · intro hsingle
    have hclean := clean_empty.run hsingle hrun
    have hnil : w.heap.live = [] := by
      apply List.eq_nil_iff_forall_not_mem.mpr
      intro a ha
      obtain ⟨x, q, hx, -⟩ := (hclean.owned a).mp ha
      cases (hend x).symm.trans hx
    have hperm := hclean.balanced.perm
    rw [hnil, List.append_nil] at hperm
    exact hperm.symm

theorem buffersFreed_iff_copied :
    ∃ w, Runs.run Queues.step empty [.sized 0 intType 4 4096, .copy 1 0, .destroy 1, .destroy 0] =
        some w ∧
      (w.heap.released.Perm w.heap.given ↔
        ∀ op ∈ [QueueOp.sized 0 intType 4 4096, .copy 1 0, .destroy 1, .destroy 0], op.Single) := by
  refine ⟨_, rfl, buffersFreed_iff rfl fun x => ?_⟩
  change remove (remove (put (put (put (fun _ => none) 0 _) 0 _) 1 _) 1) 0 x = none
  simp only [remove, put, Function.update_apply]
  split_ifs <;> rfl

end Queues

end PickleDevice
