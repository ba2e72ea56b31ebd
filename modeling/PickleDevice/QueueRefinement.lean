import PickleDevice.QueueBuffers

/-!
The queue as one that takes a whole buffer at once, where the buffer's thread
adds to `shared_in`, and the relation every step of the threads keeps.
-/

namespace PickleDevice

open Ownership Reservation

/-- Elements under the buffer they came through: those behind the window, those in it, those after
it, and what each buffer holds back. -/
structure Appended (α : Type) where
  past : List (Option ℕ × α)
  window : List (Option ℕ × α)
  next : List (Option ℕ × α)
  held : ℕ → List α

namespace Appended

variable {α : Type}

def nothing : Appended α := ⟨[], [], [], fun _ => []⟩

inductive Op (α : Type)
  | append (b : ℕ) (x : α)
  | flush (b : ℕ)
  | discard (b : ℕ)
  | push (x : α)
  | slide
  | reset

def step (a : Appended α) : Op α → Appended α
  | .append b x => { a with held := Function.update a.held b (a.held b ++ [x]) }
  | .flush b =>
    { a with
      next := a.next ++ (a.held b).map fun x => (some b, x)
      held := Function.update a.held b [] }
  | .discard b => { a with held := Function.update a.held b [] }
  | .push x => { a with next := a.next ++ [(none, x)] }
  | .slide => { a with past := a.past ++ a.window, window := a.next, next := [] }
  | .reset => { a with past := [], window := [], next := [] }

def content (a : Appended α) : List (Option ℕ × α) := a.past ++ a.window ++ a.next

def values (a : Appended α) : List α := a.content.map Prod.snd

end Appended

namespace QueueBuffer

variable {α : Type}

def writer (q : QueueBuffer α) : Option (Writer α) :=
  q.flushing.map fun f => ⟨f.copyStart, q.localQueue, f.copied⟩

def holds (q : QueueBuffer α) : List α := q.flushing.elim q.localQueue fun f => f.toAdd.toList

end QueueBuffer

namespace SharedQueue

variable {α : Type} {s u : SharedQueue α} {b : ℕ} {q : QueueBuffer α} {f : Flush α} {x : α}
  {e : Event α}

def ops (s : SharedQueue α) : Event α → List (Appended.Op α)
  | .create _ _ => []
  | .pushBack b x =>
    if s.buffers b |>.any fun q => q.localQueue.length == q.localSize then
      [.flush b, .append b x]
    else [.append b x]
  | .flush b => [.flush b]
  | .copy _ => []
  | .finish _ => []
  | .destroy b => [.discard b]
  | .queuePushBack x => [.push x]
  | .slideWindow => [.slide]
  | .reset => [.reset]

theorem ops_pushBack_full (hb : s.buffers b = some q) (hfull : q.localQueue.length = q.localSize) :
    s.ops (.pushBack b x) = [.flush b, .append b x] := by
  simp [ops, hb, hfull]

theorem ops_pushBack_room (hb : s.buffers b = some q) (hroom : q.localQueue.length < q.localSize) :
    s.ops (.pushBack b x) = [.append b x] := by
  simp [ops, hb, hroom.ne]

theorem idle_eq_some : s.idle b = some q ↔ s.buffers b = some q ∧ q.flushing = none := by
  simp [idle, Option.filter_eq_some_iff]

theorem busy_eq_some : s.busy b = some (q, f) ↔ s.buffers b = some q ∧ q.flushing = some f := by
  simp [busy, Option.bind_eq_some_iff]

theorem step_create {n : ℕ} (h : s.step (.create b n) = some u) :
    s.buffers b = none ∧ u = { s with buffers := put s.buffers b (.new n) } := by
  simp only [step] at h
  split at h
  case isTrue hb =>
    cases h
    exact ⟨Option.isNone_iff_eq_none.mp hb, rfl⟩
  case isFalse => cases h

theorem step_pushBack (h : s.step (.pushBack b x) = some u) :
    ∃ q, s.buffers b = some q ∧ q.flushing = none ∧
      (q.localQueue.length = q.localSize ∧ u = s.claim b q (some x) ∨
        q.localQueue.length < q.localSize ∧
          u = { s with buffers := put s.buffers b { q with localQueue := q.localQueue ++ [x] } }) := by
  simp only [step] at h
  obtain ⟨q, hq, h⟩ := Option.bind_eq_some_iff.mp h
  obtain ⟨hb, hf⟩ := idle_eq_some.mp hq
  refine ⟨q, hb, hf, ?_⟩
  split at h
  case isTrue hfull =>
    cases h
    exact Or.inl ⟨hfull, rfl⟩
  case isFalse hroom =>
    obtain ⟨r, hr, h⟩ := Option.bind_eq_some_iff.mp h
    simp only [QueueBuffer.store] at hr
    split at hr
    case isTrue hlt =>
      cases hr
      cases h
      exact Or.inr ⟨hlt, rfl⟩
    case isFalse => cases hr

theorem step_flush (h : s.step (.flush b) = some u) :
    ∃ q, s.buffers b = some q ∧ q.flushing = none ∧ u = s.claim b q none := by
  obtain ⟨q, hq, h⟩ := Option.bind_eq_some_iff.mp h
  obtain ⟨hb, hf⟩ := idle_eq_some.mp hq
  cases h
  exact ⟨q, hb, hf, rfl⟩

theorem assign_eq_some {c d : QueueContents α} {i : ℕ} (h : c.assign i x = some d) :
    i < c.allocSize ∧ d = { c with shared := Function.update c.shared i (some x) } := by
  simp only [QueueContents.assign] at h
  split at h
  case isTrue hi =>
    cases h
    exact ⟨hi, rfl⟩
  case isFalse => cases h

theorem step_copy (h : s.step (.copy b) = some u) :
    ∃ q f x, s.buffers b = some q ∧ q.flushing = some f ∧ q.localQueue[f.copied]? = some x ∧
      f.copyStart + f.copied < s.queue.allocSize ∧
      u = ⟨{ s.queue with
              shared := Function.update s.queue.shared (f.copyStart + f.copied) (some x) },
            put s.buffers b { q with flushing := some { f with copied := f.copied + 1 } }⟩ := by
  obtain ⟨⟨q, f⟩, hq, h⟩ := Option.bind_eq_some_iff.mp h
  obtain ⟨hb, hf⟩ := busy_eq_some.mp hq
  obtain ⟨x, hx, h⟩ := Option.bind_eq_some_iff.mp h
  obtain ⟨c, hc, h⟩ := Option.bind_eq_some_iff.mp h
  obtain ⟨hlt, rfl⟩ := assign_eq_some hc
  cases h
  exact ⟨q, f, x, hb, hf, hx, hlt, rfl⟩

theorem step_finish (h : s.step (.finish b) = some u) :
    ∃ q f, s.buffers b = some q ∧ q.flushing = some f ∧ f.copied = q.localQueue.length ∧
      (f.toAdd.isSome → 0 < q.localSize) ∧
      u = { s with
        buffers := put s.buffers b { q with localQueue := f.toAdd.toList, flushing := none } } := by
  obtain ⟨⟨q, f⟩, hq, h⟩ := Option.bind_eq_some_iff.mp h
  obtain ⟨hb, hf⟩ := busy_eq_some.mp hq
  simp only at h
  split at h
  case isTrue hd =>
    refine ⟨q, f, hb, hf, hd, ?_⟩
    obtain ⟨r, hr, h⟩ := Option.bind_eq_some_iff.mp h
    cases h
    cases hx : f.toAdd with
    | none =>
      simp only [QueueBuffer.flushed, hx] at hr
      cases hr
      exact ⟨by simp, rfl⟩
    | some x =>
      simp only [QueueBuffer.flushed, hx, QueueBuffer.store] at hr
      split at hr
      case isTrue hroom =>
        cases hr
        exact ⟨fun _ => hroom, rfl⟩
      case isFalse => cases hr
  case isFalse => cases h

theorem step_destroy (h : s.step (.destroy b) = some u) :
    ∃ q, s.buffers b = some q ∧ q.flushing = none ∧
      u = { s with buffers := remove s.buffers b } := by
  obtain ⟨q, hq, h⟩ := Option.bind_eq_some_iff.mp h
  obtain ⟨hb, hf⟩ := idle_eq_some.mp hq
  cases h
  exact ⟨q, hb, hf, rfl⟩

theorem step_queuePushBack (h : s.step (.queuePushBack x) = some u) :
    s.queue.sharedIn < s.queue.allocSize ∧
      u = { s with queue := { s.queue with
        shared := Function.update s.queue.shared s.queue.sharedIn (some x)
        sharedIn := s.queue.sharedIn + 1 } } := by
  obtain ⟨c, hc, h⟩ := Option.bind_eq_some_iff.mp h
  obtain ⟨hlt, rfl⟩ := assign_eq_some hc
  cases h
  exact ⟨hlt, rfl⟩

def board (s : SharedQueue α) (content : List α) : Board α :=
  ⟨content, fun b => (s.buffers b).bind QueueBuffer.writer⟩

def held (s : SharedQueue α) (b : ℕ) : List α := (s.buffers b).elim [] QueueBuffer.holds

/-- The queue as it is, and as it looks from outside: the indices count the elements, and every cell
but those a flush under way still owes holds its element. -/
structure Follows (s : SharedQueue α) (a : Appended α) : Prop where
  outStart : s.queue.sharedOutStart = a.past.length
  outEnd : s.queue.sharedOutEnd = a.past.length + a.window.length
  claimed : s.queue.sharedIn = a.content.length
  held : a.held = s.held
  valid : (s.board a.values).Valid
  shows : (s.board a.values).Shows s.queue.shared
  inBounds : ∀ i, (s.board a.values).Settled i → i < s.queue.allocSize

theorem writer_eq_some {w : Writer α} {content : List α} :
    (s.board content).writers b = some w ↔
      ∃ q f, s.buffers b = some q ∧ q.flushing = some f ∧ w = ⟨f.copyStart, q.localQueue, f.copied⟩ := by
  simp only [board, QueueBuffer.writer, Option.bind_eq_some_iff, Option.map_eq_some_iff]
  constructor
  · rintro ⟨q, hq, f, hf, rfl⟩
    exact ⟨q, f, hq, hf, rfl⟩
  · rintro ⟨q, f, hq, hf, rfl⟩
    exact ⟨q, hq, f, hf, rfl⟩

theorem writer_idle (content : List α) (hb : s.buffers b = some q) (hf : q.flushing = none) :
    (s.board content).writers b = none := by
  simp [board, hb, QueueBuffer.writer, hf]

theorem board_put_idle {c : QueueContents α} {content : List α}
    (hs : (s.board content).writers b = none) (hq : q.flushing = none) :
    (board ⟨c, put s.buffers b q⟩ content) = s.board content := by
  simp only [board, Board.mk.injEq, true_and]
  funext d
  by_cases hd : d = b
  · subst hd
    rw [put_self]
    exact (show QueueBuffer.writer q = none by simp [QueueBuffer.writer, hq]).trans hs.symm
  · rw [put_of_ne hd]

theorem board_put (s : SharedQueue α) (c : QueueContents α) (content : List α)
    (hf : q.flushing = some f) :
    board ⟨c, put s.buffers b q⟩ content =
      ⟨content, put (s.board content).writers b ⟨f.copyStart, q.localQueue, f.copied⟩⟩ := by
  simp only [board, Board.mk.injEq, true_and]
  funext d
  by_cases hd : d = b
  · subst hd
    simp [put_self, QueueBuffer.writer, hf]
  · rw [put_of_ne hd, put_of_ne hd]

theorem board_remove {c : QueueContents α} {content : List α} :
    board ⟨c, remove s.buffers b⟩ content = (s.board content).retire b := by
  simp only [board, Board.retire, Board.mk.injEq, true_and]
  funext d
  by_cases hd : d = b
  · subst hd
    simp [remove_self]
  · rw [remove_of_ne hd, remove_of_ne hd]

theorem board_retire (s : SharedQueue α) (c : QueueContents α) (content : List α)
    (hf : q.flushing = none) :
    board ⟨c, put s.buffers b q⟩ content = (s.board content).retire b := by
  simp only [board, Board.retire, Board.mk.injEq, true_and]
  funext d
  by_cases hd : d = b
  · subst hd
    simp [put_self, remove_self, QueueBuffer.writer, hf]
  · rw [put_of_ne hd, remove_of_ne hd]

theorem held_put {c : QueueContents α} :
    held ⟨c, put s.buffers b q⟩ = Function.update s.held b q.holds := by
  funext d
  by_cases hd : d = b
  · subst hd
    simp [held, put_self]
  · rw [Function.update_of_ne hd]
    simp only [held]
    rw [put_of_ne hd]

theorem held_remove {c : QueueContents α} :
    held ⟨c, remove s.buffers b⟩ = Function.update s.held b [] := by
  funext d
  by_cases hd : d = b
  · subst hd
    simp [held, remove_self]
  · rw [Function.update_of_ne hd]
    simp only [held]
    rw [remove_of_ne hd]

theorem held_idle (hb : s.buffers b = some q) (hf : q.flushing = none) :
    s.held b = q.localQueue := by
  simp [held, hb, QueueBuffer.holds, hf]

theorem held_put_same {c : QueueContents α} {r : QueueBuffer α} (hb : s.buffers b = some r)
    (h : q.holds = r.holds) : held ⟨c, put s.buffers b q⟩ = s.held := by
  rw [held_put, h, Function.update_eq_self_iff]
  simp [held, hb]

variable {a : Appended α}

theorem Follows.of_idle_put {f : ℕ → List α} (h : Follows s a)
    (hw : ∀ content, (s.board content).writers b = none) (hf : q.flushing = none)
    (hh : f = Function.update s.held b q.holds) :
    Follows { s with buffers := put s.buffers b q } { a with held := f } := by
  have hboard : ∀ content, board { s with buffers := put s.buffers b q } content = s.board content :=
    fun content => board_put_idle (hw content) hf
  constructor
  · exact h.outStart
  · exact h.outEnd
  · exact h.claimed
  · exact hh.trans held_put.symm
  · rw [hboard]
    exact h.valid
  · rw [hboard]
    exact h.shows
  · rw [hboard]
    exact h.inBounds

theorem values_flush (hq : a.held b = q.localQueue) :
    (a.step (.flush b)).values = a.values ++ q.localQueue := by
  simp [Appended.values, Appended.content, Appended.step, hq, List.map_map, Function.comp_def]

theorem Follows.length_values (h : Follows s a) : a.values.length = s.queue.sharedIn := by
  rw [h.claimed, Appended.values, List.length_map]

theorem Follows.board_claim (h : Follows s a) (toAdd : Option α) (hb : s.buffers b = some q)
    (hf : q.flushing = none) : board (s.claim b q toAdd) (a.step (.flush b)).values =
      (s.board a.values).reserve b q.localQueue := by
  have hq : a.held b = q.localQueue := by rw [h.held, held_idle hb hf]
  rw [values_flush hq, SharedQueue.claim, board_put s _ _ rfl, Board.reserve]
  simp only [board, fetchAndAdd, h.length_values]

theorem Follows.claim {toAdd : Option α} {h' : ℕ → List α} (h : Follows s a)
    (hb : s.buffers b = some q) (hf : q.flushing = none)
    (hh : h' = Function.update a.held b toAdd.toList) :
    Follows (s.claim b q toAdd) { a.step (.flush b) with held := h' } := by
  have hq : a.held b = q.localQueue := by rw [h.held, held_idle hb hf]
  have hvalues := values_flush hq
  have hnone := writer_idle a.values hb hf
  have hboard := h.board_claim toAdd hb hf
  constructor
  · exact h.outStart
  · exact h.outEnd
  · have hlen := congrArg List.length hvalues
    simp only [Appended.values, List.length_map, List.length_append] at hlen
    simp only [SharedQueue.claim, fetchAndAdd, h.claimed]
    exact hlen.symm
  · rw [SharedQueue.claim, held_put, ← h.held, hh]
    rfl
  · exact hboard ▸ h.valid.reserve
  · exact hboard ▸ h.shows.reserve hnone
  · intro i hi
    rw [show ({ a.step (.flush b) with held := h' } : Appended α).values =
      (a.step (.flush b)).values from rfl, hboard] at hi
    exact h.inBounds i ((Board.settled_reserve hnone).mp hi)

theorem board_copy (content : List α) (hs : s.step (.copy b) = some u) :
    ∃ w x, (s.board content).writers b = some w ∧ w.values[w.written]? = some x ∧
      w.target < s.queue.allocSize ∧ u.board content = (s.board content).advance b w ∧
      u.queue = { s.queue with shared := Function.update s.queue.shared w.target (some x) } ∧
      u.held = s.held := by
  obtain ⟨q, f, x, hb, hf, hx, hlt, rfl⟩ := step_copy hs
  have hboard := board_put (b := b) (f := { f with copied := f.copied + 1 })
    (q := { q with flushing := some { f with copied := f.copied + 1 } }) s
  refine ⟨_, x, writer_eq_some.mpr ⟨q, f, hb, hf, rfl⟩, hx, hlt, hboard _ content rfl, rfl, ?_⟩
  apply held_put_same hb
  simp [QueueBuffer.holds, hf]

theorem board_finish (content : List α) (hs : s.step (.finish b) = some u) :
    ∃ w, (s.board content).writers b = some w ∧ w.values.length ≤ w.written ∧
      u.board content = (s.board content).retire b ∧ u.queue = s.queue ∧ u.held = s.held := by
  obtain ⟨q, f, hb, hf, hd, -, rfl⟩ := step_finish hs
  refine ⟨_, writer_eq_some.mpr ⟨q, f, hb, hf, rfl⟩, hd.ge, board_retire s _ content rfl, rfl, ?_⟩
  apply held_put_same hb
  simp [QueueBuffer.holds, hf]

theorem board_destroy (content : List α) (hs : s.step (.destroy b) = some u) :
    u.board content = s.board content ∧ u.queue = s.queue ∧
      u.held = Function.update s.held b [] := by
  obtain ⟨q, hb, hf, rfl⟩ := step_destroy hs
  refine ⟨?_, rfl, held_remove⟩
  rw [board_remove, Board.retire, Board.mk.injEq]
  exact ⟨rfl, Function.update_eq_self_iff.mpr (writer_idle content hb hf).symm⟩

theorem Follows.copy (h : Follows s a) (hs : s.step (.copy b) = some u) : Follows u a := by
  obtain ⟨w, x, hw, hx, hlt, hboard, hqueue, hheld⟩ := board_copy a.values hs
  have hroom := (List.getElem?_eq_some_iff.mp hx).1
  constructor
  · rw [hqueue]
    exact h.outStart
  · rw [hqueue]
    exact h.outEnd
  · rw [hqueue]
    exact h.claimed
  · exact h.held.trans hheld.symm
  · exact hboard ▸ h.valid.advance hw
  · rw [hboard, hqueue]
    exact h.shows.advance h.valid hw hx
  · intro i hi
    rw [hboard] at hi
    rw [hqueue]
    rcases (Board.settled_advance h.valid hw hroom).mp hi with hi | rfl
    · exact h.inBounds i hi
    · exact hlt

theorem Follows.finish (h : Follows s a) (hs : s.step (.finish b) = some u) : Follows u a := by
  obtain ⟨w, hw, hd, hboard, hqueue, hheld⟩ := board_finish a.values hs
  constructor
  · exact hqueue ▸ h.outStart
  · exact hqueue ▸ h.outEnd
  · exact hqueue ▸ h.claimed
  · exact h.held.trans hheld.symm
  · exact hboard ▸ h.valid.retire
  · rw [hboard, hqueue]
    exact h.shows.retire hw hd
  · intro i hi
    rw [hboard] at hi
    exact hqueue ▸ h.inBounds i ((Board.settled_retire hw hd).mp hi)

theorem Follows.destroy (h : Follows s a) (hs : s.step (.destroy b) = some u) :
    Follows u (a.step (.discard b)) := by
  obtain ⟨hboard, hqueue, hheld⟩ := board_destroy a.values hs
  constructor
  · exact hqueue ▸ h.outStart
  · exact hqueue ▸ h.outEnd
  · exact hqueue ▸ h.claimed
  · rw [hheld, ← h.held]
    rfl
  · exact hboard.symm ▸ h.valid
  · rw [hqueue]
    exact hboard.symm ▸ h.shows
  · intro i hi
    exact hqueue ▸ h.inBounds i (hboard ▸ hi)

theorem values_push : (a.step (.push x)).values = a.values ++ [x] := by
  simp [Appended.values, Appended.content, Appended.step]

theorem values_slide : (a.step .slide).values = a.values := by
  simp [Appended.values, Appended.content, Appended.step]

theorem Follows.queuePushBack (h : Follows s a) (hs : s.step (.queuePushBack x) = some u) :
    Follows u (a.step (.push x)) := by
  obtain ⟨hlt, rfl⟩ := step_queuePushBack hs
  have hlen : (s.board a.values).content.length = s.queue.sharedIn := h.length_values
  have hboard : board { s with queue := { s.queue with
        shared := Function.update s.queue.shared s.queue.sharedIn (some x)
        sharedIn := s.queue.sharedIn + 1 } } (a.step (.push x)).values =
      (s.board a.values).append x := by
    rw [values_push]
    rfl
  constructor
  · exact h.outStart
  · exact h.outEnd
  · simp [h.claimed, Appended.content, Appended.step]
    omega
  · exact h.held
  · exact hboard ▸ h.valid.append
  · have hshows := h.shows.append (x := x) h.valid
    rw [hlen] at hshows
    exact hboard ▸ hshows
  · intro i hi
    rw [hboard] at hi
    rcases (Board.settled_append h.valid).mp hi with hi | rfl
    · exact h.inBounds i hi
    · exact hlen ▸ hlt

theorem Follows.slideWindow (h : Follows s a) :
    Follows { s with queue := s.queue.slideWindow } (a.step .slide) := by
  constructor
  · simp [QueueContents.slideWindow, Appended.step, h.outEnd]
  · simp [QueueContents.slideWindow, Appended.step, h.claimed, Appended.content]
    omega
  · simp [QueueContents.slideWindow, h.claimed, Appended.step, Appended.content]
  · exact h.held
  · exact values_slide (a := a) ▸ h.valid
  · exact values_slide (a := a) ▸ h.shows
  · intro i hi
    exact h.inBounds i (values_slide (a := a) ▸ hi)

theorem Quiet.writers (hq : s.Quiet) (content : List α) (b : ℕ) :
    (s.board content).writers b = none := by
  rw [Option.eq_none_iff_forall_not_mem]
  intro w hw
  obtain ⟨q, f, hb, hf, -⟩ := writer_eq_some.mp hw
  cases (hq b).symm.trans (busy_eq_some.mpr ⟨hb, hf⟩)

theorem Follows.reset (h : Follows s a) (hq : s.Quiet) :
    Follows { s with queue := s.queue.reset } (a.step .reset) := by
  have hboard : board { s with queue := s.queue.reset } (a.step .reset).values =
      ⟨[], fun _ => none⟩ := by
    simp only [Appended.values, Appended.content, Appended.step, List.append_nil, List.map_nil]
    exact congrArg (Board.mk []) (funext (hq.writers []))
  have hunsettled : ∀ i, ¬ (⟨[], fun _ => none⟩ : Board α).Settled i := fun i hi => by cases hi.1
  constructor
  · rfl
  · rfl
  · rfl
  · exact h.held
  · exact hboard ▸ Board.Valid.empty
  · intro i hi
    exact absurd (hboard ▸ hi) (hunsettled i)
  · intro i hi
    exact absurd (hboard ▸ hi) (hunsettled i)

/-- `reset` and `push_back` of the queue itself are called while no thread is in a `flush`: they use
`shared_in` without atomic instructions. -/
def Alone (s : SharedQueue α) : Event α → Prop
  | .queuePushBack _ => s.Quiet
  | .reset => s.Quiet
  | _ => True

theorem Follows.step (h : Follows s a) (hc : s.Alone e) (hs : s.step e = some u) :
    Follows u ((s.ops e).foldl Appended.step a) := by
  cases e with
  | create b n =>
    obtain ⟨hb, rfl⟩ := step_create hs
    apply h.of_idle_put (f := a.held)
    · intro content
      simp [board, hb]
    · rfl
    · have hnil : s.held b = [] := by simp [SharedQueue.held, hb]
      rw [h.held]
      exact (Function.update_eq_self_iff.mpr (hnil ▸ rfl)).symm
  | pushBack b x =>
    obtain ⟨q, hb, hf, ⟨hfull, rfl⟩ | ⟨hroom, rfl⟩⟩ := step_pushBack hs
    · rw [ops_pushBack_full hb hfull]
      apply h.claim hb hf
      simp [Appended.step]
    · rw [ops_pushBack_room hb hroom]
      apply h.of_idle_put
      · exact fun content => writer_idle content hb hf
      · exact hf
      · rw [h.held, held_idle hb hf]
        simp [QueueBuffer.holds, hf]
  | flush b =>
    obtain ⟨q, hb, hf, rfl⟩ := step_flush hs
    exact h.claim hb hf rfl
  | copy b => exact h.copy hs
  | finish b => exact h.finish hs
  | destroy b => exact h.destroy hs
  | queuePushBack x => exact h.queuePushBack hs
  | slideWindow =>
    cases hs
    exact h.slideWindow
  | reset =>
    cases hs
    exact h.reset hc

theorem Follows.new (n : ℕ) : Follows (new n : SharedQueue α) .nothing := by
  have hunsettled : ∀ i, ¬ (⟨[], fun _ => none⟩ : Board α).Settled i := fun i hi => by cases hi.1
  constructor
  · rfl
  · rfl
  · rfl
  · rfl
  · exact Board.Valid.empty
  · exact fun i hi => absurd hi (hunsettled i)
  · exact fun i hi => absurd hi (hunsettled i)

end SharedQueue

end PickleDevice
