import PickleDevice.QueueCells

namespace PickleDevice

open Ownership Reservation

namespace SharedQueue

variable {α : Type} {s u v : SharedQueue α} {a : Appended α} {b c : ℕ} {q : QueueBuffer α}
  {f : Flush α} {x : α} {e : Event α} {events : List (Event α)} {n i : ℕ}

/-- After `slide_window`, called at any moment, what the window lacks of its elements is what the
flushes under way have still to write there: a loop over it reads cells never written exactly at
those. -/
theorem window_unwritten (hc : Runs.EachStep step Alone (new n) events)
    (hno : Event.reset ∉ events) (h : Runs.run step (new n) events = some u)
    (hi : i < u.queue.size) :
    let a := (Refinement.trace step ops (new n) events).foldl Appended.step .nothing
    (u.queue.window[i]? = some none ↔ u.Owed (u.queue.sharedOutStart + i)) ∧
      (¬ u.Owed (u.queue.sharedOutStart + i) →
        u.queue.window[i]? = some (a.window[i]?.map Prod.snd)) := by
  have hr := run_rewinds_of_no_reset hc hno h
  generalize (Refinement.trace step ops (new n) events).foldl Appended.step .nothing = a at *
  have hwin : i < a.window.length := hr.follows.size_eq ▸ hi
  have hread : ¬ u.Owed (u.queue.sharedOutStart + i) →
      u.queue.window[i]? = some (a.window[i]?.map Prod.snd) := by
    intro ho
    apply hr.follows.read_window _ hwin
    refine hr.follows.settled_iff_owed.mpr ⟨?_, ho⟩
    have := hr.follows.outEnd_le
    simp only [QueueContents.size] at hi
    omega
  refine ⟨⟨fun hnone => ?_, fun ho => ?_⟩, hread⟩
  · by_contra ho
    rw [hread ho] at hnone
    simp [hwin] at hnone
  · rw [getElem?_window, if_pos hi, (hr.shared_eq _).2 ho]
    rfl

theorem window_unwritten_early : ∃ u : SharedQueue ℕ,
    Runs.run step (new 4) [.create 0 2, .pushBack 0 10, .flush 0, .slideWindow] = some u ∧
      (u.queue.window[0]? = some none ↔ u.Owed (u.queue.sharedOutStart + 0)) := by
  have hc : Runs.EachStep step Alone (new 4 : SharedQueue ℕ)
      [.create 0 2, .pushBack 0 10, .flush 0, .slideWindow] := by
    apply Runs.EachStep.of_forall
    simp [Alone]
  exact ⟨_, rfl, (window_unwritten hc (by simp) rfl (by decide)).1⟩

theorem busy_of_eq (h : u.buffers b = s.buffers b) : u.busy b = s.busy b := by
  simp [busy, h]

structure Sound (s : SharedQueue α) : Prop where
  buffers : Each (fun q : QueueBuffer α =>
    0 < q.localSize ∧ ∀ f, q.flushing = some f → f.copied ≤ q.localQueue.length) s.buffers
  finite : ∃ bs : List ℕ, ∀ b, s.buffers b ≠ none → b ∈ bs

theorem Sound.put {d : QueueContents α} (h : s.Sound) (hq : 0 < q.localSize ∧
    ∀ f, q.flushing = some f → f.copied ≤ q.localQueue.length) :
    Sound ⟨d, put s.buffers b q⟩ := by
  constructor
  · exact h.buffers.put hq
  · obtain ⟨bs, hbs⟩ := h.finite
    refine ⟨b :: bs, fun c hc => ?_⟩
    by_cases hcb : c = b
    · exact hcb ▸ List.mem_cons_self
    · exact List.mem_cons_of_mem _ (hbs c fun hnone => hc ((put_of_ne hcb).trans hnone))

theorem Sound.step (h : s.Sound) (he : ∀ b, e ≠ .create b 0) (hs : s.step e = some u) :
    u.Sound := by
  cases e with
  | create b n =>
    obtain ⟨-, rfl⟩ := step_create hs
    apply h.put
    refine ⟨Nat.pos_of_ne_zero fun hn => he b (hn ▸ rfl), fun f hf => ?_⟩
    cases hf
  | pushBack b x =>
    obtain ⟨q, hb, hf, ⟨-, rfl⟩ | ⟨-, rfl⟩⟩ := step_pushBack hs
    · apply h.put
      refine ⟨(h.buffers b q hb).1, fun f hf => ?_⟩
      cases hf
      exact Nat.zero_le _
    · apply h.put
      refine ⟨(h.buffers b q hb).1, fun f hf' => ?_⟩
      cases hf.symm.trans hf'
  | flush b =>
    obtain ⟨q, hb, -, rfl⟩ := step_flush hs
    apply h.put
    refine ⟨(h.buffers b q hb).1, fun f hf => ?_⟩
    cases hf
    exact Nat.zero_le _
  | copy b =>
    obtain ⟨q, f, x, hb, -, hx, -, rfl⟩ := step_copy hs
    apply h.put
    refine ⟨(h.buffers b q hb).1, fun f hf => ?_⟩
    cases hf
    exact (List.getElem?_eq_some_iff.mp hx).1
  | finish b =>
    obtain ⟨q, f, hb, -, -, -, rfl⟩ := step_finish hs
    apply h.put
    refine ⟨(h.buffers b q hb).1, fun f hf => ?_⟩
    cases hf
  | destroy b =>
    obtain ⟨q, hb, -, rfl⟩ := step_destroy hs
    constructor
    · exact h.buffers.remove
    · obtain ⟨bs, hbs⟩ := h.finite
      refine ⟨bs, fun c hc => hbs c fun hnone => hc ?_⟩
      by_cases hcb : c = b
      · exact hcb ▸ remove_self
      · exact (remove_of_ne hcb).trans hnone
  | queuePushBack x =>
    obtain ⟨-, rfl⟩ := step_queuePushBack hs
    exact ⟨h.buffers, h.finite⟩
  | slideWindow =>
    cases hs
    exact ⟨h.buffers, h.finite⟩
  | reset =>
    cases hs
    exact ⟨h.buffers, h.finite⟩

theorem Sound.new (n : ℕ) : (new n : SharedQueue α).Sound := by
  constructor
  · intro b q hb
    cases hb
  · exact ⟨[], fun b hb => absurd rfl hb⟩

def Event.Finishing : Event α → Prop
  | .copy _ => True
  | .finish _ => True
  | _ => False

theorem finishing_run {a : Appended α} (h : Follows s a ∧ s.Sound)
    (hall : ∀ e ∈ events, Event.Finishing e) (hr : Runs.run SharedQueue.step s events = some u) :
    Follows u a ∧ u.Sound := by
  refine (Runs.EachStep.of_forall (C := fun _ e => Event.Finishing e)
    (fun e he _ => hall e he) s).run_invariant (P := fun s => Follows s a ∧ s.Sound) ?_ h hr
  rintro s e u ⟨hf, hs⟩ he hstep
  cases e with
  | copy b => exact ⟨hf.copy hstep, hs.step (by simp) hstep⟩
  | finish b => exact ⟨hf.finish hstep, hs.step (by simp) hstep⟩
  | _ => cases he

theorem complete_one (h : Follows s a ∧ s.Sound) (hroom : s.queue.sharedIn ≤ s.queue.allocSize)
    (hb : s.busy b = some (q, f)) :
    ∃ more u, Runs.run SharedQueue.step s more = some u ∧ (∀ e ∈ more, Event.Finishing e) ∧
      u.busy b = none ∧ ∀ c, c ≠ b → u.buffers c = s.buffers c := by
  generalize hd : q.localQueue.length - f.copied = d
  induction d generalizing s q f with
  | zero =>
    obtain ⟨hq, hf⟩ := busy_eq_some.mp hb
    obtain ⟨hpos, hle⟩ := h.2.buffers b q hq
    have hdone : f.copied = q.localQueue.length := by
      have := hle f hf
      omega
    let r : QueueBuffer α := { q with localQueue := f.toAdd.toList, flushing := none }
    have hr : q.flushed f = some r := by
      cases hx : f.toAdd <;> simp [QueueBuffer.flushed, QueueBuffer.store, hx, hpos, r]
    refine ⟨[.finish b], { s with buffers := put s.buffers b r }, ?_, ?_, ?_, ?_⟩
    · simp [Runs.run, SharedQueue.step, hb, hdone, hr]
    · simp [Event.Finishing]
    · simp [busy, put_self, r]
    · exact fun c hc => put_of_ne hc
  | succ d ih =>
    have hlt : f.copied < q.localQueue.length := by omega
    have hwithin := h.1.valid.within b _ (writer_of_busy _ hb)
    simp only [board, h.1.length_values] at hwithin
    have htarget : f.copyStart + f.copied < s.queue.allocSize := by omega
    let r : QueueBuffer α := { q with flushing := some { f with copied := f.copied + 1 } }
    let c : QueueContents α := { s.queue with
      shared := Function.update s.queue.shared (f.copyStart + f.copied) (some q.localQueue[f.copied]) }
    let t : SharedQueue α := ⟨c, put s.buffers b r⟩
    have ht : s.step (.copy b) = some t := by
      simp [SharedQueue.step, hb, hlt, QueueContents.assign, htarget, t, r, c]
    have hbt : t.busy b = some (r, { f with copied := f.copied + 1 }) := by
      simp [busy, t, put_self, r]
    obtain ⟨more, u, hrun, hall, hnone, hsame⟩ :=
      ih ⟨h.1.copy ht, h.2.step (by simp) ht⟩ hroom hbt (by simp [r]; omega)
    refine ⟨.copy b :: more, u, ?_, ?_, hnone, fun d hd => (hsame d hd).trans (put_of_ne hd)⟩
    · simp [Runs.run, ht, hrun]
    · simpa [Event.Finishing] using hall

theorem complete_all {bs : List ℕ} (h : Follows s a ∧ s.Sound)
    (hroom : s.queue.sharedIn ≤ s.queue.allocSize) (hbs : ∀ b, s.busy b ≠ none → b ∈ bs) :
    ∃ more u, Runs.run SharedQueue.step s more = some u ∧ (∀ e ∈ more, Event.Finishing e) ∧
      u.Quiet := by
  induction bs generalizing s with
  | nil =>
    refine ⟨[], s, rfl, by simp, fun b => ?_⟩
    by_contra hb
    cases hbs b hb
  | cons b bs ih =>
    cases hb : s.busy b with
    | none =>
      apply ih h hroom
      intro c hc
      refine (List.mem_cons.mp (hbs c hc)).resolve_left ?_
      rintro rfl
      exact hc hb
    | some p =>
      obtain ⟨q, f⟩ := p
      obtain ⟨more, t, hrun, hall, hnone, hsame⟩ := complete_one h hroom hb
      have ht := finishing_run h hall hrun
      have hin : t.queue.sharedIn = s.queue.sharedIn := by rw [ht.1.claimed, h.1.claimed]
      have hsize : t.queue.allocSize = s.queue.allocSize := run_allocSize hrun
      obtain ⟨later, u, hlater, hall', hq⟩ := ih ht (by rw [hin, hsize]; exact hroom) (by
        intro c hc
        have hcb : c ≠ b := by
          rintro rfl
          exact hc hnone
        rw [busy_of_eq (hsame c hcb)] at hc
        exact (List.mem_cons.mp (hbs c hc)).resolve_left hcb)
      refine ⟨more ++ later, u, (Runs.run_append hrun).trans hlater, fun e he => ?_, hq⟩
      rcases List.mem_append.mp he with he | he
      · exact hall e he
      · exact hall' e he

theorem Follows.room_of_quiet (h : Follows s a) (hq : s.Quiet) :
    s.queue.sharedIn ≤ s.queue.allocSize := by
  by_contra hlt
  apply Nat.lt_irrefl s.queue.allocSize
  apply h.inBounds
  rw [Board.settled_of_quiet (hq.writers _)]
  simp only [board, h.length_values]
  omega

/-- However the threads go on, the flushes under way can all be completed exactly when the array has
room for what is reserved; otherwise one of them is to write outside it. -/
theorem flushes_complete_iff (hc : Runs.EachStep step Alone (new n) events)
    (hpos : ∀ b, Event.create b 0 ∉ events) (h : Runs.run step (new n) events = some u) :
    (∃ more v, Runs.EachStep step Alone u more ∧ Runs.run step u more = some v ∧ v.Quiet) ↔
      u.queue.sharedIn ≤ n := by
  have hf := run_follows hc h
  have hsize : u.queue.allocSize = n := run_allocSize h
  constructor
  · rintro ⟨more, v, hmore, hv, hq⟩
    by_contra hover
    let Over (s : SharedQueue α) : Prop :=
      (∃ a, Follows s a) ∧ s.queue.allocSize = n ∧ n < s.queue.sharedIn
    have hkeep : ∀ s e t, Over s → s.Alone e → s.step e = some t → Over t := by
      rintro s e t ⟨⟨a, hfs⟩, hn, hlt⟩ he ht
      have hreset : e ≠ .reset := by
        rintro rfl
        have := hfs.room_of_quiet he
        omega
      have hle := step_sharedIn_le hfs hreset he ht
      exact ⟨⟨_, hfs.step he ht⟩, (step_allocSize ht).trans hn, by omega⟩
    obtain ⟨⟨a, hfv⟩, hn, hlt⟩ :=
      Runs.EachStep.run_invariant hkeep ⟨⟨_, hf⟩, hsize, by omega⟩ hmore hv
    have := hfv.room_of_quiet hq
    omega
  · intro hroom
    have hsound : u.Sound := by
      apply Runs.EachStep.run_invariant (C := fun _ e => ∀ b, e ≠ Event.create b 0)
        (fun s e t hs he ht => hs.step he ht) _ _ h
      · exact Sound.new n
      · apply Runs.EachStep.of_forall
        rintro e he - b rfl
        exact hpos b he
    obtain ⟨bs, hbs⟩ := hsound.finite
    have hbusy : ∀ b, u.busy b ≠ none → b ∈ bs := by
      intro b hb
      apply hbs
      intro hnone
      exact hb (by simp [busy, hnone])
    obtain ⟨more, v, hrun, hall, hq⟩ := complete_all ⟨hf, hsound⟩ (hsize ▸ hroom) hbusy
    refine ⟨more, v, ?_, hrun, hq⟩
    apply Runs.EachStep.of_forall
    intro e he s
    cases e <;> first | trivial | exact absurd (hall _ he) (by simp [Event.Finishing])

theorem flushes_complete_iff_full : ∃ u : SharedQueue ℕ,
    Runs.run step (new 0) [.create 0 1, .pushBack 0 10, .flush 0] = some u ∧
      ((∃ more v, Runs.EachStep step Alone u more ∧ Runs.run step u more = some v ∧ v.Quiet) ↔
        u.queue.sharedIn ≤ 0) := by
  have hc : Runs.EachStep step Alone (new 0 : SharedQueue ℕ)
      [.create 0 1, .pushBack 0 10, .flush 0] := by
    apply Runs.EachStep.of_forall
    simp [Alone]
  exact ⟨_, rfl, flushes_complete_iff hc (by simp) rfl⟩

end SharedQueue

end PickleDevice
