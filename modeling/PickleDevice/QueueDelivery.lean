import PickleDevice.QueueRefinement

namespace PickleDevice

open Ownership Reservation

namespace SharedQueue

variable {α : Type} {s u : SharedQueue α} {a : Appended α} {b c : ℕ} {q r : QueueBuffer α}
  {f g : Flush α} {x : α} {e : Event α} {events : List (Event α)} {n i : ℕ}

def Serial (s : SharedQueue α) : Event α → Prop
  | .slideWindow => s.Quiet
  | e => s.Alone e

theorem Serial.alone (h : s.Serial e) : s.Alone e := by
  cases e <;> first | exact h | trivial

def Clear (s : SharedQueue α) : Prop :=
  ∀ b q f, s.busy b = some (q, f) → s.queue.sharedOutEnd ≤ f.copyStart

theorem busy_claim {toAdd : Option α} (h : (s.claim b q toAdd).busy c = some (r, f)) :
    f.copyStart = s.queue.sharedIn ∨ s.busy c = some (r, f) := by
  obtain ⟨hr, hf⟩ := busy_eq_some.mp h
  rcases put_cases hr with ⟨-, rfl⟩ | ⟨-, hr⟩
  · cases hf
    exact Or.inl rfl
  · exact Or.inr (busy_eq_some.mpr ⟨hr, hf⟩)

theorem Follows.outEnd_le (h : Follows s a) : s.queue.sharedOutEnd ≤ s.queue.sharedIn := by
  rw [h.outEnd, h.claimed]
  simp [Appended.content]

theorem Clear.claim {toAdd : Option α} (hc : s.Clear) (h : Follows s a) :
    (s.claim b q toAdd).Clear := by
  intro c r f hf
  rcases busy_claim hf with hf | hf
  · rw [hf]
    exact h.outEnd_le
  · exact hc c r f hf

theorem Clear.of_quiet (h : s.Quiet) : s.Clear := by
  intro b q f hf
  cases (h b).symm.trans hf

theorem Clear.put_idle {d : QueueContents α} (hc : s.Clear)
    (hd : d.sharedOutEnd = s.queue.sharedOutEnd) (hq : q.flushing = none) :
    Clear ⟨d, put s.buffers b q⟩ := by
  intro c r f hbusy
  obtain ⟨hr, hf⟩ := busy_eq_some.mp hbusy
  rcases put_cases hr with ⟨-, rfl⟩ | ⟨-, hr⟩
  · cases hq.symm.trans hf
  · exact hd ▸ hc c r f (busy_eq_some.mpr ⟨hr, hf⟩)

theorem Clear.step (hc : s.Clear) (h : Follows s a) (he : s.Serial e) (hs : s.step e = some u) :
    u.Clear := by
  cases e with
  | create b n =>
    obtain ⟨-, rfl⟩ := step_create hs
    exact hc.put_idle rfl rfl
  | pushBack b x =>
    obtain ⟨q, hb, hf, ⟨-, rfl⟩ | ⟨-, rfl⟩⟩ := step_pushBack hs
    · exact hc.claim h
    · exact hc.put_idle rfl hf
  | flush b =>
    obtain ⟨q, -, -, rfl⟩ := step_flush hs
    exact hc.claim h
  | copy b =>
    obtain ⟨q, f, x, hb, hf, -, -, rfl⟩ := step_copy hs
    intro c r g hg
    obtain ⟨hr, hg⟩ := busy_eq_some.mp hg
    rcases put_cases hr with ⟨-, rfl⟩ | ⟨-, hr⟩
    · cases hg
      exact hc b q f (busy_eq_some.mpr ⟨hb, hf⟩)
    · exact hc c r g (busy_eq_some.mpr ⟨hr, hg⟩)
  | finish b =>
    obtain ⟨q, f, -, -, -, -, rfl⟩ := step_finish hs
    exact hc.put_idle rfl rfl
  | destroy b =>
    obtain ⟨q, -, -, rfl⟩ := step_destroy hs
    intro c r g hg
    obtain ⟨hr, hg⟩ := busy_eq_some.mp hg
    exact hc c r g (busy_eq_some.mpr ⟨(remove_cases hr).2, hg⟩)
  | queuePushBack x =>
    obtain ⟨-, rfl⟩ := step_queuePushBack hs
    exact hc
  | slideWindow =>
    cases hs
    exact Clear.of_quiet he
  | reset =>
    cases hs
    exact Clear.of_quiet he

theorem writer_of_busy (content : List α) (h : s.busy b = some (q, f)) :
    (s.board content).writers b = some ⟨f.copyStart, q.localQueue, f.copied⟩ := by
  obtain ⟨hb, hf⟩ := busy_eq_some.mp h
  exact writer_eq_some.mpr ⟨q, f, hb, hf, rfl⟩

theorem settled_iff (content : List α) :
    (s.board content).Settled i ↔ i < content.length ∧ ∀ b q f, s.busy b = some (q, f) →
      ¬ (f.copyStart + f.copied ≤ i ∧ i < f.copyStart + q.localQueue.length) := by
  constructor
  · rintro ⟨hi, hno⟩
    refine ⟨hi, fun b q f hf ho => ?_⟩
    exact hno b _ (writer_of_busy content hf) ho
  · rintro ⟨hi, hno⟩
    refine ⟨hi, fun b w hw ho => ?_⟩
    obtain ⟨q, f, hb, hf, rfl⟩ := writer_eq_some.mp hw
    exact hno b q f (busy_eq_some.mpr ⟨hb, hf⟩) ho

theorem Follows.size_eq (h : Follows s a) : s.queue.size = a.window.length := by
  rw [QueueContents.size, h.outEnd, h.outStart]
  omega

theorem getElem?_window (i : ℕ) : s.queue.window[i]? =
    if i < s.queue.size then some (s.queue.shared (s.queue.sharedOutStart + i)) else none := by
  rw [QueueContents.window, List.getElem?_map]
  split
  case isTrue h => simp [h]
  case isFalse h => simp [h]

theorem values_window (hi : i < a.window.length) :
    a.values[a.past.length + i]? = a.window[i]?.map Prod.snd := by
  rw [Appended.values, List.getElem?_map, Appended.content, List.getElem?_append_left (by simp; omega),
    List.getElem?_append_right (by omega)]
  simp

theorem Follows.read_window (h : Follows s a)
    (hs : (s.board a.values).Settled (s.queue.sharedOutStart + i)) (hi : i < a.window.length) :
    s.queue.window[i]? = some (a.window[i]?.map Prod.snd) := by
  rw [getElem?_window, if_pos (h.size_eq ▸ hi), h.shows _ hs]
  exact congrArg some (h.outStart ▸ values_window hi)

theorem Follows.window_eq (h : Follows s a)
    (hs : ∀ i < a.window.length, (s.board a.values).Settled (s.queue.sharedOutStart + i)) :
    s.queue.window = a.window.map fun p => some p.2 := by
  apply List.ext_getElem?
  intro i
  by_cases hi : i < a.window.length
  · rw [h.read_window (hs i hi) hi, List.getElem?_map]
    simp [hi]
  · rw [getElem?_window, if_neg (h.size_eq ▸ hi), List.getElem?_eq_none (by simpa using hi)]

theorem Follows.cells_eq (h : Follows s a) (hq : s.Quiet) :
    (List.range s.queue.sharedIn).map s.queue.shared = a.values.map some := by
  apply List.ext_getElem?
  intro i
  rw [← h.length_values]
  by_cases hi : i < a.values.length
  · have hs : (s.board a.values).Settled i := (Board.settled_of_quiet (hq.writers _)).mpr hi
    rw [List.getElem?_map, List.getElem?_range hi, Option.map_some, h.shows i hs]
    simp [board, hi]
  · rw [List.getElem?_eq_none (by simpa using hi), List.getElem?_eq_none (by simpa using hi)]

theorem run_clear (hc : Runs.EachStep step Serial (new n) events)
    (h : Runs.run step (new n) events = some u) :
    Follows u ((Refinement.trace step ops (new n) events).foldl Appended.step .nothing) ∧ u.Clear := by
  apply Refinement.run_related (R := fun s a => Follows s a ∧ s.Clear) _ _ hc h
  · rintro s e u a ⟨hf, hcl⟩ he hs
    exact ⟨hf.step he.alone hs, hcl.step hf he hs⟩
  · refine ⟨Follows.new n, Clear.of_quiet fun b => rfl⟩

theorem settled_of_clear (h : Follows s a) (hc : s.Clear) (hi : i < s.queue.sharedOutEnd) :
    (s.board a.values).Settled i := by
  refine (settled_iff _).mpr ⟨?_, fun b q f hf ho => ?_⟩
  · rw [h.length_values]
    exact lt_of_lt_of_le hi h.outEnd_le
  · have := hc b q f hf
    omega

/-- Whatever the order of the threads' steps, the window is at every moment what a queue that takes
each buffer at once, in the order of the additions to `shared_in`, would have there. -/
theorem window_refines (hc : Runs.EachStep step Serial (new n) events)
    (h : Runs.run step (new n) events = some u) :
    let a := (Refinement.trace step ops (new n) events).foldl Appended.step .nothing
    u.queue.window = (a.window.map fun p => some p.2) ∧ u.queue.size = a.window.length ∧
      (u.queue.empty = true ↔ a.window = []) ∧ u.held = a.held ∧
      (u.Quiet → (List.range u.queue.sharedIn).map u.queue.shared = a.values.map some) := by
  obtain ⟨hf, hcl⟩ := run_clear hc h
  refine ⟨?_, hf.size_eq, ?_, hf.held.symm, hf.cells_eq⟩
  · apply hf.window_eq
    intro i hi
    apply settled_of_clear hf hcl
    rw [hf.outEnd, hf.outStart]
    omega
  · rw [QueueContents.empty, beq_iff_eq, hf.outEnd, hf.outStart, ← List.length_eq_zero_iff]
    omega

theorem quiet_of_one (h : ∀ b, b ≠ 0 → s.buffers b = none) (h0 : s.busy 0 = none) : s.Quiet := by
  intro b
  by_cases hb : b = 0
  · exact hb ▸ h0
  · simp [busy, h b hb]

theorem window_refines_slid : ∃ u : SharedQueue ℕ,
    Runs.run step (new 4) [.create 0 2, .pushBack 0 10, .flush 0, .copy 0, .finish 0, .slideWindow]
      = some u ∧ u.queue.window = [some 10] := by
  have hc : Runs.EachStep step Serial (new 4 : SharedQueue ℕ)
      [.create 0 2, .pushBack 0 10, .flush 0, .copy 0, .finish 0, .slideWindow] := by
    iterate 5
      intro t ht
      cases ht
      refine ⟨trivial, ?_⟩
    intro t ht
    refine ⟨quiet_of_one (fun b hb => ?_) rfl, trivial⟩
    simp [put, Function.update_of_ne hb, claim, new]
  exact ⟨_, rfl, (window_refines hc rfl).1.trans rfl⟩

def targets (s : SharedQueue α) : Event α → List ℕ
  | .copy b => (s.busy b).toList.map fun p => p.2.copyStart + p.2.copied
  | .queuePushBack _ => [s.queue.sharedIn]
  | _ => []

theorem target_mem (content : List α) {w : Writer α} (hw : (s.board content).writers b = some w) :
    i ∈ s.targets (.copy b) ↔ i = w.target := by
  obtain ⟨q, f, hb, hf, rfl⟩ := writer_eq_some.mp hw
  simp [targets, busy_eq_some.mpr ⟨hb, hf⟩, Writer.target]

theorem Follows.settled_step (h : Follows s a) (he : e ≠ .reset) (hs : s.step e = some u) :
    (u.board ((s.ops e).foldl Appended.step a).values).Settled i ↔
      (s.board a.values).Settled i ∨ i ∈ s.targets e := by
  cases e with
  | create b n =>
    obtain ⟨hb, rfl⟩ := step_create hs
    simp only [ops, targets, List.not_mem_nil, or_false, List.foldl_nil]
    rw [board_put_idle (by simp [board, hb]) rfl]
  | pushBack b x =>
    obtain ⟨q, hb, hf, ⟨hfull, rfl⟩ | ⟨hroom, rfl⟩⟩ := step_pushBack hs
    · simp only [ops_pushBack_full hb hfull, targets, List.not_mem_nil, or_false]
      change (board _ (a.step (.flush b)).values).Settled i ↔ _
      rw [h.board_claim _ hb hf]
      exact Board.settled_reserve (writer_idle _ hb hf)
    · simp only [ops_pushBack_room hb hroom, targets, List.not_mem_nil, or_false]
      change (board _ a.values).Settled i ↔ _
      let r : QueueBuffer α := { q with localQueue := q.localQueue ++ [x] }
      rw [board_put_idle (q := r) (writer_idle _ hb hf) hf]
  | flush b =>
    obtain ⟨q, hb, hf, rfl⟩ := step_flush hs
    simp only [ops, List.foldl_cons, List.foldl_nil, targets, List.not_mem_nil, or_false]
    rw [h.board_claim _ hb hf]
    exact Board.settled_reserve (writer_idle _ hb hf)
  | copy b =>
    obtain ⟨w, x, hw, hx, -, hboard, -⟩ := board_copy a.values hs
    simp only [ops, List.foldl_nil]
    rw [hboard, target_mem a.values hw]
    exact Board.settled_advance h.valid hw (List.getElem?_eq_some_iff.mp hx).1
  | finish b =>
    obtain ⟨w, hw, hd, hboard, -⟩ := board_finish a.values hs
    simp only [ops, List.foldl_nil, targets, List.not_mem_nil, or_false]
    rw [hboard]
    exact Board.settled_retire hw hd
  | destroy b =>
    simp only [ops, List.foldl_cons, List.foldl_nil, targets, List.not_mem_nil, or_false]
    change (u.board a.values).Settled i ↔ _
    rw [(board_destroy a.values hs).1]
  | queuePushBack x =>
    obtain ⟨-, rfl⟩ := step_queuePushBack hs
    simp only [ops, List.foldl_cons, List.foldl_nil, targets, List.mem_singleton]
    rw [values_push, ← h.length_values]
    exact Board.settled_append h.valid
  | slideWindow =>
    cases hs
    simp only [ops, List.foldl_cons, List.foldl_nil, targets, List.not_mem_nil, or_false]
    rw [values_slide]
    rfl
  | reset => exact absurd rfl he

theorem Follows.target_unsettled (h : Follows s a) (hs : s.step e = some u)
    (hi : i ∈ s.targets e) : ¬ (s.board a.values).Settled i ∧ i < s.queue.allocSize := by
  cases e with
  | copy b =>
    obtain ⟨w, x, hw, hx, hlt, -⟩ := board_copy a.values hs
    rw [target_mem a.values hw] at hi
    subst hi
    refine ⟨fun hset => hset.2 b w hw ⟨Nat.le_refl _, ?_⟩, hlt⟩
    have := (List.getElem?_eq_some_iff.mp hx).1
    simp only [Writer.target]
    omega
  | queuePushBack x =>
    obtain ⟨hlt, -⟩ := step_queuePushBack hs
    simp only [targets, List.mem_singleton] at hi
    subst hi
    refine ⟨fun hset => ?_, hlt⟩
    have hset' := hset.1
    simp only [board, h.length_values] at hset'
    omega
  | _ => cases hi

theorem step_allocSize (hs : s.step e = some u) : u.queue.allocSize = s.queue.allocSize := by
  cases e with
  | create b n =>
    obtain ⟨-, rfl⟩ := step_create hs
    rfl
  | pushBack b x =>
    obtain ⟨q, -, -, ⟨-, rfl⟩ | ⟨-, rfl⟩⟩ := step_pushBack hs
    · rfl
    · rfl
  | flush b =>
    obtain ⟨q, -, -, rfl⟩ := step_flush hs
    rfl
  | copy b =>
    obtain ⟨q, f, x, -, -, -, -, rfl⟩ := step_copy hs
    rfl
  | finish b =>
    obtain ⟨q, f, -, -, -, -, rfl⟩ := step_finish hs
    rfl
  | destroy b =>
    obtain ⟨q, -, -, rfl⟩ := step_destroy hs
    rfl
  | queuePushBack x =>
    obtain ⟨-, rfl⟩ := step_queuePushBack hs
    rfl
  | slideWindow =>
    cases hs
    rfl
  | reset =>
    cases hs
    rfl

def writes (s : SharedQueue α) (events : List (Event α)) : List ℕ :=
  Refinement.trace step targets s events

theorem writes_run (h : Follows s a) (hc : Runs.EachStep step Alone s events)
    (hno : Event.reset ∉ events) (hr : Runs.run step s events = some u) :
    (s.writes events).Nodup ∧ (∀ i ∈ s.writes events, ¬ (s.board a.values).Settled i) ∧
      ∀ i, (u.board ((Refinement.trace step ops s events).foldl Appended.step a).values).Settled i ↔
        (s.board a.values).Settled i ∨ i ∈ s.writes events := by
  induction events generalizing s a with
  | nil =>
    cases hr
    simp [writes, Refinement.trace]
  | cons e events ih =>
    obtain ⟨t, ht, hr⟩ := Option.bind_eq_some_iff.mp hr
    obtain ⟨he, hrest⟩ := hc t ht
    rw [List.mem_cons, not_or] at hno
    obtain ⟨hnodup, hnew, hset⟩ := ih (h.step he ht) hrest hno.2 hr
    have hone : ∀ i, _ := fun i => h.settled_step (i := i) (Ne.symm hno.1) ht
    have hmem : ∀ i, i ∈ s.writes (e :: events) ↔ i ∈ s.targets e ∨ i ∈ t.writes events := by
      intro i
      rw [writes, Refinement.trace_cons ht, List.mem_append]
      rfl
    refine ⟨?_, fun i hi => ?_, fun i => ?_⟩
    · rw [writes, Refinement.trace_cons ht]
      apply List.Nodup.append
      · cases e with
        | copy b => cases hb : s.busy b <;> simp [targets, hb]
        | _ => simp [targets]
      · exact hnodup
      · intro i hi hi'
        exact hnew i hi' ((hone i).mpr (Or.inr hi))
    · rcases (hmem i).mp hi with hi | hi
      · exact (h.target_unsettled ht hi).1
      · exact fun hs => hnew i hi ((hone i).mpr (Or.inl hs))
    · rw [Refinement.trace_cons ht, List.foldl_append, hset i, hone i, hmem i, or_assoc]

theorem run_follows (hc : Runs.EachStep step Alone (new n) events)
    (h : Runs.run step (new n) events = some u) :
    Follows u ((Refinement.trace step ops (new n) events).foldl Appended.step .nothing) :=
  Refinement.run_related (fun _ _ _ _ hf he hs => hf.step he hs) (Follows.new n) hc h

theorem writes_once (hc : Runs.EachStep step Alone (new n) events) (hno : Event.reset ∉ events)
    (h : Runs.run step (new n) events = some u) :
    (writes (new n) events).Nodup ∧
      (u.Quiet → (writes (new n) events).Perm (List.range u.queue.sharedIn)) := by
  obtain ⟨hnodup, -, hset⟩ := writes_run (Follows.new n) hc hno h
  refine ⟨hnodup, fun hq => ?_⟩
  apply (List.perm_ext_iff_of_nodup hnodup List.nodup_range).mpr
  intro i
  have hmem := hset i
  rw [Board.settled_of_quiet (hq.writers _)] at hmem
  simp only [board, (run_follows hc h).length_values] at hmem
  rw [List.mem_range, hmem]
  constructor
  · exact Or.inr
  · rintro (hi | hi)
    · cases hi.1
    · exact hi

theorem writes_once_flushed : ∃ u : SharedQueue ℕ,
    Runs.run step (new 4) [.create 0 2, .pushBack 0 10, .flush 0, .copy 0] = some u ∧
      (writes (new 4) [.create 0 2, .pushBack 0 10, .flush 0, .copy 0]).Nodup := by
  refine ⟨_, rfl, (writes_once ?_ (by simp) rfl).1⟩
  apply Runs.EachStep.of_forall
  simp [Alone]

theorem copies_apart (hc : Runs.EachStep step Serial (new n) events)
    (h : Runs.run step (new n) events = some u) (hb : u.busy b = some (q, f)) (hlo : f.copied ≤ i)
    (hi : i < q.localQueue.length) :
    u.queue.sharedOutEnd ≤ f.copyStart + i ∧ f.copyStart + i < u.queue.sharedIn ∧
      ∀ c r g j, c ≠ b → u.busy c = some (r, g) → g.copied ≤ j → j < r.localQueue.length →
        g.copyStart + j ≠ f.copyStart + i := by
  obtain ⟨hf, hcl⟩ := run_clear hc h
  refine ⟨?_, ?_, fun c r g j hcb hg hj hjr heq => ?_⟩
  · have := hcl b q f hb
    omega
  · have hwithin := hf.valid.within b _ (writer_of_busy _ hb)
    simp only [board, hf.length_values] at hwithin
    omega
  · have howed : (⟨f.copyStart, q.localQueue, f.copied⟩ : Writer α).Owes (f.copyStart + i) := by
      simp only [Writer.Owes, Writer.target]
      omega
    apply hf.valid.apart b c _ _ _ hcb.symm (writer_of_busy _ hb) (writer_of_busy _ hg) howed
    simp only [Writer.Owes, Writer.target]
    omega

theorem copies_apart_two : ∃ (u : SharedQueue ℕ) (q : QueueBuffer ℕ) (f : Flush ℕ),
    Runs.run step (new 4)
      [.create 0 1, .create 1 1, .pushBack 0 10, .pushBack 1 20, .flush 0, .flush 1] = some u ∧
      u.busy 0 = some (q, f) ∧
      ∀ c r g j, c ≠ 0 → u.busy c = some (r, g) → g.copied ≤ j → j < r.localQueue.length →
        g.copyStart + j ≠ f.copyStart + 0 := by
  have hc : Runs.EachStep step Serial (new 4 : SharedQueue ℕ)
      [.create 0 1, .create 1 1, .pushBack 0 10, .pushBack 1 20, .flush 0, .flush 1] := by
    apply Runs.EachStep.of_forall
    simp [Serial, Alone]
  exact ⟨_, _, _, rfl, rfl, (copies_apart hc rfl rfl (Nat.le_refl _) (by decide)).2.2⟩

def through (o : Option ℕ) (l : List (Option ℕ × α)) : List α :=
  (l.filter fun p => p.1 = o).map Prod.snd

def pushedTo (b : ℕ) : Event α → Option α
  | .pushBack c x => if c = b then some x else none
  | _ => none

def pushedDirectly : Event α → Option α
  | .queuePushBack x => some x
  | _ => none

def Flushed (b : ℕ) (s : SharedQueue α) (e : Event α) : Prop := e = .destroy b → s.held b = []

theorem through_append (o : Option ℕ) (l m : List (Option ℕ × α)) :
    through o (l ++ m) = through o l ++ through o m := by simp [through]

theorem through_tagged (o : Option ℕ) (b : ℕ) (l : List α) :
    through o (l.map fun x => (some b, x)) = if o = some b then l else [] := by
  by_cases h : o = some b
  · simp [through, h, List.filter_map, Function.comp_def]
  · rw [if_neg h]
    simp [through, List.filter_map, Function.comp_def, Ne.symm h]

def delivered (a : Appended α) (b : ℕ) : List α := through (some b) a.content ++ a.held b

theorem delivered_append : delivered (a.step (.append c x)) b =
    delivered a b ++ if c = b then [x] else [] := by
  by_cases hcb : c = b
  · subst hcb
    simp [delivered, Appended.step, Appended.content]
  · simp [delivered, Appended.step, Appended.content, hcb, Function.update_of_ne (Ne.symm hcb)]

theorem delivered_flush : delivered (a.step (.flush c)) b = delivered a b := by
  have hcontent : (a.step (.flush c)).content = a.content ++ (a.held c).map fun x => (some c, x) := by
    simp [Appended.step, Appended.content]
  simp only [delivered, hcontent, through_append, through_tagged, Option.some.injEq]
  by_cases hbc : b = c
  · subst hbc
    simp [Appended.step]
  · simp [hbc, Appended.step, Function.update_of_ne]

theorem delivered_push : delivered (a.step (.push x)) b = delivered a b := by
  have hcontent : (a.step (.push x)).content = a.content ++ [(none, x)] := by
    simp [Appended.step, Appended.content]
  simp [delivered, hcontent, through_append]
  simp [through, Appended.step]

theorem delivered_slide : delivered (a.step .slide) b = delivered a b := by
  simp [delivered, Appended.step, Appended.content]

theorem delivered_kept (he : e ≠ .reset) (hd : ∀ c, e ≠ .destroy c) :
    delivered ((s.ops e).foldl Appended.step a) b = delivered a b ++ (pushedTo b e).toList := by
  cases e with
  | pushBack c x =>
    have hone : (pushedTo b (.pushBack c x)).toList = if c = b then [x] else [] := by
      simp only [pushedTo]
      split <;> rfl
    rw [hone]
    simp only [ops]
    split
    · rw [List.foldl_cons, List.foldl_cons, List.foldl_nil, delivered_append, delivered_flush]
    · rw [List.foldl_cons, List.foldl_nil, delivered_append]
  | flush c => simp [ops, pushedTo, delivered_flush]
  | queuePushBack x => simp [ops, pushedTo, delivered_push]
  | slideWindow => simp [ops, pushedTo, delivered_slide]
  | destroy c => exact absurd rfl (hd c)
  | reset => exact absurd rfl he
  | _ => simp [ops, pushedTo]

theorem delivered_discard : delivered (a.step (.discard c)) b =
    if c = b then through (some b) a.content else delivered a b := by
  by_cases hcb : c = b
  · subst hcb
    simp [delivered, Appended.step, Appended.content]
  · simp [delivered, Appended.step, Appended.content, hcb, Function.update_of_ne (Ne.symm hcb)]

theorem Follows.delivered_step (h : Follows s a) (he : e ≠ .reset) :
    (delivered ((s.ops e).foldl Appended.step a) b).Sublist
        (delivered a b ++ (pushedTo b e).toList) ∧
      (delivered ((s.ops e).foldl Appended.step a) b = delivered a b ++ (pushedTo b e).toList ↔
        s.Flushed b e) := by
  by_cases hd : ∀ c, e ≠ .destroy c
  · have hkept := delivered_kept (s := s) (a := a) (b := b) he hd
    have hflushed : s.Flushed b e := fun hb => absurd hb (hd b)
    exact ⟨hkept ▸ List.Sublist.refl _, iff_of_true hkept hflushed⟩
  · obtain ⟨c, hc⟩ := not_forall_not.mp hd
    subst hc
    simp only [ops, List.foldl_cons, List.foldl_nil, pushedTo, Option.toList_none, List.append_nil,
      delivered_discard, Flushed, Event.destroy.injEq, ← h.held]
    split_ifs with hcb
    · simp [delivered, hcb]
    · simp [hcb]

theorem directly_step (a : Appended α) (he : e ≠ .reset) :
    through none ((s.ops e).foldl Appended.step a).content =
      through none a.content ++ (pushedDirectly e).toList := by
  have hslide : (a.step .slide).content = a.content := by simp [Appended.step, Appended.content]
  have hflush : ∀ c, through none (a.step (.flush c)).content = through none a.content := by
    intro c
    have hcontent : (a.step (.flush c)).content =
        a.content ++ (a.held c).map fun x => (some c, x) := by
      simp [Appended.step, Appended.content]
    rw [hcontent, through_append, through_tagged, if_neg (by simp), List.append_nil]
  cases e with
  | pushBack c x =>
    simp only [ops, pushedDirectly, Option.toList_none, List.append_nil]
    split
    · exact hflush c
    · rfl
  | flush c => simpa [ops, pushedDirectly] using hflush c
  | queuePushBack x =>
    simp [ops, pushedDirectly, Appended.step, Appended.content, through_append]
    simp [through]
  | slideWindow => simp [ops, pushedDirectly, hslide]
  | reset => exact absurd rfl he
  | _ => simp [ops, pushedDirectly, Appended.step, Appended.content]

theorem delivered_run (h : Follows s a) (hc : Runs.EachStep step Alone s events)
    (hno : Event.reset ∉ events) (hr : Runs.run step s events = some u) :
    let a' := (Refinement.trace step ops s events).foldl Appended.step a
    through none a'.content = through none a.content ++ events.filterMap pushedDirectly ∧
      (delivered a' b).Sublist (delivered a b ++ events.filterMap (pushedTo b)) ∧
      (delivered a' b = delivered a b ++ events.filterMap (pushedTo b) ↔
        Runs.EachStep step (Flushed b) s events) := by
  induction events generalizing s a with
  | nil =>
    cases hr
    simp [Refinement.trace, Runs.EachStep]
  | cons e events ih =>
    obtain ⟨t, ht, hr⟩ := Option.bind_eq_some_iff.mp hr
    obtain ⟨he, hrest⟩ := hc t ht
    rw [List.mem_cons, not_or] at hno
    obtain ⟨hdirect, hsub, hiff⟩ := ih (h.step he ht) hrest hno.2 hr
    obtain ⟨hsub₁, hiff₁⟩ := h.delivered_step (b := b) (Ne.symm hno.1)
    have hcons : ∀ g : Event α → Option α,
        (e :: events).filterMap g = (g e).toList ++ events.filterMap g := by
      intro g
      cases hg : g e <;> simp [hg]
    simp only [Refinement.trace_cons ht, List.foldl_append, hcons, ← List.append_assoc]
    refine ⟨?_, hsub.trans (hsub₁.append (List.Sublist.refl _)), ?_⟩
    · rw [hdirect, directly_step a (Ne.symm hno.1)]
    · constructor
      · -- a loss in either part shows in the lengths
        intro heq
        have hlen := congrArg List.length heq
        have hle := hsub.length_le
        have hle₁ := hsub₁.length_le
        simp only [List.length_append] at hlen hle hle₁
        have heq₁ := hsub₁.eq_of_length (by simp only [List.length_append]; omega)
        have heq₂ := hsub.eq_of_length (by simp only [List.length_append]; omega)
        intro v hv
        cases ht.symm.trans hv
        exact ⟨hiff₁.mp heq₁, hiff.mp heq₂⟩
      · intro hall
        obtain ⟨hfl, hfls⟩ := hall t ht
        rw [hiff.mpr hfls, hiff₁.mpr hfl]

/-- When no thread is in a `flush`, the cells below `shared_in` are a merge: each buffer's elements
are there, those it still holds apart, in the order it was given them, and none is missing exactly
when no buffer was destroyed with elements in it. -/
theorem cells_merge (hc : Runs.EachStep step Alone (new n) events) (hno : Event.reset ∉ events)
    (h : Runs.run step (new n) events = some u) (hq : u.Quiet) :
    ∃ order : List (Option ℕ × α),
      (List.range u.queue.sharedIn).map u.queue.shared = (order.map fun p => some p.2) ∧
      through none order = events.filterMap pushedDirectly ∧
      ∀ b, (through (some b) order ++ u.held b).Sublist (events.filterMap (pushedTo b)) ∧
        (through (some b) order ++ u.held b = events.filterMap (pushedTo b) ↔
          Runs.EachStep step (Flushed b) (new n) events) := by
  have hf := run_follows hc h
  refine ⟨((Refinement.trace step ops (new n) events).foldl Appended.step .nothing).content,
    ?_, ?_, fun b => ?_⟩
  · rw [hf.cells_eq hq, Appended.values, List.map_map]
    rfl
  · obtain ⟨hdirect, -⟩ := delivered_run (b := 0) (Follows.new n) hc hno h
    exact hdirect
  · obtain ⟨-, hsub, hiff⟩ := delivered_run (b := b) (Follows.new n) hc hno h
    simp only [delivered, hf.held] at hsub hiff
    exact ⟨hsub, hiff⟩

theorem cells_merge_flushed : ∃ u : SharedQueue ℕ,
    Runs.run step (new 4) [.create 0 2, .pushBack 0 10, .flush 0, .copy 0, .finish 0] = some u ∧
      ∃ order : List (Option ℕ × ℕ),
        (List.range u.queue.sharedIn).map u.queue.shared = (order.map fun p => some p.2) ∧
          (through (some 0) order ++ u.held 0).Sublist [10] := by
  have hc : Runs.EachStep step Alone (new 4 : SharedQueue ℕ)
      [.create 0 2, .pushBack 0 10, .flush 0, .copy 0, .finish 0] := by
    apply Runs.EachStep.of_forall
    simp [Alone]
  obtain ⟨order, hcells, -, hall⟩ := cells_merge hc (by simp) rfl
    (quiet_of_one (fun b hb => by simp [put, Function.update_of_ne hb, claim, new]) rfl)
  exact ⟨_, rfl, order, hcells, (hall 0).1⟩

end SharedQueue

end PickleDevice
