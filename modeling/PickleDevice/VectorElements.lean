import PickleDevice.VectorHistory

/-!
Vectors as their users see them: lists of elements, which tell nothing of where
the elements are or how many more there is room for.
-/

namespace PickleDevice

open Ownership

/-- The lists under their names; a vector whose storage was leaked has none. -/
abbrev VectorLists (α : Type) := Objects (Option (List (Option α)))

/-- A call on lists. Where `resize` makes a list longer, nothing is said of the new elements. -/
inductive VectorLists.Step {α : Type} (l : VectorLists α) : VectorCall α → VectorLists α → Prop
  | default {x : ℕ} (hx : l x = none) : Step l (.default x) (put l x (some []))
  | sized {x n : ℕ} {new : ℤ} (hx : l x = none) :
      Step l (.sized x n new) (put l x (some (List.replicate n none)))
  | filled {x n : ℕ} {val : α} {new : ℤ} (hx : l x = none) :
      Step l (.filled x n val new) (put l x (some (List.replicate n (some val))))
  | copied {x y i j : ℕ} {new : ℤ} {e : List (Option α)} (hx : l x = none) (hy : l y = some (some e))
      (hij : i ≤ j) (hj : j ≤ e.length) :
      Step l (.copied x y i j new) (put l x (some ((e.take j).drop i)))
  | moved {x y : ℕ} {e : List (Option α)} (hx : l x = none) (hy : l y = some (some e)) :
      Step l (.moved x y) (put (put l x (some e)) y (some []))
  | moveAssign_self {x : ℕ} {e : List (Option α)} (hx : l x = some (some e)) :
      Step l (.moveAssign x x) l
  | moveAssign {x y : ℕ} {o : Option (List (Option α))} {e : List (Option α)} (hxy : x ≠ y)
      (hx : l x = some o) (hy : l y = some (some e)) :
      Step l (.moveAssign x y) (put (put l x (some e)) y (some []))
  | reserve {x n : ℕ} {new : ℤ} {e : List (Option α)} (hx : l x = some (some e)) :
      Step l (.reserve x n new) (put l x (some e))
  | resize {x n : ℕ} {new : ℤ} {e e' : List (Option α)} (hx : l x = some (some e))
      (hlen : e'.length = n) (hkeep : e'.take e.length = e.take n) :
      Step l (.resize x n new) (put l x (some e'))
  | pushBack {x : ℕ} {val : α} {new : ℤ} {e : List (Option α)} (hx : l x = some (some e)) :
      Step l (.pushBack x val new) (put l x (some (e ++ [some val])))
  | assign {x n : ℕ} {val : α} {e : List (Option α)} (hx : l x = some (some e)) (hn : n < e.length) :
      Step l (.assign x n val) (put l x (some (e.set n (some val))))
  | fill {x : ℕ} {val : α} {e : List (Option α)} (hx : l x = some (some e)) :
      Step l (.fill x val) (put l x (some (List.replicate e.length (some val))))
  | clear {x : ℕ} {e : List (Option α)} (hx : l x = some (some e)) :
      Step l (.clear x) (put l x (some []))
  | swap_self {x : ℕ} {e : List (Option α)} (hx : l x = some (some e)) : Step l (.swap x x) l
  | swap {x y : ℕ} {e e' : List (Option α)} (hxy : x ≠ y) (hx : l x = some (some e))
      (hy : l y = some (some e')) : Step l (.swap x y) (put (put l x (some e')) y (some e))
  | leak {x : ℕ} {e : List (Option α)} (hx : l x = some (some e)) : Step l (.leak x) (put l x none)
  | destroy {x : ℕ} {o : Option (List (Option α))} (hx : l x = some o) :
      Step l (.destroy x) (remove l x)

namespace Sequences

variable {α : Type} {a a' : Sequences α} {l l' : VectorLists α} {x y : ℕ} {call : VectorCall α}
  {o : Option (Sequence α)} {s : Sequence α}

def lists (a : Sequences α) : VectorLists α := fun x => (a.objects x).map (·.map Sequence.contents)

theorem lists_put (objects : Objects (Option (Sequence α))) (o : Option (Sequence α)) (lost : ℕ) :
    lists ⟨put objects x o, lost⟩ = put (lists ⟨objects, lost⟩) x (o.map Sequence.contents) := by
  funext y
  by_cases hyx : y = x
  · subst hyx
    simp [lists, put_self]
  · simp [lists, put_of_ne hyx]

theorem lists_remove (lost : ℕ) : lists ⟨remove a.objects x, lost⟩ = remove a.lists x := by
  funext y
  by_cases hyx : y = x
  · subst hyx
    simp [lists, remove_self]
  · simp [lists, remove_of_ne hyx]

theorem lists_of_object (hx : a.objects x = some o) :
    a.lists x = some (o.map Sequence.contents) := by
  simp [lists, hx]

theorem lists_of_none (hx : a.objects x = none) : a.lists x = none := by
  simp [lists, hx]

theorem construct_lists (h : a.construct x s = some a') :
    a.lists x = none ∧ a'.lists = put a.lists x (some s.contents) := by
  unfold construct at h
  split at h
  case h_1 => cases h
  case h_2 hx =>
    cases h
    exact ⟨lists_of_none hx, lists_put a.objects (some s) _⟩

theorem change_lists {f : Sequence α → Option (Sequence α)} (h : a.change x f = some a') :
    ∃ s s', f s = some s' ∧ a.lists x = some (some s.contents) ∧
      a'.lists = put a.lists x (some s'.contents) := by
  unfold change at h
  split at h
  case h_1 s hx =>
    obtain ⟨s', hs, rfl⟩ := Option.map_eq_some_iff.mp h
    exact ⟨s, s', hs, lists_of_object hx, lists_put a.objects (some s') _⟩
  case h_2 => cases h

theorem moveAssign_lists (h : a.step (.moveAssign x y) = some a') :
    a.lists.Step (.moveAssign x y) a'.lists := by
  obtain ⟨o, s, hx, hy, ⟨rfl, rfl⟩ | ⟨hxy, rfl⟩⟩ := step_moveAssign h
  · exact .moveAssign_self (lists_of_object hy)
  · rw [lists_put, lists_put]
    exact .moveAssign hxy (lists_of_object hx) (lists_of_object hy)

theorem resize_lists {n : ℕ} {new : ℤ} (h : a.step (.resize x n new) = some a') :
    a.lists.Step (.resize x n new) a'.lists := by
  obtain ⟨s, s', hs, hx, hl⟩ := change_lists h
  cases hs
  rw [hl]
  apply VectorLists.Step.resize hx
  · exact (s.resize n).length_contents
  · rw [s.length_contents]
    exact s.contents_resize n

theorem swap_lists (h : a.step (.swap x y) = some a') : a.lists.Step (.swap x y) a'.lists := by
  obtain ⟨s, t, hx, hy, ⟨rfl, rfl⟩ | ⟨hxy, rfl⟩⟩ := step_swap h
  · exact .swap_self (lists_of_object hx)
  · rw [lists_put, lists_put]
    exact .swap hxy (lists_of_object hx) (lists_of_object hy)

theorem step_lists (h : a.step call = some a') : a.lists.Step call a'.lists := by
  cases call with
  | default x =>
    obtain ⟨hx, hl⟩ := construct_lists h
    rw [hl]
    exact .default hx
  | sized x n new =>
    obtain ⟨hx, hl⟩ := construct_lists h
    rw [hl, ← Sequence.all_replicate, Sequence.contents_all]
    exact .sized hx
  | filled x n val new =>
    obtain ⟨hx, hl⟩ := construct_lists h
    rw [hl, Sequence.contents_all]
    exact .filled hx
  | copied x y i j new =>
    obtain ⟨s, hy, hij, hj, hconstruct⟩ := step_copied h
    obtain ⟨hx, hl⟩ := construct_lists hconstruct
    rw [hl, Sequence.slice, Sequence.contents_all]
    exact .copied hx (lists_of_object hy) hij (s.length_contents.symm ▸ hj)
  | moved x y =>
    obtain ⟨s, hx, hy, rfl⟩ := step_moved h
    rw [lists_put, lists_put]
    exact .moved (lists_of_none hx) (lists_of_object hy)
  | moveAssign x y => exact moveAssign_lists h
  | reserve x n new =>
    obtain ⟨s, s', hs, hx, hl⟩ := change_lists h
    cases hs
    rw [hl, Sequence.contents_reserve]
    exact .reserve hx
  | resize x n new => exact resize_lists h
  | pushBack x val new =>
    obtain ⟨s, s', hs, hx, hl⟩ := change_lists h
    cases hs
    rw [hl, Sequence.contents_pushBack]
    exact .pushBack hx
  | assign x n val =>
    obtain ⟨s, s', hs, hx, hl⟩ := change_lists h
    split_ifs at hs with hn
    cases hs
    rw [hl, Sequence.contents_assign]
    exact .assign hx (s.length_contents.symm ▸ hn)
  | fill x val =>
    obtain ⟨s, s', hs, hx, hl⟩ := change_lists h
    cases hs
    rw [hl, Sequence.contents_fill, ← s.length_contents]
    exact .fill hx
  | clear x =>
    obtain ⟨s, s', hs, hx, hl⟩ := change_lists h
    cases hs
    rw [hl, Sequence.contents_clear]
    exact .clear hx
  | swap x y => exact swap_lists h
  | leak x =>
    obtain ⟨s, hx, rfl⟩ := step_leak h
    rw [lists_put]
    exact .leak (lists_of_object hx)
  | destroy x =>
    obtain ⟨o, hx, rfl⟩ := step_destroy h
    rw [lists_remove]
    exact .destroy (lists_of_object hx)

def Measures (a : Sequences α) (l : VectorLists α) : Prop :=
  ∀ x, (a.objects x).map (·.map Sequence.size) = (l x).map (·.map List.length)

theorem Measures.absent (h : a.Measures l) (hx : l x = none) : a.objects x = none := by
  simpa [hx] using h x

theorem Measures.present {e : Option (List (Option α))} (h : a.Measures l) (hx : l x = some e) :
    ∃ o, a.objects x = some o := by
  have hsome := h x
  rw [hx] at hsome
  obtain ⟨o, ho, -⟩ := Option.map_eq_some_iff.mp hsome
  exact ⟨o, ho⟩

theorem Measures.object {e : List (Option α)} (h : a.Measures l) (hx : l x = some (some e)) :
    ∃ s, a.objects x = some (some s) ∧ s.size = e.length := by
  simpa [hx] using h x

theorem Measures.put {e : Option (List (Option α))} (o : Option (Sequence α)) (lost : ℕ)
    (h : a.Measures l)
    (ho : o.map Sequence.size = e.map List.length) :
    Measures ⟨Ownership.put a.objects x o, lost⟩ (Ownership.put l x e) := by
  intro y
  by_cases hyx : y = x
  · subst hyx
    simp [put_self, ho]
  · simp only [put_of_ne hyx]
    exact h y

theorem Measures.put_some {e : List (Option α)} (lost : ℕ) (h : a.Measures l)
    (hs : s.size = e.length) :
    Measures ⟨Ownership.put a.objects x (some s), lost⟩ (Ownership.put l x (some e)) :=
  h.put (some s) lost (congrArg some hs)

theorem Measures.remove (lost : ℕ) (h : a.Measures l) :
    Measures ⟨Ownership.remove a.objects x, lost⟩ (Ownership.remove l x) := by
  intro y
  by_cases hyx : y = x
  · subst hyx
    simp [remove_self]
  · simp only [remove_of_ne hyx]
    exact h y

theorem construct_measures {e : List (Option α)} (hl : a.Measures l) (hx : l x = none)
    (hs : s.size = e.length) :
    ∃ a', a.construct x s = some a' ∧ a'.Measures (Ownership.put l x (some e)) := by
  refine ⟨_, ?_, hl.put_some a.lost hs⟩
  simp [construct, hl.absent hx]

theorem change_measures {f : Sequence α → Option (Sequence α)} {e e' : List (Option α)}
    (hl : a.Measures l) (hx : l x = some (some e))
    (hf : ∀ s, s.size = e.length → ∃ s', f s = some s' ∧ s'.size = e'.length) :
    ∃ a', a.change x f = some a' ∧ a'.Measures (Ownership.put l x (some e')) := by
  obtain ⟨s, hs, hsize⟩ := hl.object hx
  obtain ⟨s', hf, hsize'⟩ := hf s hsize
  refine ⟨_, ?_, hl.put_some a.lost hsize'⟩
  simp [change, hs, hf]

theorem step_of_lists (hl : a.Measures l) (h : l.Step call l') :
    ∃ a', a.step call = some a' ∧ a'.Measures l' := by
  cases h with
  | default hx => exact construct_measures hl hx rfl
  | sized hx => exact construct_measures hl hx (by simp [Sequence.uninitialized])
  | filled hx => exact construct_measures hl hx rfl
  | @copied x y i j new e hx hy hij hj =>
    obtain ⟨s, hs, hsize⟩ := hl.object hy
    simp only [step, hs, hsize, hij, hj, and_self, if_true]
    apply construct_measures hl hx
    simp [Sequence.slice, Sequence.all, s.length_contents, hsize]
  | @moved x y e hx hy =>
    obtain ⟨s, hs, hsize⟩ := hl.object hy
    refine ⟨_, ?_, (hl.put_some a.lost hsize).put_some (s := .uninitialized 0) a.lost rfl⟩
    simp only [step, hl.absent hx, hs]
  | moveAssign_self hx =>
    obtain ⟨s, hs, -⟩ := hl.object hx
    exact ⟨a, by simp [step, hs], hl⟩
  | @moveAssign x y o e hxy hx hy =>
    obtain ⟨p, hp⟩ := hl.present hx
    obtain ⟨s, hs, hsize⟩ := hl.object hy
    refine ⟨_, ?_, (hl.put_some a.lost hsize).put_some (s := .uninitialized 0) a.lost rfl⟩
    simp only [step, hp, hs, if_neg hxy]
  | @reserve x n new e hx =>
    apply change_measures hl hx
    intro s hs
    exact ⟨_, rfl, (s.size_reserve n).trans hs⟩
  | @resize x n new e e' hx hlen hkeep =>
    apply change_measures hl hx
    intro s hs
    exact ⟨_, rfl, hlen.symm⟩
  | pushBack hx =>
    apply change_measures hl hx
    intro s hs
    refine ⟨_, rfl, ?_⟩
    simp [Sequence.pushBack, hs]
  | assign hx hn =>
    apply change_measures hl hx
    intro s hs
    refine ⟨_, if_pos (hs.symm ▸ hn), ?_⟩
    simp [Sequence.assign, hs]
  | fill hx =>
    apply change_measures hl hx
    intro s hs
    refine ⟨_, rfl, ?_⟩
    simp [Sequence.fill, hs]
  | clear hx =>
    apply change_measures hl hx
    intro s hs
    exact ⟨_, rfl, rfl⟩
  | swap_self hx =>
    obtain ⟨s, hs, -⟩ := hl.object hx
    exact ⟨a, by simp [step, hs], hl⟩
  | @swap x y e e' hxy hx hy =>
    obtain ⟨s, hs, hsize⟩ := hl.object hx
    obtain ⟨t, ht, hsize'⟩ := hl.object hy
    refine ⟨_, ?_, (hl.put_some a.lost hsize').put_some a.lost hsize⟩
    simp only [step, hs, ht, if_neg hxy]
  | leak hx =>
    obtain ⟨s, hs, -⟩ := hl.object hx
    refine ⟨_, ?_, hl.put none (a.lost + 1) rfl⟩
    simp only [step, hs]
  | @destroy x o hx =>
    obtain ⟨p, hp⟩ := hl.present hx
    refine ⟨_, ?_, hl.remove a.lost⟩
    simp only [step, hp]

end Sequences

namespace VectorHeap

variable {α : Type} {T : ElementType} {w : VectorHeap α} {a : Sequences α} {l : VectorLists α}
  {calls : List (VectorCall α)}

structure ReadsAs (w : VectorHeap α) (l : VectorLists α) : Prop where
  live : ∀ x, w.live x = none ↔ l x = none
  elements : ∀ x e, l x = some (some e) → ∃ v, w.live x = some v ∧ v.size = e.length ∧
    v.size ≤ v.capacity ∧ ∀ i < e.length, v.read w.heap i = e[i]?

theorem Related.readsAs (hr : Related T w a) : w.ReadsAs a.lists := by
  constructor
  · intro x
    rcases hr.objects x with ⟨hw, ha⟩ | ⟨v, o, hw, ha, -, -⟩
    · simp [hw, Sequences.lists, ha]
    · simp [hw, Sequences.lists, ha]
  · intro x e hx
    obtain ⟨o, ho, he⟩ := Option.map_eq_some_iff.mp hx
    obtain ⟨s, rfl, rfl⟩ := Option.map_eq_some_iff.mp he
    obtain ⟨v, hv, ht, hhold⟩ := hr.object ho
    rw [s.length_contents]
    refine ⟨v, hv, hhold.size_eq ht, ?_, fun i hi => hhold.read_eq ht hi⟩
    rw [hhold.size_eq ht, hhold.capacity_eq ht]
    exact s.size_le

/-- Calls that can be made on lists make no undefined access in memory, whatever addresses the
allocator answers with, and leave vectors that read as lists those calls can lead to. -/
theorem lists_run (hans : Refinement.Answered (step T) (Answered T) nothing calls)
    (h : Runs.History VectorLists.Step (fun _ => none) calls l) :
    ∃ w l', Runs.run (step T) nothing calls = some w ∧
      Runs.History VectorLists.Step (fun _ => none) calls l' ∧ w.ReadsAs l' := by
  have hmeasures : Sequences.nothing.Measures (fun _ => none : VectorLists α) := fun x => rfl
  have hstep : ∀ (a : Sequences α) call l l', a.Measures l → VectorLists.Step l call l' →
      ∃ a', a.step call = some a' ∧ a'.Measures l' :=
    fun _ _ _ _ hl hs => Sequences.step_of_lists hl hs
  obtain ⟨a, ha, -⟩ := Refinement.run_of_history hstep hmeasures h
  obtain ⟨w, hw, hr⟩ := run_related hans ha
  have hlists : ∀ (a : Sequences α) call a', a.step call = some a' →
      VectorLists.Step a.lists call a'.lists := fun _ _ _ hs => Sequences.step_lists hs
  have hhistory := Refinement.history_of_run hlists .refl ha
  exact ⟨w, a.lists, hw, hhistory, hr.readsAs⟩

theorem lists_run_pushed : ∃ w l,
    Runs.run (step intType) nothing [.default 0, .pushBack 0 7 4096, .pushBack 0 8 8192] = some w ∧
      Runs.History VectorLists.Step (fun _ => none)
        [.default 0, .pushBack 0 7 4096, .pushBack 0 8 8192] l ∧ w.ReadsAs l := by
  have hans : Refinement.Answered (step intType) (Answered intType) (nothing : VectorHeap ℕ)
      [.default 0, .pushBack 0 7 4096, .pushBack 0 8 8192] := by
    refine ⟨fun n new h => ?_, fun t ht => ?_⟩
    · cases h
    cases ht
    refine ⟨fun n new h => ?_, fun t ht => ?_⟩
    · cases h
      decide
    cases ht
    refine ⟨fun n new h => ?_, fun t ht => trivial⟩
    cases h
    decide
  have hempty : Runs.History VectorLists.Step (fun _ => none : VectorLists ℕ) [.default 0] _ :=
    .tail .refl (.default rfl)
  have hone : Runs.History VectorLists.Step (fun _ => none : VectorLists ℕ)
      [.default 0, .pushBack 0 7 4096] _ := .tail hempty (.pushBack put_self)
  exact lists_run hans (.tail hone (.pushBack put_self))

end VectorHeap

end PickleDevice
