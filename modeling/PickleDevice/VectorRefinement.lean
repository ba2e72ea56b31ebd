import PickleDevice.VectorContents

/-!
Vectors as lists: what each operation does to the elements, apart from where
they are, and that the vectors in memory follow it without an undefined access.
-/

namespace PickleDevice

open Blocks Ownership

/-- A list of elements in a longer row of cells; a cell never written has no value. -/
structure Sequence (α : Type) where
  cells : List (Option α)
  size : ℕ
  size_le : size ≤ cells.length

namespace Sequence

variable {α : Type}

def contents (s : Sequence α) : List (Option α) := s.cells.take s.size

def uninitialized (n : ℕ) : Sequence α := ⟨List.replicate n none, n, by simp⟩

def all (l : List (Option α)) : Sequence α := ⟨l, l.length, Nat.le_refl _⟩

def reserve (s : Sequence α) (n : ℕ) : Sequence α :=
  if s.cells.length < n then
    ⟨s.contents ++ List.replicate (n - s.size) none, s.size, by
      have := s.size_le
      simp [contents]
      omega⟩
  else s

theorem length_reserve (s : Sequence α) (n : ℕ) :
    (s.reserve n).cells.length = max s.cells.length n := by
  have := s.size_le
  unfold reserve
  split
  · simp [contents]
    omega
  · omega

theorem size_reserve (s : Sequence α) (n : ℕ) : (s.reserve n).size = s.size := by
  unfold reserve
  split <;> rfl

def resize (s : Sequence α) (n : ℕ) : Sequence α :=
  ⟨(s.reserve n).cells, n, by rw [length_reserve]; omega⟩

def grown (s : Sequence α) : Sequence α :=
  if s.size = s.cells.length then
    s.reserve (if s.cells.length = 0 then 1 else s.cells.length * PVector.growthFactor)
  else s

theorem size_grown (s : Sequence α) : s.grown.size = s.size := by
  unfold grown
  split
  · exact size_reserve s _
  · rfl

theorem size_lt_grown (s : Sequence α) : s.size < s.grown.cells.length := by
  have := s.size_le
  unfold grown PVector.growthFactor
  split
  · rw [length_reserve]
    split <;> omega
  · omega

def pushBack (s : Sequence α) (x : α) : Sequence α :=
  ⟨s.grown.cells.set s.size (some x), s.size + 1, by
    rw [List.length_set]
    exact s.size_lt_grown⟩

def assign (s : Sequence α) (i : ℕ) (x : α) : Sequence α :=
  ⟨s.cells.set i (some x), s.size, by
    rw [List.length_set]
    exact s.size_le⟩

def fill (s : Sequence α) (x : α) : Sequence α :=
  ⟨List.replicate s.size (some x) ++ s.cells.drop s.size, s.size, by simp⟩

def clear (s : Sequence α) : Sequence α := ⟨s.cells, 0, Nat.zero_le _⟩

def slice (s : Sequence α) (i j : ℕ) : Sequence α := all ((s.contents.take j).drop i)

theorem length_contents (s : Sequence α) : s.contents.length = s.size := by
  have := s.size_le
  simp [contents]
  omega

theorem contents_reserve (s : Sequence α) (n : ℕ) : (s.reserve n).contents = s.contents := by
  have := s.size_le
  unfold reserve
  split
  · simp [contents, this]
  · rfl

theorem contents_grown (s : Sequence α) : s.grown.contents = s.contents := by
  unfold grown
  split
  · exact contents_reserve s _
  · rfl

theorem contents_pushBack (s : Sequence α) (x : α) :
    (s.pushBack x).contents = s.contents ++ [some x] := by
  have hlt := s.size_lt_grown
  have hgrown := s.contents_grown
  simp only [contents, size_grown] at hgrown
  simp only [contents, pushBack]
  rw [List.take_add_one, List.take_set_of_le (Nat.le_refl _), hgrown, List.getElem?_set_self hlt]
  rfl

theorem contents_assign (s : Sequence α) {i : ℕ} (x : α) :
    (s.assign i x).contents = s.contents.set i (some x) := by
  simp only [contents, assign, List.take_set]

theorem contents_fill (s : Sequence α) (x : α) :
    (s.fill x).contents = List.replicate s.size (some x) := by
  simp [contents, fill]

theorem contents_clear (s : Sequence α) : s.clear.contents = [] := by simp [contents, clear]

/-- The elements that stay; what else `resize` leaves is whatever the cells held. -/
theorem contents_resize (s : Sequence α) (n : ℕ) :
    (s.resize n).contents.take s.size = s.contents.take n := by
  have hreserve := s.contents_reserve n
  rw [contents, size_reserve] at hreserve
  rw [← hreserve]
  simp only [contents, resize, List.take_take, Nat.min_comm]

theorem getElem?_reserve (s : Sequence α) {n i : ℕ} (h : s.cells.length < n) (hi : i < n) :
    (s.reserve n).cells[i]? = if i < s.size then s.cells[i]? else some none := by
  have hlen := s.length_contents
  simp only [reserve, if_pos h]
  split
  case isTrue hs =>
    rw [List.getElem?_append_left (by omega), contents, List.getElem?_take_of_lt hs]
  case isFalse hs =>
    rw [List.getElem?_append_right (by omega), List.getElem?_replicate, if_pos (by omega)]

theorem all_replicate (n : ℕ) : all (List.replicate n (none : Option α)) = uninitialized n := by
  simp [all, uninitialized]

theorem contents_all (l : List (Option α)) : (all l).contents = l := List.take_length

end Sequence

namespace VectorCall

variable {α : Type}

def names : VectorCall α → List ℕ
  | .default x => [x]
  | .sized x _ _ => [x]
  | .filled x _ _ _ => [x]
  | .copied x y _ _ _ => [x, y]
  | .moved x y => [x, y]
  | .moveAssign x y => [x, y]
  | .reserve x _ _ => [x]
  | .resize x _ _ => [x]
  | .pushBack x _ _ => [x]
  | .assign x _ _ => [x]
  | .fill x _ => [x]
  | .clear x => [x]
  | .swap x y => [x, y]
  | .leak x => [x]
  | .destroy x => [x]

def isLeak : VectorCall α → Bool
  | .leak _ => true
  | _ => false

end VectorCall

/-- The vectors under their names, one whose storage was leaked without a list, and how often storage
was leaked. -/
structure Sequences (α : Type) where
  objects : Objects (Option (Sequence α))
  lost : ℕ

namespace Sequences

variable {α : Type}

def nothing : Sequences α := ⟨fun _ => none, 0⟩

def construct (a : Sequences α) (x : ℕ) (s : Sequence α) : Option (Sequences α) :=
  match a.objects x with
  | some _ => none
  | none => some { a with objects := put a.objects x (some s) }

def change (a : Sequences α) (x : ℕ) (f : Sequence α → Option (Sequence α)) :
    Option (Sequences α) :=
  match a.objects x with
  | some (some s) => (f s).map fun s => { a with objects := put a.objects x (some s) }
  | _ => none

/-- A vector whose storage was leaked can only be assigned to, or destroyed. -/
def step (a : Sequences α) : VectorCall α → Option (Sequences α)
  | .default x => a.construct x (.uninitialized 0)
  | .sized x n _ => a.construct x (.uninitialized n)
  | .filled x n initVal _ => a.construct x (.all (List.replicate n (some initVal)))
  | .copied x y i j _ =>
    match a.objects y with
    | some (some s) => if i ≤ j ∧ j ≤ s.size then a.construct x (s.slice i j) else none
    | _ => none
  | .moved x y =>
    match a.objects x, a.objects y with
    | none, some (some s) =>
      some { a with objects := put (put a.objects x (some s)) y (some (.uninitialized 0)) }
    | _, _ => none
  | .moveAssign x y =>
    match a.objects x, a.objects y with
    | some _, some (some s) =>
      if x = y then some a
      else some { a with objects := put (put a.objects x (some s)) y (some (.uninitialized 0)) }
    | _, _ => none
  | .reserve x n _ => a.change x fun s => some (s.reserve n)
  | .resize x n _ => a.change x fun s => some (s.resize n)
  | .pushBack x val _ => a.change x fun s => some (s.pushBack val)
  | .assign x n val => a.change x fun s => if n < s.size then some (s.assign n val) else none
  | .fill x initVal => a.change x fun s => some (s.fill initVal)
  | .clear x => a.change x fun s => some s.clear
  | .swap x y =>
    match a.objects x, a.objects y with
    | some (some s), some (some t) =>
      if x = y then some a
      else some { a with objects := put (put a.objects x (some t)) y (some s) }
    | _, _ => none
  | .leak x =>
    match a.objects x with
    | some (some _) => some ⟨put a.objects x none, a.lost + 1⟩
    | _ => none
  | .destroy x =>
    match a.objects x with
    | some _ => some { a with objects := remove a.objects x }
    | none => none

variable {a a' : Sequences α} {y : ℕ} {s : Sequence α} {call : VectorCall α}

theorem construct_effect (h : a.construct y s = some a') :
    (∀ x, x ≠ y → a'.objects x = a.objects x) ∧ a'.lost = a.lost := by
  unfold construct at h
  split at h <;> cases h
  exact ⟨fun x hx => put_of_ne hx, rfl⟩

theorem change_effect {f : Sequence α → Option (Sequence α)} (h : a.change y f = some a') :
    (∀ x, x ≠ y → a'.objects x = a.objects x) ∧ a'.lost = a.lost := by
  unfold change at h
  split at h
  · obtain ⟨s, -, rfl⟩ := Option.map_eq_some_iff.mp h
    exact ⟨fun x hx => put_of_ne hx, rfl⟩
  · cases h

theorem step_copied {z i j : ℕ} {new : ℤ} (h : a.step (.copied y z i j new) = some a') :
    ∃ s, a.objects z = some (some s) ∧ i ≤ j ∧ j ≤ s.size ∧
      a.construct y (s.slice i j) = some a' := by
  simp only [step] at h
  split at h
  case h_1 s hz =>
    split_ifs at h with hij
    exact ⟨s, hz, hij.1, hij.2, h⟩
  case h_2 => cases h

theorem step_moved {z : ℕ} (h : a.step (.moved y z) = some a') :
    ∃ s, a.objects y = none ∧ a.objects z = some (some s) ∧
      a' = { a with objects := put (put a.objects y (some s)) z (some (.uninitialized 0)) } := by
  simp only [step] at h
  split at h
  case h_1 s hy hz =>
    cases h
    exact ⟨s, hy, hz, rfl⟩
  case h_2 => cases h

theorem step_moveAssign {z : ℕ} (h : a.step (.moveAssign y z) = some a') :
    ∃ o s, a.objects y = some o ∧ a.objects z = some (some s) ∧ (y = z ∧ a' = a ∨ y ≠ z ∧
      a' = { a with objects := put (put a.objects y (some s)) z (some (.uninitialized 0)) }) := by
  simp only [step] at h
  split at h
  case h_1 o s hy hz =>
    split_ifs at h with hyz
    · cases h
      exact ⟨o, s, hy, hz, Or.inl ⟨hyz, rfl⟩⟩
    · cases h
      exact ⟨o, s, hy, hz, Or.inr ⟨hyz, rfl⟩⟩
  case h_2 => cases h

theorem step_swap {z : ℕ} (h : a.step (.swap y z) = some a') :
    ∃ s t, a.objects y = some (some s) ∧ a.objects z = some (some t) ∧ (y = z ∧ a' = a ∨ y ≠ z ∧
      a' = { a with objects := put (put a.objects y (some t)) z (some s) }) := by
  simp only [step] at h
  split at h
  case h_1 s t hy hz =>
    split_ifs at h with hyz
    · cases h
      exact ⟨s, t, hy, hz, Or.inl ⟨hyz, rfl⟩⟩
    · cases h
      exact ⟨s, t, hy, hz, Or.inr ⟨hyz, rfl⟩⟩
  case h_2 => cases h

theorem step_leak (h : a.step (.leak y) = some a') :
    ∃ s, a.objects y = some (some s) ∧ a' = ⟨put a.objects y none, a.lost + 1⟩ := by
  simp only [step] at h
  split at h
  case h_1 s hy =>
    cases h
    exact ⟨s, hy, rfl⟩
  case h_2 => cases h

theorem step_destroy (h : a.step (.destroy y) = some a') :
    ∃ o, a.objects y = some o ∧ a' = { a with objects := remove a.objects y } := by
  simp only [step] at h
  split at h
  case h_1 o hy =>
    cases h
    exact ⟨o, hy, rfl⟩
  case h_2 => cases h

theorem step_effect (h : a.step call = some a') :
    (∀ x, x ∉ call.names → a'.objects x = a.objects x) ∧
      a'.lost = a.lost + [call].countP VectorCall.isLeak := by
  -- most calls are on one vector, and leak nothing
  have hone : ∀ y, call.names = [y] → call.isLeak = false →
      (∀ x, x ≠ y → a'.objects x = a.objects x) ∧ a'.lost = a.lost →
      (∀ x, x ∉ call.names → a'.objects x = a.objects x) ∧
        a'.lost = a.lost + [call].countP VectorCall.isLeak := by
    rintro y hnames hleak ⟨hother, hlost⟩
    refine ⟨fun x hx => hother x ?_, ?_⟩
    · rintro rfl
      exact hx (hnames ▸ List.mem_singleton_self x)
    · simp [hleak, hlost]
  have htwo : ∀ {x y z : ℕ} {o p : Option (Sequence α)}, z ∉ [x, y] →
      put (put a.objects x o) y p z = a.objects z := by
    intro x y z o p hz
    rw [put_of_ne fun hzy => hz (by simp [hzy]), put_of_ne fun hzx => hz (by simp [hzx])]
  cases call with
  | default y => exact hone y rfl rfl (construct_effect h)
  | sized y n new => exact hone y rfl rfl (construct_effect h)
  | filled y n val new => exact hone y rfl rfl (construct_effect h)
  | copied y z i j new =>
    obtain ⟨s, -, -, -, hconstruct⟩ := step_copied h
    obtain ⟨hother, hlost⟩ := construct_effect hconstruct
    exact ⟨fun x hx => hother x (List.ne_of_not_mem_cons hx), hlost⟩
  | moved y z =>
    obtain ⟨s, -, -, rfl⟩ := step_moved h
    exact ⟨fun x hx => htwo hx, rfl⟩
  | moveAssign y z =>
    obtain ⟨o, s, -, -, ⟨-, rfl⟩ | ⟨-, rfl⟩⟩ := step_moveAssign h
    · exact ⟨fun x hx => rfl, rfl⟩
    · exact ⟨fun x hx => htwo hx, rfl⟩
  | reserve y n new => exact hone y rfl rfl (change_effect h)
  | resize y n new => exact hone y rfl rfl (change_effect h)
  | pushBack y val new => exact hone y rfl rfl (change_effect h)
  | assign y n val => exact hone y rfl rfl (change_effect h)
  | fill y val => exact hone y rfl rfl (change_effect h)
  | clear y => exact hone y rfl rfl (change_effect h)
  | swap y z =>
    obtain ⟨s, t, -, -, ⟨-, rfl⟩ | ⟨-, rfl⟩⟩ := step_swap h
    · exact ⟨fun x hx => rfl, rfl⟩
    · exact ⟨fun x hx => htwo hx, rfl⟩
  | leak y =>
    obtain ⟨s, -, rfl⟩ := step_leak h
    exact ⟨fun x hx => put_of_ne (List.ne_of_not_mem_cons hx), rfl⟩
  | destroy y =>
    obtain ⟨o, -, rfl⟩ := step_destroy h
    exact ⟨fun x hx => remove_of_ne (List.ne_of_not_mem_cons hx), rfl⟩

end Sequences

namespace VectorHeap

variable {α : Type} {T : ElementType} {h h' : Heap α} {v u v' : PVector} {s t : Sequence α}
  {o : Option (Sequence α)} {w w' : VectorHeap α} {a a' : Sequences α} {x y n i : ℕ} {new : ℤ}
  {B C : List Block} {b : Block}

def blocks (v : PVector) : List Block := if v.start = 0 then [] else [⟨v.start, v.capacity⟩]

inductive Holds (T : ElementType) (h : Heap α) (v : PVector) : Option (Sequence α) → Prop
  | leaked (hs : v.start = 0) : Holds T h v none
  | empty (s : Sequence α) (hs : v.start = 0) (he : v.endSize = 0) (hc : v.endCapacity = 0)
      (hnil : s.cells = []) : Holds T h v (some s)
  | block (s : Sequence α) (hs : 0 < v.start) (hlive : ⟨v.start, s.cells.length⟩ ∈ h.ledger.live)
      (he : v.endSize = T.add v.start s.size) (hc : v.endCapacity = T.add v.start s.cells.length)
      (hcells : ∀ i < s.cells.length, s.cells[i]? = some (h.cells (cell T.sizeof v.start i))) :
      Holds T h v (some s)

structure Related (T : ElementType) (w : VectorHeap α) (a : Sequences α) : Prop where
  sound : w.heap.Sound T.sizeof
  objects : ∀ x, w.live x = none ∧ a.objects x = none ∨
    ∃ v o, w.live x = some v ∧ a.objects x = some o ∧ v.elementType = T ∧ Holds T w.heap v o
  exclusive : Exclusive blocks w.live
  lost : ∃ l : List Block, l.Nodup ∧ l.length ≤ a.lost ∧ (∀ b ∈ l, ¬ Held blocks w.live b) ∧
    ∀ b, b ∈ w.heap.ledger.live ↔ Held blocks w.live b ∨ b ∈ l

theorem stride_pos (T : ElementType) : 0 < T.sizeof := T.sizeof_pos

theorem blocks_null (hs : v.start = 0) : blocks v = [] := if_pos hs

theorem blocks_block {c : ℕ} (hs : 0 < v.start) (ht : v.elementType = T)
    (hc : v.endCapacity = T.add v.start c) : blocks v = [⟨v.start, c⟩] := by
  subst ht
  rw [blocks, if_neg (Int.ne_of_gt hs), PVector.capacity_add hc]

theorem Holds.size_eq (hv : Holds T h v (some s)) (ht : v.elementType = T) : v.size = s.size := by
  subst ht
  cases hv with
  | empty _ hs he hc hnil =>
    have := s.size_le
    simp [hnil] at this
    simp [PVector.size, hs, he, this]
  | block _ hs hlive he hc hcells => exact PVector.size_add he

theorem Holds.capacity_eq (hv : Holds T h v (some s)) (ht : v.elementType = T) :
    v.capacity = s.cells.length := by
  subst ht
  cases hv with
  | empty _ hs he hc hnil => simp [PVector.capacity, hs, hc, hnil]
  | block _ hs hlive he hc hcells => exact PVector.capacity_add hc

theorem Holds.blocks_subset (hv : Holds T h v o) (ht : v.elementType = T) :
    blocks v ⊆ h.ledger.live := by
  cases hv with
  | leaked hs => simp [blocks_null hs]
  | empty s hs => simp [blocks_null hs]
  | block s hs hlive he hc hcells =>
    rw [blocks_block hs ht hc]
    simpa using hlive

theorem Holds.frame (hv : Holds T h v o) (ht : v.elementType = T)
    (hr : Heap.Replaced T.sizeof B C h h') (hB : B.Disjoint (blocks v)) : Holds T h' v o := by
  cases hv with
  | leaked hs => exact .leaked hs
  | empty s hs he hc hnil => exact .empty s hs he hc hnil
  | block s hs hlive he hc hcells =>
    rw [blocks_block hs ht hc] at hB
    have hnot : (⟨v.start, s.cells.length⟩ : Block) ∉ B := fun hb => hB hb (by simp)
    refine .block s hs (hr.mem hlive hnot).1 he hc fun i hi => ?_
    rw [hcells i hi, hr.keep _ hlive hnot i hi]

/-- The rule for a call on one vector, new or not: its blocks `B` are replaced, and it holds its new
list. -/
theorem Related.replace (hr : Related T w a)
    (hB : w.live x = none ∧ B = [] ∨ ∃ v, w.live x = some v ∧ B = blocks v)
    (hh : Heap.Replaced T.sizeof B (blocks v') w.heap h') (ht : v'.elementType = T)
    (hv : Holds T h' v' o) :
    Related T ⟨h', put w.live x v'⟩ { a with objects := put a.objects x o } := by
  obtain ⟨l, hl, hle, hfree, hlive⟩ := hr.lost
  have hheld : ∀ b, b ∈ B → Held blocks w.live b := by
    intro b hb
    rcases hB with ⟨-, rfl⟩ | ⟨v, hv, rfl⟩
    · cases hb
    · exact ⟨x, v, hv, hb⟩
  have hother : ∀ y u, y ≠ x → w.live y = some u → B.Disjoint (blocks u) := by
    intro y u hyx hu
    rcases hB with ⟨-, rfl⟩ | ⟨v, hv, rfl⟩
    · exact List.disjoint_nil_left _
    · exact hr.exclusive x y v u hyx.symm hv hu
  -- the new block is the old one, or was not live
  have hnew : ∀ b ∈ blocks v', ∀ y u, y ≠ x → w.live y = some u → b ∉ blocks u := by
    intro b hb y u hyx hu hbu
    rcases hh.fresh b hb with hbB | hdead
    · exact hother y u hyx hu hbB hbu
    · exact hdead ((hlive b).mpr (Or.inl ⟨y, u, hu, hbu⟩))
  constructor
  · exact hh.sound
  · intro y
    by_cases hyx : y = x
    · subst hyx
      exact Or.inr ⟨v', o, put_self, put_self, ht, hv⟩
    · simp only [put_of_ne hyx]
      rcases hr.objects y with hnone | ⟨u, p, hu, hp, htu, hhold⟩
      · exact Or.inl hnone
      · exact Or.inr ⟨u, p, hu, hp, htu, hhold.frame htu hh (hother y u hyx hu)⟩
  · apply hr.exclusive.put
    intro y u hyx hu b hb hbu
    exact hnew b hb y u hyx hu hbu
  · have hput : ∀ b, Held blocks (put w.live x v') b ↔
        b ∈ blocks v' ∨ Held blocks w.live b ∧ b ∉ B := by
      intro b
      constructor
      · rintro ⟨y, u, hy, hb⟩
        rcases put_cases hy with ⟨-, rfl⟩ | ⟨hyx, hy⟩
        · exact Or.inl hb
        · exact Or.inr ⟨⟨y, u, hy, hb⟩, fun hbB => hother y u hyx hy hbB hb⟩
      · rintro (hb | ⟨⟨y, u, hy, hb⟩, hnB⟩)
        · exact ⟨x, v', put_self, hb⟩
        · have hyx : y ≠ x := by
            rintro rfl
            rcases hB with ⟨hnone, -⟩ | ⟨v, hv, rfl⟩
            · cases hnone.symm.trans hy
            · cases hv.symm.trans hy
              exact hnB hb
          exact ⟨y, u, (put_of_ne hyx).trans hy, hb⟩
    refine ⟨l, hl, hle, fun b hb => ?_, fun b => ?_⟩
    · rw [hput b, not_or]
      refine ⟨fun hbv => ?_, fun hbh => hfree b hb hbh.1⟩
      rcases hh.fresh b hbv with hbB | hdead
      · exact hfree b hb (hheld b hbB)
      · exact hdead ((hlive b).mpr (Or.inr hb))
    · rw [hh.live b, hput b, hlive b]
      constructor
      · rintro (⟨hh | hbl, hnB⟩ | hbv)
        · exact Or.inl (Or.inr ⟨hh, hnB⟩)
        · exact Or.inr hbl
        · exact Or.inl (Or.inl hbv)
      · rintro ((hbv | ⟨hh, hnB⟩) | hbl)
        · exact Or.inr hbv
        · exact Or.inl ⟨Or.inl hh, hnB⟩
        · exact Or.inl ⟨Or.inr hbl, fun hbB => hfree b hbl (hheld b hbB)⟩

theorem Holds.withSize {m : ℕ} (hv : Holds T h v (some s)) (ht : v.elementType = T)
    (hm : m ≤ s.cells.length) :
    Holds T h { v with endSize := v.elementType.add v.start m } (some ⟨s.cells, m, hm⟩) := by
  subst ht
  cases hv with
  | empty _ hs he hc hnil =>
    have hm0 : m = 0 := by simpa [hnil] using hm
    exact .empty _ hs (by simp [hs, hm0]) hc hnil
  | block _ hs hlive he hc hcells => exact .block _ hs hlive rfl hc hcells

theorem newArray_spec (hh : h.Sound T.sizeof) (hans : PVector.CanAnswer T h n new) :
    PVector.newArray T h n new = some (h.alloc T.sizeof ⟨new, n⟩) ∧
      Heap.Replaced T.sizeof [] [⟨new, n⟩] h (h.alloc T.sizeof ⟨new, n⟩) :=
  ⟨if_pos hans, .alloc (stride_pos T) hh hans.2⟩

theorem release_spec (hv : Holds T h v o) (ht : v.elementType = T) (hh : h.Sound T.sizeof) :
    ∃ h', v.releaseCells h = some h' ∧ Heap.Replaced T.sizeof (blocks v) [] h h' := by
  have hnull : v.start = 0 → ∃ h', v.releaseCells h = some h' ∧
      Heap.Replaced T.sizeof (blocks v) [] h h' := by
    intro hs
    refine ⟨h, by rw [PVector.releaseCells, hs]; rfl, ?_⟩
    rw [blocks_null hs]
    exact .refl hh (by simp)
  cases hv with
  | leaked hs => exact hnull hs
  | empty _ hs => exact hnull hs
  | block _ hs hlive he hc hcells =>
    rw [blocks_block hs ht hc]
    exact ⟨_, Heap.free_eq_some hh hlive (Int.ne_of_gt hs), .release hh hlive⟩

theorem Holds.copied (hv : Holds T h v (some s)) (hh : h.Sound T.sizeof)
    (hn : s.cells.length < n) (hans : PVector.CanAnswer T h n new) :
    ∃ h', (h.alloc T.sizeof ⟨new, n⟩).copy T.sizeof new v.start s.size = some h' ∧
      Heap.Changes T.sizeof ⟨new, n⟩ (h.alloc T.sizeof ⟨new, n⟩) h' ∧
      ∀ i < n, (s.reserve n).cells[i]? = some (h'.cells (cell T.sizeof new i)) := by
  obtain ⟨-, halloc⟩ := newArray_spec hh hans
  have hlive : (⟨new, n⟩ : Block) ∈ (h.alloc T.sizeof ⟨new, n⟩).ledger.live :=
    (halloc.live _).mpr (Or.inr (by simp))
  have hle := s.size_le
  cases hv with
  | empty _ hs he hc hnil =>
    have hzero : s.size = 0 := by simpa [hnil] using hle
    refine ⟨_, by rw [hzero]; rfl, .refl, fun i hi => ?_⟩
    rw [s.getElem?_reserve hn hi, if_neg (by omega)]
    exact congrArg some (Heap.alloc_cells_new hi).symm
  | block _ hs hold he hc hcells =>
    have hapart := hans.2 _ hold
    obtain ⟨h', hcopy, hchg, hcells'⟩ := Heap.copy_spec (j := 0) (n := s.size) (stride_pos T) hlive
      (by simp only; omega) (halloc.mem hold (by simp)).1 hapart.symm (by simp only; omega)
    refine ⟨h', ?_, hchg, fun i hi => ?_⟩
    · simpa [cell] using hcopy
    · rw [s.getElem?_reserve hn hi, hcells' i hi, Nat.zero_add]
      split
      case isTrue his =>
        have hic : i < s.cells.length := by omega
        rw [hcells i hic, Heap.alloc_cells_old (stride_pos T) hapart hic]
      case isFalse => exact congrArg some (Heap.alloc_cells_new hi).symm

theorem reserve_spec (hv : Holds T h v (some s)) (ht : v.elementType = T) (hh : h.Sound T.sizeof)
    (hans : v.capacity < n → PVector.CanAnswer T h n new) :
    ∃ h', v.reserveCells h n new = some h' ∧
      Heap.Replaced T.sizeof (blocks v) (blocks (v.reserve n new)) h h' ∧
      Holds T h' (v.reserve n new) (some (s.reserve n)) := by
  have hcap := hv.capacity_eq ht
  have hsize := hv.size_eq ht
  by_cases hn : v.capacity < n
  · obtain ⟨hnew, halloc⟩ := newArray_spec hh (hans hn)
    have hlive : (⟨new, n⟩ : Block) ∈ (h.alloc T.sizeof ⟨new, n⟩).ledger.live :=
      (halloc.live _).mpr (Or.inr (by simp))
    -- the new array is filled beside the old one, which is then released
    obtain ⟨h₂, hcopy, hchg, hcells⟩ := hv.copied hh (hcap ▸ hn) (hans hn)
    have hbeside := halloc.trans (hchg.replaced (stride_pos T) halloc.sound hlive)
    have hold := hv.frame ht hbeside (List.disjoint_nil_left _)
    obtain ⟨h₃, hrelease, hreleased⟩ := release_spec hold ht hbeside.sound
    have hfree : h₂.free v.start = some h₃ := hrelease
    have hrep := hbeside.drop hreleased (hv.blocks_subset ht)
    have hlen : (s.reserve n).cells.length = n := by
      rw [s.length_reserve]
      omega
    have hblocks : blocks (v.reserve n new) = [⟨new, n⟩] := by
      rw [PVector.reserve, if_pos hn]
      exact blocks_block (hans hn).1.1 ht (by rw [ht])
    refine ⟨h₃, ?_, hblocks ▸ hrep, ?_⟩
    · rw [PVector.reserveCells, if_pos hn, ht, hnew, hsize]
      simpa [hcopy] using hfree
    · rw [PVector.reserve, if_pos hn, ht, hsize]
      refine .block _ (hans hn).1.1 ?_ ?_ ?_ ?_
      · rw [hlen]
        exact (hrep.live _).mpr (Or.inr (by simp))
      · rw [s.size_reserve]
      · rw [hlen]
      · rw [hlen, Heap.free_cells hfree]
        exact hcells
  · have hs : s.reserve n = s := by
      rw [Sequence.reserve, if_neg (by omega)]
    rw [PVector.reserveCells, if_neg hn, PVector.reserve, if_neg hn, hs]
    exact ⟨h, rfl, .refl hh (hv.blocks_subset ht), hv⟩

theorem assign_spec (val : α) (hv : Holds T h v (some s)) (ht : v.elementType = T)
    (hh : h.Sound T.sizeof) (hi : i < s.cells.length) :
    ∃ h', h.store T.sizeof (T.add v.start i) (some val) = some h' ∧
      Heap.Replaced T.sizeof (blocks v) (blocks v) h h' ∧ Holds T h' v (some (s.assign i val)) := by
  cases hv with
  | empty _ hs he hc hnil => simp [hnil] at hi
  | block _ hs hlive he hc hcells =>
    obtain ⟨h', hstore, hchg, hcells'⟩ := Heap.store_spec (o := some val) hlive hi
    refine ⟨h', hstore, ?_, ?_⟩
    · rw [blocks_block hs ht hc]
      exact hchg.replaced (stride_pos T) hh hlive
    · have hlen : (s.assign i val).cells.length = s.cells.length := List.length_set
      refine .block _ hs ?_ he ?_ ?_
      · rw [hlen, hchg.ledger]
        exact hlive
      · rw [hlen]
        exact hc
      · rw [hlen]
        intro j hj
        rw [hcells', Sequence.assign, List.getElem?_set]
        by_cases hij : i = j
        · subst hij
          simp [hj]
        · rw [if_neg hij, Function.update_of_ne fun hcell => hij (cell_inj (stride_pos T) hcell).symm,
            hcells j hj]

theorem fill_spec {val : α} (hv : Holds T h v (some s)) (ht : v.elementType = T)
    (hh : h.Sound T.sizeof) :
    ∃ h', v.fillCells h val = some h' ∧ Heap.Replaced T.sizeof (blocks v) (blocks v) h h' ∧
      Holds T h' v (some (s.fill val)) := by
  have hsize := hv.size_eq ht
  have hle := s.size_le
  rw [PVector.fillCells, hsize, ht]
  cases hv with
  | empty _ hs he hc hnil =>
    have hzero : s.size = 0 := by simpa [hnil] using hle
    refine ⟨h, by rw [hzero]; rfl, .refl hh (by simp [blocks_null hs]), ?_⟩
    exact .empty _ hs he hc (by simp [Sequence.fill, hzero, hnil])
  | block _ hs hlive he hc hcells =>
    obtain ⟨h', hfill, hchg, hcells'⟩ :=
      Heap.fill_spec (n := s.size) (v := val) (stride_pos T) hlive hle
    refine ⟨h', hfill, ?_, ?_⟩
    · rw [blocks_block hs ht hc]
      exact hchg.replaced (stride_pos T) hh hlive
    · have hlen : (s.fill val).cells.length = s.cells.length := by
        simp [Sequence.fill]
        omega
      refine .block _ hs ?_ he ?_ ?_
      · rw [hlen, hchg.ledger]
        exact hlive
      · rw [hlen]
        exact hc
      · rw [hlen]
        intro j hj
        rw [hcells' j hj, Sequence.fill]
        split
        case isTrue hjs =>
          rw [List.getElem?_append_left (by simpa using hjs), List.getElem?_replicate, if_pos hjs]
        case isFalse hjs =>
          rw [List.getElem?_append_right (by simpa using hjs), List.getElem?_drop, hcells]
          · simp
            congr 2
            omega
          · simp
            omega

theorem pushBack_spec {val : α} (hv : Holds T h v (some s)) (ht : v.elementType = T)
    (hh : h.Sound T.sizeof)
    (hans : v.size = v.capacity → PVector.CanAnswer T h v.grownSize new) :
    ∃ h', v.pushBackCells h val new = some h' ∧
      Heap.Replaced T.sizeof (blocks v) (blocks (v.pushBack new)) h h' ∧
      Holds T h' (v.pushBack new) (some (s.pushBack val)) := by
  have hcap := hv.capacity_eq ht
  have hsize := hv.size_eq ht
  -- a vector with room for one more element takes it at its end
  have hroom : ∀ (k : Heap α) (u : PVector), Holds T k u (some s.grown) → u.elementType = T →
      k.Sound T.sizeof → ∃ h', k.store T.sizeof u.endSize (some val) = some h' ∧
        Heap.Replaced T.sizeof (blocks u) (blocks u) k h' ∧
        Holds T h' { u with endSize := u.elementType.add u.endSize 1 } (some (s.pushBack val)) := by
    intro k u hu htu hk
    have hend : u.endSize = T.add u.start s.size := by
      cases hu with
      | empty _ hs he hc hnil => simpa [hnil] using s.size_lt_grown
      | block _ hs hlive he hc hcells => rw [he, s.size_grown]
    obtain ⟨h', hstore, hrep, hholds⟩ := assign_spec val hu htu hk s.size_lt_grown
    refine ⟨h', hend ▸ hstore, hrep, ?_⟩
    have hm : s.size + 1 ≤ (s.grown.assign s.size val).cells.length := by
      rw [Sequence.assign, List.length_set]
      exact s.size_lt_grown
    have hnext : u.elementType.add u.endSize 1 = u.elementType.add u.start (s.size + 1 : ℕ) := by
      rw [hend, htu, ElementType.add_add]
      rfl
    rw [hnext]
    exact hholds.withSize htu hm
  unfold PVector.pushBackCells PVector.pushBack
  by_cases hfull : v.size = v.capacity
  · have hgrown : s.grown = s.reserve v.grownSize := by
      rw [Sequence.grown, if_pos (by omega), PVector.grownSize, hcap]
    obtain ⟨k, hk, hrep, hholds⟩ := reserve_spec hv ht hh fun _ => hans hfull
    have htu : (v.reserve v.grownSize new).elementType = T := by
      unfold PVector.reserve
      split <;> exact ht
    obtain ⟨h', hstore, hrep', hholds'⟩ := hroom k _ (hgrown ▸ hholds) htu hrep.sound
    refine ⟨h', ?_, ?_, ?_⟩
    · simp [hfull, hk, ht, hstore]
    · simp only [if_pos hfull]
      exact hrep.trans hrep'
    · simp only [if_pos hfull]
      exact hholds'
  · have hgrown : s.grown = s := by
      rw [Sequence.grown, if_neg (by omega)]
    obtain ⟨h', hstore, hrep, hholds⟩ := hroom h v (hgrown.symm ▸ hv) ht hh
    simp only [if_neg hfull]
    exact ⟨h', ht ▸ hstore, hrep, hholds⟩

theorem storage_spec (hh : h.Sound T.sizeof) (hans : PVector.CanAnswer T h n new)
    {l : List (Option α)} (hl : l.length = n)
    (hrep : Heap.Changes T.sizeof ⟨new, n⟩ (h.alloc T.sizeof ⟨new, n⟩) h')
    (hcells : ∀ i < n, l[i]? = some (h'.cells (cell T.sizeof new i))) :
    Heap.Replaced T.sizeof [] (blocks (.storage T n new)) h h' ∧
      Holds T h' (.storage T n new) (some (.all l)) := by
  obtain ⟨-, halloc⟩ := newArray_spec hh hans
  have hlive : (⟨new, n⟩ : Block) ∈ (h.alloc T.sizeof ⟨new, n⟩).ledger.live :=
    (halloc.live _).mpr (Or.inr (by simp))
  constructor
  · rw [blocks_block hans.1.1 rfl rfl]
    exact halloc.trans (hrep.replaced (stride_pos T) halloc.sound hlive)
  · subst hl
    refine .block _ hans.1.1 ?_ rfl rfl hcells
    rw [hrep.ledger]
    exact hlive

theorem filled_spec {val : α} (hh : h.Sound T.sizeof) (hans : PVector.CanAnswer T h n new) :
    ∃ h', PVector.filledCells T h n val new = some h' ∧
      Heap.Replaced T.sizeof [] (blocks (.storage T n new)) h h' ∧
      Holds T h' (.storage T n new) (some (.all (List.replicate n (some val)))) := by
  obtain ⟨hnew, halloc⟩ := newArray_spec hh hans
  have hlive : (⟨new, n⟩ : Block) ∈ (h.alloc T.sizeof ⟨new, n⟩).ledger.live :=
    (halloc.live _).mpr (Or.inr (by simp))
  obtain ⟨h', hfill, hchg, hcells⟩ :=
    Heap.fill_spec (n := n) (v := val) (stride_pos T) hlive (Nat.le_refl n)
  have hsize : (PVector.storage T n new).size = n := PVector.size_add rfl
  refine ⟨h', ?_, storage_spec hh hans (by simp) hchg fun i hi => ?_⟩
  · rw [PVector.filledCells, hnew, hsize]
    exact hfill
  · rw [hcells i hi, if_pos hi, List.getElem?_replicate, if_pos hi]

theorem copied_spec {j : ℕ} (hv : Holds T h u (some s)) (hh : h.Sound T.sizeof) (hij : i ≤ j)
    (hj : j ≤ s.size)
    (hans : PVector.CanAnswer T h (T.sub (T.add u.start j) (T.add u.start i)).toNat new) :
    ∃ h', PVector.copiedCells T h (T.add u.start i) (T.add u.start j) new = some h' ∧
      Heap.Replaced T.sizeof []
        (blocks (.storage T (T.sub (T.add u.start j) (T.add u.start i)).toNat new)) h h' ∧
      Holds T h' (.storage T (T.sub (T.add u.start j) (T.add u.start i)).toNat new)
        (some (s.slice i j)) := by
  have hcount : (T.sub (T.add u.start j) (T.add u.start i)).toNat = j - i := by
    have hadd : T.add u.start j = T.add (T.add u.start i) ((j - i : ℕ) : ℤ) := by
      rw [ElementType.add_add]
      congr 1
      omega
    rw [hadd, ElementType.sub_add, Int.toNat_natCast]
  rw [PVector.copiedCells]
  rw [hcount] at hans ⊢
  obtain ⟨hnew, halloc⟩ := newArray_spec hh hans
  have hlive : (⟨new, j - i⟩ : Block) ∈ (h.alloc T.sizeof ⟨new, j - i⟩).ledger.live :=
    (halloc.live _).mpr (Or.inr (by simp))
  have hcap : (PVector.storage T (j - i) new).capacity = j - i := PVector.capacity_add rfl
  have hle := s.size_le
  have hlen : ((s.contents.take j).drop i).length = j - i := by
    simp [s.length_contents]
    omega
  simp only [hnew, hcap, Option.bind_eq_bind, Option.bind_some]
  cases hv with
  | empty _ hs he hc hnil =>
    have hzero : s.size = 0 := by simpa [hnil] using hle
    have hji : j - i = 0 := by omega
    refine ⟨_, by rw [hji]; rfl, storage_spec hh hans hlen .refl fun k hk => ?_⟩
    omega
  | block _ hs hulive he hc hcells =>
    have hapart := hans.2 _ hulive
    obtain ⟨h', hcopy, hchg, hcells'⟩ := Heap.copy_spec (j := i) (n := j - i) (stride_pos T) hlive
      (Nat.le_refl _) (halloc.mem hulive (by simp)).1 hapart.symm (by simp only; omega)
    refine ⟨h', hcopy, storage_spec hh hans hlen hchg fun k hk => ?_⟩
    rw [hcells' k hk, if_pos hk, Heap.alloc_cells_old (stride_pos T) hapart (by simp only; omega)]
    rw [List.getElem?_drop, List.getElem?_take_of_lt (by omega), Sequence.contents,
      List.getElem?_take_of_lt (by omega), hcells _ (by omega)]

end VectorHeap

end PickleDevice
