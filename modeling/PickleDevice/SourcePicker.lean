import PickleDevice.GraphWalks

namespace PickleDevice

/-- A `std::uniform_int_distribution<int>` with its generator: the values it is going to give. -/
structure UniformInt (a b : ℤ) where
  value : ℕ → ℤ
  mem_range : ∀ i, a ≤ value i ∧ value i ≤ b

structure SourcePicker (g : CSRGraph) where
  givenSource : ℤ
  udist : UniformInt 0 (toInt32 (g.numNodes - 1))
  drawn : ℕ

namespace SourcePicker

variable {g : CSRGraph}

def new (givenSource : ℤ) (udist : UniformInt 0 (toInt32 (g.numNodes - 1))) : SourcePicker g :=
  ⟨givenSource, udist, 0⟩

def value (p : SourcePicker g) (i : ℕ) : ℤ := p.udist.value (p.drawn + i)

section

variable (mem : Memory)

def draw (p : SourcePicker g) : ℕ → Option (ℤ × SourcePicker g)
  | 0 => none
  | fuel + 1 =>
    let source := p.value 0
    let p := { p with drawn := p.drawn + 1 }
    if g.outDegree mem source = 0 then p.draw fuel else some (source, p)

def pickNext (p : SourcePicker g) (fuel : ℕ) : Option (ℤ × SourcePicker g) :=
  if p.givenSource ≠ -1 then some (p.givenSource, p) else p.draw mem fuel

def picks (fuel : ℕ) : ℕ → SourcePicker g → Option (List ℤ × SourcePicker g)
  | 0, p => some ([], p)
  | n + 1, p => do
    let (source, p) ← p.pickNext mem fuel
    let (sources, p) ← picks fuel n p
    return (source :: sources, p)

def nonIsolated (p : SourcePicker g) (d : ℕ) : List ℤ :=
  ((List.range d).map p.value).filter (g.outDegree mem · ≠ 0)

end

variable {mem : Memory} {p q : SourcePicker g} {source : ℤ} {sources : List ℤ} {fuel fuel' n d e : ℕ}

def skip (p : SourcePicker g) (d : ℕ) : SourcePicker g := { p with drawn := p.drawn + d }

theorem skip_skip : (p.skip d).skip e = p.skip (d + e) := by
  simp [skip, Nat.add_assoc]

theorem value_skip (i : ℕ) : (p.skip d).value i = p.value (d + i) := by
  simp [value, skip, Nat.add_assoc]

theorem nonIsolated_add : p.nonIsolated mem (d + e) =
    p.nonIsolated mem d ++ (p.skip d).nonIsolated mem e := by
  simp only [nonIsolated, List.range_add, List.map_append, List.map_map, List.filter_append]
  congr 2
  apply List.map_congr_left
  intro i _
  exact (value_skip i).symm

theorem nonIsolated_one : p.nonIsolated mem 1 =
    if g.outDegree mem (p.value 0) = 0 then [] else [p.value 0] := by
  simp only [nonIsolated, List.range_one, List.map_singleton, List.filter_singleton]
  split_ifs with h <;> simp [h]

theorem mem_nonIsolated (h : source ∈ p.nonIsolated mem d) :
    0 ≤ source ∧ source ≤ toInt32 (g.numNodes - 1) := by
  obtain ⟨hmap, -⟩ := List.mem_filter.mp h
  obtain ⟨i, -, rfl⟩ := List.mem_map.mp hmap
  exact p.udist.mem_range _

/-- `n` calls returned `sources` for `d` draws: the last draw is that of the last source. -/
structure Picked (p : SourcePicker g) (mem : Memory) (n d : ℕ) (sources : List ℤ) : Prop where
  sources_eq : sources = p.nonIsolated mem d
  length : sources.length = n
  first : n = 0 → d = 0
  last : n ≠ 0 → sources.getLast? = some (p.value (d - 1))

theorem draw_nonIsolated (h : p.draw mem fuel = some (source, q)) :
    ∃ d, q = p.skip (d + 1) ∧ p.nonIsolated mem (d + 1) = [source] ∧ source = p.value d := by
  induction fuel generalizing p with
  | zero => cases h
  | succ fuel ih =>
    rw [draw] at h
    split_ifs at h with hdeg
    · obtain ⟨d, rfl, hd, hvalue⟩ := ih (p := p.skip 1) h
      refine ⟨1 + d, skip_skip, ?_, hvalue.trans (value_skip d)⟩
      rw [Nat.add_assoc, nonIsolated_add, nonIsolated_one, if_pos hdeg]
      exact hd
    · cases h
      exact ⟨0, rfl, by rw [nonIsolated_one, if_neg hdeg], rfl⟩

theorem draw_of_nonIsolated (h : p.nonIsolated mem d ≠ []) :
    ∃ source e, e ≤ d ∧ p.draw mem d = some (source, p.skip e) ∧
      p.nonIsolated mem e = [source] := by
  induction d generalizing p with
  | zero => exact absurd rfl h
  | succ d ih =>
    rw [Nat.add_comm, nonIsolated_add, nonIsolated_one] at h
    rw [draw]
    split_ifs at h ⊢ with hdeg
    · obtain ⟨source, e, he, hdraw, hone⟩ := ih h
      refine ⟨source, 1 + e, by omega, ?_, ?_⟩
      · rw [← skip_skip]
        exact hdraw
      · rw [nonIsolated_add, nonIsolated_one, if_pos hdeg]
        exact hone
    · exact ⟨_, 1, by omega, rfl, by rw [nonIsolated_one, if_neg hdeg]⟩

theorem draw_mono (hf : fuel ≤ fuel') (h : p.draw mem fuel = some (source, q)) :
    p.draw mem fuel' = some (source, q) := by
  induction fuel generalizing p fuel' with
  | zero => cases h
  | succ fuel ih =>
    obtain ⟨fuel', rfl⟩ : ∃ m, fuel' = m + 1 := ⟨fuel' - 1, by omega⟩
    rw [draw] at h ⊢
    split_ifs at h ⊢ with hdeg
    · exact ih (by omega) h
    · exact h

theorem picks_succ (hgiven : p.givenSource = -1) : picks mem fuel (n + 1) p =
    (p.draw mem fuel).bind fun r => (picks mem fuel n r.2).map fun s => (r.1 :: s.1, s.2) := by
  rw [picks, pickNext, if_neg (by simpa using hgiven)]
  cases p.draw mem fuel with
  | none => rfl
  | some r => cases h : picks mem fuel n r.2 <;> simp [h]

theorem picks_picked (hgiven : p.givenSource = -1) (h : picks mem fuel n p = some (sources, q)) :
    ∃ d, q = p.skip d ∧ p.Picked mem n d sources := by
  induction n generalizing p sources with
  | zero =>
    cases h
    exact ⟨0, rfl, rfl, rfl, fun _ => rfl, fun hn => absurd rfl hn⟩
  | succ n ih =>
    rw [picks_succ hgiven] at h
    obtain ⟨⟨source, r⟩, hdraw, h⟩ := Option.bind_eq_some_iff.mp h
    obtain ⟨⟨rest, u⟩, hrest, h⟩ := Option.map_eq_some_iff.mp h
    cases h
    obtain ⟨d, rfl, hone, hvalue⟩ := draw_nonIsolated hdraw
    obtain ⟨e, rfl, hpicked⟩ := ih (p := p.skip (d + 1)) hgiven hrest
    refine ⟨d + 1 + e, skip_skip, ?_, congrArg Nat.succ hpicked.length, by simp, fun _ => ?_⟩
    · rw [nonIsolated_add, hone, hpicked.sources_eq]
      rfl
    · by_cases hn : n = 0
      · -- The only call took the draws up to its own source.
        obtain rfl := hpicked.first hn
        obtain rfl : rest = [] := List.length_eq_zero_iff.mp (hpicked.length.trans hn)
        rw [List.getLast?_singleton, hvalue]
        rfl
      · have he : 0 < e := by
          rcases Nat.eq_zero_or_pos e with rfl | he
          · exact absurd (hpicked.sources_eq ▸ hpicked.length).symm hn
          · exact he
        have hlast := hpicked.last hn
        rw [value_skip] at hlast
        rw [List.getLast?_cons, hlast, Option.getD_some]
        congr 2
        omega

theorem picks_mono (hgiven : p.givenSource = -1) (hf : fuel ≤ fuel')
    (h : picks mem fuel n p = some (sources, q)) : picks mem fuel' n p = some (sources, q) := by
  induction n generalizing p sources with
  | zero => exact h
  | succ n ih =>
    rw [picks_succ hgiven] at h ⊢
    obtain ⟨⟨source, r⟩, hdraw, h⟩ := Option.bind_eq_some_iff.mp h
    obtain ⟨⟨rest, u⟩, hrest, h⟩ := Option.map_eq_some_iff.mp h
    cases h
    obtain ⟨d, rfl, -⟩ := draw_nonIsolated hdraw
    rw [draw_mono hf hdraw, Option.bind_some, ih (p := p.skip (d + 1)) hgiven hrest]
    rfl

theorem picks_of_nonIsolated (hgiven : p.givenSource = -1)
    (h : n ≤ (p.nonIsolated mem d).length) : ∃ r, picks mem d n p = some r := by
  induction n generalizing p d with
  | zero => exact ⟨_, rfl⟩
  | succ n ih =>
    have hne : p.nonIsolated mem d ≠ [] := by
      intro hnil
      simp [hnil] at h
    obtain ⟨source, e, he, hdraw, hone⟩ := draw_of_nonIsolated hne
    obtain ⟨f, rfl⟩ := Nat.exists_eq_add_of_le he
    rw [nonIsolated_add, hone, List.singleton_append, List.length_cons] at h
    obtain ⟨⟨rest, u⟩, hrest⟩ := ih (p := p.skip e) hgiven (Nat.le_of_succ_le_succ h)
    have hmore := picks_mono (p := p.skip e) hgiven (Nat.le_add_left f e) hrest
    exact ⟨_, by rw [picks_succ hgiven, hdraw, Option.bind_some, hmore]; rfl⟩

theorem picks_given (hgiven : p.givenSource ≠ -1) :
    picks mem fuel n p = some (List.replicate n p.givenSource, p) := by
  induction n with
  | zero => rfl
  | succ n ih =>
    rw [picks, pickNext, if_pos hgiven]
    simp [ih, List.replicate_succ]

theorem picks_sources (mem : Memory) (p : SourcePicker g) (n : ℕ) :
    (p.givenSource ≠ -1 → ∀ fuel,
      picks mem fuel n p = some (List.replicate n p.givenSource, p)) ∧
    (p.givenSource = -1 → -1 ≤ g.numNodes → g.numNodes < 2 ^ 31 →
      ((∃ fuel r, picks mem fuel n p = some r) ↔ ∃ d, n ≤ (p.nonIsolated mem d).length) ∧
      ∀ fuel sources q, picks mem fuel n p = some (sources, q) →
        (∃ d, q = p.skip d ∧ p.Picked mem n d sources) ∧ ∀ v ∈ sources, 0 ≤ v ∧ v < g.numNodes) := by
  refine ⟨fun hgiven fuel => picks_given hgiven, fun hgiven hn hlt => ⟨?_, ?_⟩⟩
  · constructor
    · rintro ⟨fuel, ⟨sources, q⟩, h⟩
      obtain ⟨d, -, hpicked⟩ := picks_picked hgiven h
      exact ⟨d, by rw [← hpicked.sources_eq, hpicked.length]⟩
    · rintro ⟨d, hd⟩
      exact ⟨d, picks_of_nonIsolated hgiven hd⟩
  · intro fuel sources q h
    obtain ⟨d, hq, hpicked⟩ := picks_picked hgiven h
    refine ⟨⟨d, hq, hpicked⟩, fun v hv => ?_⟩
    obtain ⟨h0, hle⟩ := mem_nonIsolated (hpicked.sources_eq ▸ hv)
    rw [toInt32, Int.bmod_eq_of_le (by omega) (by omega)] at hle
    omega

def lopsidedGraph : CSRGraph :=
  ⟨intType, true, 2, 2, 4096, 8192, 4096, 8192, none, none, none, none⟩

def lopsidedMemory : Memory := ⟨fun a => if a ≤ 4104 then 8192 else 8200⟩

def alternating : UniformInt 0 (toInt32 (lopsidedGraph.numNodes - 1)) where
  value := fun i => i % 2
  mem_range := by
    have hlast : toInt32 (lopsidedGraph.numNodes - 1) = 1 := by decide
    intro i
    omega

theorem picks_sources_alternating :
    (∃ d, (new (-1) alternating).skip 4 = (new (-1) alternating).skip d ∧
      (new (-1) alternating).Picked lopsidedMemory 2 d [1, 1]) ∧
    ∀ v ∈ [(1 : ℤ), 1], 0 ≤ v ∧ v < lopsidedGraph.numNodes :=
  ((picks_sources lopsidedMemory (new (-1) alternating) 2).2 rfl (by decide) (by decide)).2 2 [1, 1] _
    rfl

end SourcePicker

end PickleDevice
