import Mathlib.Data.List.Basic

/-!
Programs that ask their environment for answers. A run of a program is the list
of what it asked and what it was answered, so whatever holds of every run holds
under every environment.
-/

namespace Interaction

inductive Program (ρ : Type) (Answer : ρ → Type) (α : Type) : Type
  | done (a : α)
  | ask (q : ρ) (next : Answer q → Program ρ Answer α)

structure Event (ρ : Type) (Answer : ρ → Type) where
  request : ρ
  answer : Answer request

namespace Program

variable {ρ : Type} {Answer : ρ → Type} {α β : Type}

def bind : Program ρ Answer α → (α → Program ρ Answer β) → Program ρ Answer β
  | .done a, f => f a
  | .ask q next, f => .ask q fun r => (next r).bind f

instance : Monad (Program ρ Answer) where
  pure := .done
  bind := bind

def request (q : ρ) : Program ρ Answer (Answer q) := .ask q .done

/-- The program can be answered as the trace says and then returns the value. -/
inductive Runs : Program ρ Answer α → List (Event ρ Answer) → α → Prop
  | done (a : α) : Runs (.done a) [] a
  | ask {q : ρ} {next : Answer q → Program ρ Answer α} {trace : List (Event ρ Answer)} {a : α}
      (r : Answer q) (h : Runs (next r) trace a) : Runs (.ask q next) (⟨q, r⟩ :: trace) a

theorem runs_pure {a b : α} {trace : List (Event ρ Answer)} :
    Runs (pure a : Program ρ Answer α) trace b ↔ trace = [] ∧ b = a := by
  constructor
  · intro h
    cases h
    exact ⟨rfl, rfl⟩
  · rintro ⟨rfl, rfl⟩
    exact .done _

theorem runs_bind {p : Program ρ Answer α} {f : α → Program ρ Answer β}
    {trace : List (Event ρ Answer)} {b : β} : Runs (p >>= f) trace b ↔
      ∃ a t t', Runs p t a ∧ Runs (f a) t' b ∧ trace = t ++ t' := by
  induction p generalizing trace with
  | done a =>
    constructor
    · intro h
      exact ⟨a, [], trace, .done a, h, rfl⟩
    · rintro ⟨a', t, t', ha, hf, rfl⟩
      cases ha
      exact hf
  | ask q next ih =>
    constructor
    · intro h
      cases h with
      | ask r h =>
        obtain ⟨a, t, t', ha, hf, rfl⟩ := (ih r).mp h
        exact ⟨a, _, t', .ask r ha, hf, rfl⟩
    · rintro ⟨a, t, t', ha, hf, rfl⟩
      cases ha with
      | ask r ha => exact .ask r ((ih r).mpr ⟨a, _, t', ha, hf, rfl⟩)

theorem runs_request {q : ρ} {trace : List (Event ρ Answer)} {r : Answer q} :
    Runs (request q) trace r ↔ trace = [⟨q, r⟩] := by
  constructor
  · intro h
    cases h with
    | ask r h =>
      cases h
      rfl
  · rintro rfl
    exact .ask r (.done r)

theorem runs_request_bind {q : ρ} {f : Answer q → Program ρ Answer β}
    {trace : List (Event ρ Answer)} {b : β} : Runs (request q >>= f) trace b ↔
      ∃ r t, Runs (f r) t b ∧ trace = ⟨q, r⟩ :: t := by
  constructor
  · intro h
    cases h with
    | ask r h => exact ⟨r, _, h, rfl⟩
  · rintro ⟨r, t, h, rfl⟩
    exact .ask r h

end Program

/-- The third list is made of the first two, each in its order and marked with its side. -/
inductive Interleaving {α : Type} : List α → List α → List (Bool × α) → Prop
  | nil : Interleaving [] [] []
  | left {a : α} {l l' : List α} {m : List (Bool × α)} (h : Interleaving l l' m) :
      Interleaving (a :: l) l' ((true, a) :: m)
  | right {a : α} {l l' : List α} {m : List (Bool × α)} (h : Interleaving l l' m) :
      Interleaving l (a :: l') ((false, a) :: m)

namespace Interleaving

variable {α β : Type} {l l' : List α} {m : List (Bool × α)}

theorem filterMap (f : α → Option β) (h : Interleaving l l' m) :
    Interleaving (l.filterMap f) (l'.filterMap f)
      (m.filterMap fun x => (f x.2).map (Prod.mk x.1)) := by
  induction h with
  | nil => exact .nil
  | @left a l l' m h ih =>
    cases hf : f a with
    | none => simpa [hf] using ih
    | some b => simpa [hf] using ih.left
  | @right a l l' m h ih =>
    cases hf : f a with
    | none => simpa [hf] using ih
    | some b => simpa [hf] using ih.right

theorem nil_left (h : Interleaving [] l' m) : m = l'.map (Prod.mk false) := by
  generalize hl : ([] : List α) = l at h
  induction h with
  | nil => rfl
  | left h ih => cases hl
  | right h ih => rw [List.map_cons, ih hl]

theorem nil_right (h : Interleaving l [] m) : m = l.map (Prod.mk true) := by
  generalize hl : ([] : List α) = l' at h
  induction h with
  | nil => rfl
  | left h ih => rw [List.map_cons, ih hl]
  | right h ih => cases hl

theorem pairs {a b c d : α} (h : Interleaving [a, b] [c, d] m) :
    m = [(true, a), (true, b), (false, c), (false, d)] ∨
      m = [(true, a), (false, c), (true, b), (false, d)] ∨
      m = [(true, a), (false, c), (false, d), (true, b)] ∨
      m = [(false, c), (true, a), (true, b), (false, d)] ∨
      m = [(false, c), (true, a), (false, d), (true, b)] ∨
      m = [(false, c), (false, d), (true, a), (true, b)] := by
  cases h with
  | left h =>
    cases h with
    | left h => simp [h.nil_left]
    | right h =>
      cases h with
      | left h => simp [h.nil_left]
      | right h => simp [h.nil_right]
  | right h =>
    cases h with
    | left h =>
      cases h with
      | left h => simp [h.nil_left]
      | right h => simp [h.nil_right]
    | right h => simp [h.nil_right]

end Interleaving

end Interaction
