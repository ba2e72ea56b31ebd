import Mathlib.Data.List.Basic
import Mathlib.Data.Int.Notation
import Mathlib.Data.Nat.Notation
import Mathlib.Tactic.SplitIfs

/-!
Texts of lines, lines of words, and words that are decimal numerals: how they are
cut up again and read.
-/

namespace TextFormat

def lines (text : List Char) : List (List Char) := (text.splitOn '\n').dropLast

def words (line : List Char) : List (List Char) := (line.splitOn ' ').filter (· ≠ [])

def readNat (digits : List Char) : Option ℕ :=
  if digits ≠ [] ∧ digits.all Char.isDigit then some (Nat.ofDigitChars 10 digits 0) else none

def readInt : List Char → Option ℤ
  | '-' :: digits => (readNat digits).map fun n : ℕ => -(n : ℤ)
  | digits => (readNat digits).map fun n : ℕ => (n : ℤ)

def readInts (line : List Char) : Option (List ℤ) := (words line).mapM readInt

section Cutting

variable {line word text : List Char}

theorem lines_append (h : '\n' ∉ line) : lines (line ++ '\n' :: text) = line :: lines text := by
  rw [lines, List.splitOn_append_cons_self_of_not_mem h, List.dropLast_cons_of_ne_nil]
  · rfl
  · exact List.splitOn_ne_nil _ _

theorem lines_flatMap {ls : List (List Char)} (h : ∀ l ∈ ls, '\n' ∉ l) :
    lines (ls.flatMap (· ++ ['\n'])) = ls := by
  induction ls with
  | nil => rfl
  | cons l ls ih =>
    rw [List.flatMap_cons, List.append_assoc, List.singleton_append,
      lines_append (h l List.mem_cons_self), ih fun l hl => h l (List.mem_cons_of_mem _ hl)]

theorem words_append (hne : word ≠ []) (h : ' ' ∉ word) :
    words (word ++ ' ' :: line) = word :: words line := by
  rw [words, List.splitOn_append_cons_self_of_not_mem h, List.filter_cons_of_pos]
  · rfl
  · simpa using hne

theorem words_last (hne : word ≠ []) (h : ' ' ∉ word) : words word = [word] := by
  rw [words, List.splitOn_eq_singleton h, List.filter_cons_of_pos]
  · rfl
  · simpa using hne

end Cutting

section Numerals

theorem isDigit_of_mem_repr {n : ℕ} {c : Char} (h : c ∈ n.repr.toList) : c.isDigit = true := by
  rw [Nat.toList_repr] at h
  exact Nat.isDigit_of_mem_toDigits (by decide) (by decide) h

theorem readNat_repr (n : ℕ) : readNat n.repr.toList = some n := by
  rw [readNat, if_pos, Nat.toList_repr, Nat.ofDigitChars_ten_toDigits]
  constructor
  · rw [Nat.toList_repr]
    exact Nat.toDigits_ne_nil
  · rw [List.all_eq_true]
    intro c hc
    exact isDigit_of_mem_repr hc

theorem toString_ne_nil (n : ℤ) : (toString n).toList ≠ [] := by
  rw [Int.toString_eq_repr, Int.repr_eq_if]
  split_ifs
  · rw [Nat.toList_repr]
    exact Nat.toDigits_ne_nil
  · simp

theorem not_mem_toString {c : Char} (hdigit : c.isDigit = false) (hminus : c ≠ '-') (n : ℤ) :
    c ∉ (toString n).toList := by
  have hrepr : ∀ m : ℕ, c ∉ m.repr.toList := by
    intro m hm
    rw [isDigit_of_mem_repr hm] at hdigit
    cases hdigit
  rw [Int.toString_eq_repr, Int.repr_eq_if]
  split_ifs
  · exact hrepr _
  · rw [String.toList_append, List.mem_append, not_or]
    exact ⟨by simpa using hminus, hrepr _⟩

theorem readInt_of_digits {digits : List Char} (h : '-' ∉ digits) :
    readInt digits = (readNat digits).map fun n : ℕ => (n : ℤ) := by
  unfold readInt
  split
  · simp at h
  · rfl

theorem readInt_toString (n : ℤ) : readInt (toString n).toList = some n := by
  rw [Int.toString_eq_repr, Int.repr_eq_if]
  split_ifs with hn
  · rw [readInt_of_digits, readNat_repr, Option.map_some, Int.toNat_of_nonneg hn]
    intro hmem
    have hdigit := isDigit_of_mem_repr hmem
    revert hdigit
    decide
  · have hminus : ("-" ++ (-n).toNat.repr).toList = '-' :: (-n).toNat.repr.toList := by simp
    rw [hminus, readInt, readNat_repr, Option.map_some, Int.toNat_of_nonneg (by omega), Int.neg_neg]

end Numerals

def item (n : ℤ) : List Char := (toString n).toList ++ [' ']

theorem blank_not_mem_toString (n : ℤ) : ' ' ∉ (toString n).toList :=
  not_mem_toString (by decide) (by decide) n

theorem newline_not_mem_toString (n : ℤ) : '\n' ∉ (toString n).toList :=
  not_mem_toString (by decide) (by decide) n

theorem newline_not_mem_item (n : ℤ) : '\n' ∉ item n := by
  rw [item, List.mem_append, not_or]
  exact ⟨newline_not_mem_toString n, by decide⟩

theorem newline_not_mem_items (ns : List ℤ) : '\n' ∉ ns.flatMap item := by
  intro h
  obtain ⟨n, -, hn⟩ := List.mem_flatMap.mp h
  exact newline_not_mem_item n hn

theorem readInts_cons {n : ℤ} {ns : List ℤ} {line : List Char} (h : readInts line = some ns) :
    readInts (item n ++ line) = some (n :: ns) := by
  rw [readInts] at h ⊢
  rw [item, List.append_assoc, List.singleton_append,
    words_append (toString_ne_nil n) (blank_not_mem_toString n), List.mapM_cons, readInt_toString,
    h]
  rfl

theorem readInts_last (n : ℤ) : readInts (toString n).toList = some [n] := by
  rw [readInts, words_last (toString_ne_nil n) (blank_not_mem_toString n), List.mapM_cons,
    readInt_toString]
  rfl

theorem readInts_items (ns : List ℤ) : readInts (ns.flatMap item) = some ns := by
  induction ns with
  | nil => rfl
  | cons n ns ih =>
    rw [List.flatMap_cons]
    exact readInts_cons ih

theorem mapM_map_some {α β : Type} {f : α → β} {g : β → Option α} {l : List α}
    (h : ∀ a ∈ l, g (f a) = some a) : (l.map f).mapM g = some l := by
  induction l with
  | nil => rfl
  | cons a l ih =>
    rw [List.map_cons, List.mapM_cons, h a List.mem_cons_self,
      ih fun b hb => h b (List.mem_cons_of_mem _ hb)]
    rfl

end TextFormat
