import PickleDevice.JobFaults
import PickleDevice.JobFormat

namespace PickleDevice

open StateEffect ByteWords Store

namespace Store

variable {s : Store} {p q : ℕ} {f g : PickleArrayDescriptor → PickleArrayDescriptor}

theorem modify_comm_of_ne (h : p ≠ q) : (s.modify p f).modify q g = (s.modify q g).modify p f := by
  unfold modify
  simp only [Function.update_of_ne h, Function.update_of_ne h.symm]
  rw [Function.update_comm h]

theorem modify_comm (h : p ≠ q ∨ ∀ d, g (f d) = f (g d)) :
    (s.modify p f).modify q g = (s.modify q g).modify p f := by
  by_cases hpq : p = q
  · subst hpq
    have hc := h.resolve_left fun hne => hne rfl
    unfold modify
    simp only [Function.update_self, Function.update_idem, hc]
  · exact modify_comm_of_ne hpq

theorem modify_modify_self (h : ∀ d, g (f d) = g d) : (s.modify p f).modify p g = s.modify p g := by
  unfold modify
  simp only [Function.update_self, Function.update_idem, h]

def holder (s : Store) (arrays : List Ptr) (id : UInt64) : Option Ptr :=
  arrays.find? fun p => (s.desc p).arrayId = id

theorem holder_modify (arrays : List Ptr) (id : UInt64) (hf : ∀ d, (f d).arrayId = d.arrayId) :
    (s.modify p f).holder arrays id = s.holder arrays id := by
  unfold holder
  simp only [modify_arrayId hf]

theorem holder_eq_some {arrays : List Ptr} {id : UInt64} (h : s.holder arrays id = some p) :
    p ∈ arrays ∧ (s.desc p).arrayId = id :=
  ⟨List.mem_of_find?_eq_some h, by simpa using List.find?_some h⟩

theorem holder_eq_none {arrays : List Ptr} {id : UInt64} :
    s.holder arrays id = none ↔ ∀ p ∈ arrays, (s.desc p).arrayId ≠ id := by
  simp [holder]

end Store

theorem run_changeByArrayId (change : PickleArrayDescriptor → PickleArrayDescriptor) (id : UInt64)
    {l : List Ptr} {s : Store} (h : ∀ p ∈ l, (s.desc p).arrayId ≠ unassignedID) :
    run (PickleJob.changeByArrayId change id l) s =
      (.ok (), (s.holder l id).elim s fun p => s.modify p change) := by
  induction l with
  | nil => rfl
  | cons p l ih =>
    have hp := h p List.mem_cons_self
    rw [PickleJob.changeByArrayId, run_bind_ok (run_getArrayId p s), run_ite, idOf_of_assigned hp,
      withId_of_assigned hp]
    by_cases hid : (s.desc p).arrayId = id
    · simp [hid, holder]
    · rw [if_neg hid, ih fun q hq => h q (List.mem_cons_of_mem p hq)]
      simp [hid, holder]

inductive FieldChange
  | accessType (accessType : AccessType)
  | addressingMode (addressingMode : AddressingMode)

namespace FieldChange

def call (c : FieldChange) (job : PickleJob) (arrayId : UInt64) : Action Unit :=
  match c with
  | accessType t => job.changeAccessTypeByArrayId arrayId t
  | addressingMode m => job.changeAddressingModeByArrayId arrayId m

def change (c : FieldChange) (d : PickleArrayDescriptor) : PickleArrayDescriptor :=
  match c with
  | accessType t => d.setAccessType t
  | addressingMode m => d.setAddressingMode m

def word : FieldChange → ℕ
  | accessType _ => 5
  | addressingMode _ => 6

def value : FieldChange → UInt64
  | accessType t => t.toUInt64
  | addressingMode m => m.toUInt64

def changeRecord (c : FieldChange) (r : Record) : Record :=
  match c with
  | accessType t => { r with accessType := t.toUInt64 }
  | addressingMode m => { r with addressingMode := m.toUInt64 }

variable (c c' : FieldChange) (d : PickleArrayDescriptor)

theorem word_lt : c.word < 7 := by
  cases c <;> simp [word]

@[simp] theorem change_arrayId : (c.change d).arrayId = d.arrayId := by
  cases c <;> rfl

@[simp] theorem change_dst : (c.change d).dstIndexingArrayId = d.dstIndexingArrayId := by
  cases c <;> rfl

theorem change_comm (h : c.word ≠ c'.word) : c'.change (c.change d) = c.change (c'.change d) := by
  cases c <;> cases c'
  · exact absurd rfl h
  · rfl
  · rfl
  · exact absurd rfl h

theorem change_change (h : c.word = c'.word) : c'.change (c.change d) = c'.change d := by
  cases c <;> cases c'
  · rfl
  · cases h
  · cases h
  · rfl

theorem words_changeRecord (r : Record) : (c.changeRecord r).words = r.words.set c.word c.value := by
  cases c <;> rfl

theorem call_eq (job : PickleJob) (arrayId : UInt64) :
    c.call job arrayId = PickleJob.changeByArrayId c.change arrayId job.arrays := by
  cases c <;> rfl

theorem record?_modify (s : Store) (m : RenameMap) (p : Ptr) :
    (s.modify p c.change).record? m p = (s.record? m p).map c.changeRecord := by
  unfold record?
  rw [modify_desc, change_arrayId, change_dst]
  cases m (s.desc p).arrayId with
  | none => rfl
  | some id =>
    cases m (s.desc p).dstIndexingArrayId with
    | none => rfl
    | some dst => cases c <;> rfl

theorem record?_modify_of_ne {s : Store} {p q : Ptr} (m : RenameMap) (h : q ≠ p) :
    (s.modify p c.change).record? m q = s.record? m q := by
  unfold record?
  rw [modify_desc_of_ne h]

def changed (job : PickleJob) (id : UInt64) (s : Store) : Store :=
  (s.holder job.arrays id).elim s fun p => s.modify p c.change

theorem changed_arrayId (job : PickleJob) (id : UInt64) (s : Store) (q : Ptr) :
    ((c.changed job id s).desc q).arrayId = (s.desc q).arrayId := by
  unfold changed
  cases s.holder job.arrays id with
  | none => rfl
  | some p => exact modify_arrayId c.change_arrayId q

theorem changed_dst (job : PickleJob) (id : UInt64) (s : Store) (q : Ptr) :
    ((c.changed job id s).desc q).dstIndexingArrayId = (s.desc q).dstIndexingArrayId := by
  unfold changed
  cases s.holder job.arrays id with
  | none => rfl
  | some p =>
    rw [Option.elim_some, modify_desc_apply]
    split_ifs
    · exact c.change_dst _
    · rfl

theorem changed_evolves (job : PickleJob) (id : UInt64) (s : Store) :
    Evolves s (c.changed job id s) := by
  unfold changed
  cases s.holder job.arrays id with
  | none => exact .refl
  | some p => exact .single (.write s p _ c.change_arrayId)

theorem holder_changed (job : PickleJob) (id : UInt64) (s : Store) (arrays : List Ptr)
    (id' : UInt64) : (c.changed job id s).holder arrays id' = s.holder arrays id' := by
  unfold changed
  cases s.holder job.arrays id with
  | none => rfl
  | some p => exact holder_modify arrays id' c.change_arrayId

variable {kernelName : List UInt8} {added : List Ptr} {job job' : PickleJob} {s : Store}
  {id id' : UInt64}

theorem run_call (hb : PickleJob.Built kernelName added job s) (ha : job.Assigned) :
    run (c.call job id) s = (.ok (), c.changed job id s) := by
  rw [call_eq, run_changeByArrayId _ _ (hb.wellBuilt.named ha)]
  rfl

theorem changed_of_not_mem (h : ∀ p ∈ job.arrays, (s.desc p).arrayId ≠ id) :
    c.changed job id s = s := by
  rw [changed, holder_eq_none.mpr h]
  rfl

theorem record?_changed (hb : PickleJob.Built kernelName added job s) (hw : s.nextID ≤ 2 ^ 64)
    {q : Ptr} (hq : q ∈ job.arrays) (m : RenameMap) :
    (c.changed job id s).record? m q =
      (s.record? m q).map fun r => if (s.desc q).arrayId = id then c.changeRecord r else r := by
  have hid := hb.wellBuilt.named (hb.assigned hw) q hq
  unfold changed
  cases hp : s.holder job.arrays id with
  | none => simp [holder_eq_none.mp hp q hq]
  | some p =>
    obtain ⟨-, hpid⟩ := holder_eq_some hp
    rw [Option.elim_some]
    split_ifs with hqid
    · -- Ids are distinct, so the search found this very array.
      obtain rfl := hb.wellBuilt.reachable.idsValid.distinct hw q p hid (hqid.trans hpid.symm)
      exact c.record?_modify s m q
    · rw [Option.map_id', record?_modify_of_ne]
      rintro rfl
      exact hqid hpid

theorem changed_comm (h : id ≠ id' ∨ c.word ≠ c'.word) :
    c'.changed job' id' (c.changed job id s) = c.changed job id (c'.changed job' id' s) := by
  conv_lhs => rw [changed, holder_changed]
  conv_rhs => rw [changed, holder_changed]
  cases hp : s.holder job.arrays id with
  | none =>
    cases hq : s.holder job'.arrays id' <;> simp [changed, hp, hq]
  | some p =>
    cases hq : s.holder job'.arrays id' with
    | none => simp [changed, hp, hq]
    | some q =>
      simp only [changed, hp, hq, Option.elim_some]
      apply modify_comm
      rcases h with h | h
      · left
        rintro rfl
        exact h ((holder_eq_some hp).2.symm.trans (holder_eq_some hq).2)
      · exact Or.inr (change_comm c c' · h)

theorem changed_changed (h : c.word = c'.word) :
    c'.changed job id (c.changed job id s) = c'.changed job id s := by
  conv_lhs => rw [changed, holder_changed]
  cases hp : s.holder job.arrays id with
  | none => simp [changed, hp]
  | some p =>
    simp only [changed, hp, Option.elim_some]
    exact modify_modify_self (change_change c c' · h)

theorem sameLinks_changed (l : List Ptr) : s.SameLinks (c.changed job id s) l := by
  intro p _
  rw [changed_dst]
  exact ⟨Iff.rfl, fun q _ => by rw [changed_arrayId]⟩

end FieldChange

/-- `bytes'` is `bytes` but for word `k` of the records in `rows`, which is `value`. -/
structure RewritesWord (bytes bytes' : List UInt8) (k : ℕ) (rows : Set ℕ) (value : UInt64) : Prop where
  length : bytes'.length = bytes.length
  words : ∀ i ∈ rows, fieldAt bytes' i k = value
  frame : ∀ j, (∀ i ∈ rows, j < 1 + 56 * i + 8 * k ∨ 1 + 56 * i + 8 * k + 8 ≤ j) → bytes'[j]? = bytes[j]?

namespace PickleJob

open FieldChange

variable {kernelName : List UInt8} {added : List Ptr} {job job' : PickleJob} {s t t' : Store}
  {bytes bytes' : List UInt8} {id : UInt64}

theorem Built.changed (hb : Built kernelName added job s) (c : FieldChange) (job' : PickleJob)
    (id : UInt64) : Built kernelName added job (c.changed job' id s) :=
  hb.later (c.changed_evolves job' id s)

theorem rewritesWord_changed (hb : Built kernelName added job s) (hw : s.nextID ≤ 2 ^ 64)
    (c : FieldChange) (h : run job.getJobDescriptor s = (.ok bytes, t))
    (h' : run job.getJobDescriptor (c.changed job id s) = (.ok bytes', t')) :
    RewritesWord bytes bytes' c.word {i | (s.arrayIds added)[i]? = some id} c.value := by
  have ha := hb.assigned hw
  obtain ⟨rs, rfl, hl, hrec⟩ := encoded_of_built hb ha h
  obtain ⟨rs', rfl, hl', hrec'⟩ := encoded_of_built (hb.changed c job id) ha h'
  have hrow : ∀ i (hi : i < rs.length) (hi' : i < rs'.length),
      rs'[i] = if (s.arrayIds added)[i]? = some id then c.changeRecord rs[i] else rs[i] := by
    intro i hi hi'
    have hin : i < added.length := by omega
    have hmem : added[i] ∈ job.arrays := hb.arrays_eq ▸ List.getElem_mem hin
    have hr' := hrec' i hin hi'
    rw [c.record?_changed hb hw hmem, hrec i hin hi] at hr'
    simpa [arrayIds, hin] using hr'.symm
  constructor
  · rw [serialize_length, serialize_length, hl, hl']
  · intro i (hi : (s.arrayIds added)[i]? = some id)
    obtain ⟨hin, -⟩ := List.getElem?_eq_some_iff.mp hi
    rw [arrayIds_length] at hin
    rw [fieldAt_serialize _ rs' i c.word (by omega) c.word_lt]
    simp only [hrow i (by omega) (by omega), hi, if_true, words_changeRecord, List.getElem_set_self]
  · intro j hj
    apply serialize_congr _ (by omega)
    intro i k hi' hi hk hle hlt
    rw [hrow i hi hi']
    split_ifs with hid
    · have hk' : c.word ≠ k := by
        rintro rfl
        have := hj i hid
        omega
      simp only [words_changeRecord]
      exact List.getElem_set_ne hk' _
    · rfl

structure ChangesOnly (job : PickleJob) (added : List Ptr) (c : FieldChange) (id : UInt64)
    (s t : Store) : Prop where
  throws : job.Throws t ↔ job.Throws s
  rewrites : ∀ bytes bytes' u u', run job.getJobDescriptor s = (.ok bytes, u) →
    run job.getJobDescriptor t = (.ok bytes', u') →
    RewritesWord bytes bytes' c.word {i | (s.arrayIds added)[i]? = some id} c.value
  absent : id ∉ s.arrayIds added → run job.getJobDescriptor t = run job.getJobDescriptor s

theorem changesOnly_changed (hb : Built kernelName added job s) (hw : s.nextID ≤ 2 ^ 64)
    (c : FieldChange) (id : UInt64) : job.ChangesOnly added c id s (c.changed job id s) := by
  constructor
  · have hb' := hb.changed c job id
    exact throws_perm hb (hb.assigned hw) hb' (hb.assigned hw) (.refl _) (c.sameLinks_changed _)
  · intro bytes bytes' u u' h h'
    exact rewritesWord_changed hb hw c h h'
  · intro h
    rw [c.changed_of_not_mem]
    rintro p hp rfl
    exact h (hb.ids_eq ▸ mem_ids s hp)

theorem change_calls (hb : Built kernelName added job s) (hw : s.nextID < 2 ^ 64 - 1)
    (c c' : FieldChange) (id id' : UInt64) :
    (∃ t, run (c.call job id) s = (.ok (), t) ∧ job.ChangesOnly added c id s t) ∧
    (∀ kernelName' added' job', Built kernelName' added' job' s → id ≠ id' ∨ c.word ≠ c'.word →
      run (c.call job id >>= fun _ => c'.call job' id') s =
        run (c'.call job' id' >>= fun _ => c.call job id) s) ∧
    (c.word = c'.word →
      run (c.call job id >>= fun _ => c'.call job id) s = run (c'.call job id) s) := by
  have hle : s.nextID ≤ 2 ^ 64 := by omega
  have ha := hb.assigned hle
  refine ⟨⟨_, c.run_call hb ha, changesOnly_changed hb hle c id⟩, ?_, ?_⟩
  · intro kernelName' added' job' hb' h
    have ha' := hb'.assigned hle
    rw [run_bind_ok (c.run_call hb ha), run_bind_ok (c'.run_call hb' ha'),
      c'.run_call (hb'.changed c job id) ha', c.run_call (hb.changed c' job' id') ha,
      changed_comm c c' h]
  · intro h
    rw [run_bind_ok (c.run_call hb ha), c'.run_call (hb.changed c job id) ha, c'.run_call hb ha,
      changed_changed c c' h]

theorem change_calls_linkedJob :
    ∃ t, run (linkedJob.changeAddressingModeByArrayId 1 .index) linkedStore = (.ok (), t) ∧
      linkedJob.ChangesOnly [0, 1] (.addressingMode .index) 1 linkedStore t :=
  (change_calls built_linkedJob (by decide) (.addressingMode .index) (.accessType .ranged) 1 2).1

end PickleJob

end PickleDevice
