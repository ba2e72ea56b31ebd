import PickleDevice.JobBuilding

namespace PickleDevice

open StateEffect ByteWords Store

def wordAt (bytes : List UInt8) (offset : ℕ) : UInt64 := readWord64 ((bytes.drop offset).take 8)

def fieldAt (bytes : List UInt8) (i k : ℕ) : UInt64 := wordAt bytes (1 + 56 * i + 8 * k)

theorem Record.word_at (r : Record) (tail : List UInt8) (k : ℕ) (hk : k < 7) :
    readWord64 (((r.bytes ++ tail).drop (8 * k)).take 8) = r.words[k] := by
  have hb := block_at word64_length r.words tail k hk
  rw [Record.bytes, hb, readWord64_word64]

theorem fieldAt_serialize (kernelName : List UInt8) (rs : List Record) (i k : ℕ)
    (hi : i < rs.length) (hk : k < 7) :
    fieldAt (serialize kernelName rs) i k = (rs[i].words)[k] := by
  have hb := block_at Record.bytes_length rs kernelName i hi
  have hd : (serialize kernelName rs).drop (1 + 56 * i + 8 * k) =
      ((rs.flatMap Record.bytes ++ kernelName).drop (56 * i)).drop (8 * k) := by
    rw [serialize, Nat.add_assoc, Nat.add_comm 1, List.drop_succ_cons, ← List.drop_drop]
  have hsplit : (rs.flatMap Record.bytes ++ kernelName).drop (56 * i) =
      rs[i].bytes ++ ((rs.flatMap Record.bytes ++ kernelName).drop (56 * i)).drop 56 := by
    rw [← hb, List.take_append_drop]
  rw [fieldAt, wordAt, hd, hsplit]
  exact rs[i].word_at _ k hk

theorem serialize_byte (kernelName : List UInt8) (rs : List Record) {i k b : ℕ}
    (hi : i < rs.length) (hk : k < 7) (hb : b < 8) :
    (serialize kernelName rs)[1 + 56 * i + 8 * k + b]? = (word64 (rs[i].words[k]))[b]? := by
  have hr := byte_at Record.bytes_length rs kernelName hi (k := 8 * k + b) (by omega)
  have hw := byte_at word64_length rs[i].words [] (i := k) hk hb
  rw [List.append_nil] at hw
  rw [serialize, show 1 + 56 * i + 8 * k + b = 56 * i + (8 * k + b) + 1 by omega,
    List.getElem?_cons_succ, hr, Record.bytes, hw]

theorem serialize_length (kernelName : List UInt8) (rs : List Record) :
    (serialize kernelName rs).length = 1 + 56 * rs.length + kernelName.length := by
  rw [serialize, List.length_cons, List.length_append, flatMap_length Record.bytes_length]
  omega

theorem serialize_drop (kernelName : List UInt8) (rs : List Record) :
    (serialize kernelName rs).drop (1 + 56 * rs.length) = kernelName := by
  have hl : (rs.flatMap Record.bytes).length = 56 * rs.length :=
    flatMap_length Record.bytes_length rs
  rw [serialize, Nat.add_comm, List.drop_succ_cons, ← hl, List.drop_left]

theorem serialize_congr (kernelName : List UInt8) {rs rs' : List Record}
    (hl : rs.length = rs'.length) (j : ℕ)
    (h : ∀ i k (hi : i < rs.length) (hi' : i < rs'.length) (hk : k < 7), 1 + 56 * i + 8 * k ≤ j →
      j < 1 + 56 * i + 8 * k + 8 → rs[i].words[k] = rs'[i].words[k]) :
    (serialize kernelName rs)[j]? = (serialize kernelName rs')[j]? := by
  rcases Nat.eq_zero_or_pos j with rfl | hpos
  · rw [serialize, serialize, hl]
    rfl
  · rcases Nat.lt_or_ge j (1 + 56 * rs.length) with hj | hj
    · have hi : (j - 1) / 56 < rs.length := by omega
      have hk : (j - 1) % 56 / 8 < 7 := by omega
      have hsplit : j = 1 + 56 * ((j - 1) / 56) + 8 * ((j - 1) % 56 / 8) + (j - 1) % 8 := by omega
      rw [hsplit, serialize_byte kernelName rs hi hk (by omega),
        serialize_byte kernelName rs' (by omega) hk (by omega),
        h _ _ hi (by omega) hk (by omega) (by omega)]
    · have hd := serialize_drop kernelName rs
      have hd' := serialize_drop kernelName rs'
      rw [← Nat.add_sub_cancel' hj, ← List.getElem?_drop, hd, hl, ← List.getElem?_drop, hd']

namespace PickleJob

def encodedRecords (job : PickleJob) (s : Store) : Except Fault (List Record) :=
  (run (readRecords job.arrayRenameMap job.arrays) s).1

theorem encodedRecords_eq_ok {job : PickleJob} {s t : Store} {bytes : List UInt8}
    (h : run job.getJobDescriptor s = (.ok bytes, t)) :
    ∃ rs, job.encodedRecords s = .ok rs ∧ rs.length = job.arrays.length ∧
      bytes = serialize job.kernelName rs := by
  obtain ⟨rs, hrs, rfl⟩ := getJobDescriptor_eq_ok.mp h
  exact ⟨rs, by rw [encodedRecords, hrs], readRecords_length hrs, rfl⟩

/-- `job` has the first records of `job'` and a kernel name that spells out the others, a
positive multiple of 256 of them. -/
def Mimics (job : PickleJob) (s : Store) (job' : PickleJob) (s' : Store) : Prop :=
  ∃ rs extra, job.encodedRecords s = .ok rs ∧ job'.encodedRecords s' = .ok (rs ++ extra) ∧
    extra ≠ [] ∧ 256 ∣ extra.length ∧
    job.kernelName = extra.flatMap Record.bytes ++ job'.kernelName

end PickleJob

theorem serialize_injective_of_le {kernelName kernelName' : List UInt8} {rs rs' : List Record}
    (hl : rs.length ≤ rs'.length) (h : serialize kernelName rs = serialize kernelName' rs') :
    ∃ extra, rs' = rs ++ extra ∧ 256 ∣ extra.length ∧
      kernelName = extra.flatMap Record.bytes ++ kernelName' := by
  obtain ⟨hn, hbody⟩ := List.cons.inj h
  obtain ⟨extra, rfl, hname⟩ :=
    blocks_prefix Record.bytes_length Record.bytes_injective rs rs' _ _ hl hbody
  refine ⟨extra, rfl, ?_, hname⟩
  have hmod : rs.length % 256 = (rs ++ extra).length % 256 := by
    simpa using congrArg UInt8.toNat hn
  rw [List.length_append] at hmod
  omega

namespace PickleJob

variable {kernelName : List UInt8} {added : List Ptr} {job job' : PickleJob} {s s' t t' : Store}
  {bytes bytes' : List UInt8}

theorem Mimics.bytes_eq (h : run job.getJobDescriptor s = (.ok bytes, t))
    (h' : run job'.getJobDescriptor s' = (.ok bytes', t')) (hm : job.Mimics s job' s') :
    bytes = bytes' ∧ job.arrays.length ≠ job'.arrays.length := by
  obtain ⟨rs, extra, hrs, hrs', hne, hdvd, hname⟩ := hm
  obtain ⟨qs, hqs, hl, rfl⟩ := encodedRecords_eq_ok h
  obtain ⟨qs', hqs', hl', rfl⟩ := encodedRecords_eq_ok h'
  obtain rfl := Except.ok.inj (hrs.symm.trans hqs)
  obtain rfl := Except.ok.inj (hrs'.symm.trans hqs')
  have hpos : 0 < extra.length := List.length_pos_iff.mpr hne
  constructor
  · have hcount : UInt8.ofNat rs.length = UInt8.ofNat (rs ++ extra).length := by
      rw [← UInt8.toNat_inj]
      simp only [UInt8.toNat_ofNat', List.length_append]
      omega
    rw [serialize, serialize, hcount, hname, List.flatMap_append, List.append_assoc]
  · rw [← hl, ← hl', List.length_append]
    omega

theorem eq_or_mimics_of_le (h : run job.getJobDescriptor s = (.ok bytes, t))
    (h' : run job'.getJobDescriptor s' = (.ok bytes, t'))
    (hl : job.arrays.length ≤ job'.arrays.length) :
    (job.arrays.length = job'.arrays.length ∧ job.encodedRecords s = job'.encodedRecords s' ∧
      job.kernelName = job'.kernelName) ∨ job.Mimics s job' s' := by
  obtain ⟨rs, hrs, hlen, hb⟩ := encodedRecords_eq_ok h
  obtain ⟨rs', hrs', hlen', hb'⟩ := encodedRecords_eq_ok h'
  obtain ⟨extra, rfl, hdvd, hname⟩ :=
    serialize_injective_of_le (by omega : rs.length ≤ rs'.length) (hb.symm.trans hb')
  by_cases hx : extra = []
  · subst hx
    simp only [List.append_nil] at hrs' hlen'
    exact Or.inl ⟨hlen.symm.trans hlen', hrs.trans hrs'.symm, by simpa using hname⟩
  · exact Or.inr ⟨rs, extra, hrs, hrs', hx, hdvd, hname⟩

theorem getJobDescriptor_unambiguous_iff (h : run job.getJobDescriptor s = (.ok bytes, t))
    (h' : run job'.getJobDescriptor s' = (.ok bytes', t')) :
    (bytes = bytes' → job.arrays.length = job'.arrays.length ∧
      job.encodedRecords s = job'.encodedRecords s' ∧ job.kernelName = job'.kernelName) ↔
      ¬ (job.Mimics s job' s' ∨ job'.Mimics s' job s) := by
  constructor
  · rintro hu (hm | hm)
    · obtain ⟨hb, hne⟩ := hm.bytes_eq h h'
      exact hne (hu hb).1
    · obtain ⟨hb, hne⟩ := hm.bytes_eq h' h
      exact hne (hu hb.symm).1.symm
  · rintro hm rfl
    rcases Nat.le_total job.arrays.length job'.arrays.length with hl | hl
    · exact (eq_or_mimics_of_le h h' hl).resolve_right fun hc => hm (Or.inl hc)
    · obtain ⟨hn, hr, hk⟩ := (eq_or_mimics_of_le h' h hl).resolve_right fun hc => hm (Or.inr hc)
      exact ⟨hn.symm, hr.symm, hk.symm⟩

def otherJob : PickleJob := (new [8]).withArray 1 1

def otherRecords : List Record := [⟨0, noDestination, 8192, 8208, 8, 0, 0⟩]

theorem run_otherJob :
    run otherJob.getJobDescriptor linkedStore = (.ok (serialize [8] otherRecords), linkedStore) := by
  have hrecords : otherJob.records? linkedStore = some otherRecords := by decide
  rw [run_getJobDescriptor_of_assigned (by decide), hrecords]
  rfl

theorem getJobDescriptor_unambiguous_linkedJob :
    (serialize [7] linkedRecords = serialize [8] otherRecords →
      linkedJob.arrays.length = otherJob.arrays.length ∧
        linkedJob.encodedRecords linkedStore = otherJob.encodedRecords linkedStore ∧
        linkedJob.kernelName = otherJob.kernelName) ↔
      ¬ (linkedJob.Mimics linkedStore otherJob linkedStore ∨
        otherJob.Mimics linkedStore linkedJob linkedStore) :=
  getJobDescriptor_unambiguous_iff run_linkedJob run_otherJob

theorem not_mimics_of_lt (h : job'.arrays.length < 256) : ¬ job.Mimics s job' s' := by
  rintro ⟨rs, extra, -, hrs, hne, hdvd, -⟩
  have hl : (rs ++ extra).length = job'.arrays.length := by
    rcases hrun : run (readRecords job'.arrayRenameMap job'.arrays) s' with ⟨r, t⟩
    rw [encodedRecords, hrun] at hrs
    cases hrs
    exact readRecords_length hrun
  have hpos : 0 < extra.length := List.length_pos_iff.mpr hne
  have := Nat.le_of_dvd hpos hdvd
  rw [List.length_append] at hl
  omega

theorem getJobDescriptor_of_built (hb : Built kernelName added job s) (hw : s.nextID ≤ 2 ^ 64)
    (hd : ∀ p ∈ added, (s.desc p).dstIndexingArrayId = noDestination) :
    ∃ rs, run job.getJobDescriptor s = (.ok (serialize kernelName rs), s) ∧
      rs.length = added.length := by
  have ha := hb.assigned hw
  have hsome := (hb.wellBuilt.records?_isSome ha).mpr fun p hp => Or.inr (hd p (hb.arrays_eq ▸ hp))
  obtain ⟨rs, hrs⟩ := Option.isSome_iff_exists.mp hsome
  refine ⟨rs, ?_, ?_⟩
  · rw [run_getJobDescriptor_of_assigned (hb.wellBuilt.named ha), hrs, hb.kernelName_eq]
    rfl
  · rw [records?, hb.arrays_eq] at hrs
    simpa using (congrArg List.length (mapM_eq_some.mp hrs)).symm

/-- Adding one array 256 times wraps the count byte to zero, and a job with no array whose name is
the rest of that descriptor has the same bytes. -/
theorem not_getJobDescriptor_unambiguous :
    ¬ ∀ (kernelName kernelName' : List UInt8) (added added' : List Ptr) (job job' : PickleJob)
      (s s' t t' : Store) (bytes : List UInt8), Built kernelName added job s →
      Built kernelName' added' job' s' → run job.getJobDescriptor s = (.ok bytes, t) →
      run job'.getJobDescriptor s' = (.ok bytes, t') →
      added.length = added'.length ∧ job.encodedRecords s = job'.encodedRecords s' ∧
        kernelName = kernelName' := by
  intro hall
  have hreach : Reachable init.alloc := .single (.newDescriptor init)
  obtain ⟨job, s, hrun, -, -, hdst, hn⟩ :=
    run_addArrayDescriptors (new []) (List.replicate 256 0) init.alloc
  have hlive : ∀ p ∈ List.replicate 256 0, p < init.alloc.next := by
    intro p hp
    rw [List.eq_of_mem_replicate hp]
    exact Nat.one_pos
  have hbuilt : Built [] (List.replicate 256 0) job s :=
    (Built.new hreach).addArrayDescriptors hlive hrun
  have hw : s.nextID ≤ 2 ^ 64 := by
    apply hn.trans
    rw [List.length_replicate]
    decide
  obtain ⟨rs, hget, hrs⟩ := getJobDescriptor_of_built hbuilt hw fun p hp => by
    obtain rfl : p = 0 := List.eq_of_mem_replicate (hp : p ∈ List.replicate 256 0)
    rw [hdst]
    rfl
  rw [List.length_replicate] at hrs
  have hspell : run (new (rs.flatMap Record.bytes)).getJobDescriptor init =
      (.ok (serialize [] rs), init) := by
    rw [run_getJobDescriptor]
    change (Except.ok (serialize _ []), init) = _
    rw [serialize, serialize, hrs]
    simp [PickleJob.new]
  have hcount := (hall _ _ _ _ _ job init s init s _ (.new .refl) hbuilt hspell hget).1
  rw [List.length_replicate, List.length_nil] at hcount
  omega

theorem encoded_of_built (hb : Built kernelName added job s) (ha : job.Assigned)
    (h : run job.getJobDescriptor s = (.ok bytes, t)) :
    ∃ rs : List Record, bytes = serialize kernelName rs ∧ rs.length = added.length ∧
      ∀ i (hi : i < added.length) (hr : i < rs.length),
        s.record? job.arrayRenameMap added[i] = some rs[i] := by
  rw [run_getJobDescriptor_of_assigned (hb.wellBuilt.named ha), records?, hb.arrays_eq,
    hb.kernelName_eq] at h
  cases hrs : added.mapM (s.record? job.arrayRenameMap) with
  | none => simp [hrs] at h
  | some rs =>
    obtain ⟨rfl, -⟩ : serialize kernelName rs = bytes ∧ s = t := by simpa [hrs] using h
    have hmap := mapM_eq_some.mp hrs
    refine ⟨rs, rfl, by simpa using (congrArg List.length hmap).symm, ?_⟩
    intro i hi hir
    have hget : (added.map (s.record? job.arrayRenameMap))[i]? = (rs.map some)[i]? := by
      rw [hmap]
    simpa [hi, hir] using hget

theorem fieldAt_of_built (hb : Built kernelName added job s) (ha : job.Assigned)
    (h : run job.getJobDescriptor s = (.ok bytes, t)) {i : ℕ} (hi : i < added.length) :
    ∃ r, s.record? job.arrayRenameMap added[i] = some r ∧
      ∀ k (hk : k < 7), fieldAt bytes i k = (r.words)[k] := by
  obtain ⟨rs, rfl, hl, hrec⟩ := encoded_of_built hb ha h
  have hir : i < rs.length := by omega
  exact ⟨rs[i], hrec i hi hir, fun k hk => fieldAt_serialize _ rs i k hir hk⟩

theorem id_field (hb : Built kernelName added job s) (ha : job.Assigned)
    (h : run job.getJobDescriptor s = (.ok bytes, t)) {i : ℕ} (hi : i < added.length) :
    ∃ j, Renaming.lastPosition (s.arrayIds added) (s.desc added[i]).arrayId = some j ∧
      fieldAt bytes i 0 = UInt64.ofNat j := by
  obtain ⟨r, hr, hfield⟩ := fieldAt_of_built hb ha h hi
  have hmem : (s.desc added[i]).arrayId ∈ s.arrayIds added :=
    List.mem_map_of_mem (List.getElem_mem hi)
  obtain ⟨j, hj, hv⟩ := renamed_mem hmem
  have hid := (record?_eq_some hr).id
  rw [hb.wellBuilt.map ha, hb.ids_eq, hv, Option.some.injEq] at hid
  exact ⟨j, hj, (hfield 0 (by omega)).trans hid.symm⟩

theorem dst_field (hb : Built kernelName added job s) (ha : job.Assigned)
    (h : run job.getJobDescriptor s = (.ok bytes, t)) {i : ℕ} (hi : i < added.length) :
    renamed (s.arrayIds added) (s.desc added[i]).dstIndexingArrayId = some (fieldAt bytes i 1) := by
  obtain ⟨r, hr, hfield⟩ := fieldAt_of_built hb ha h hi
  rw [hfield 1 (by omega), ← hb.ids_eq, ← hb.wellBuilt.map ha, (record?_eq_some hr).dst]
  rfl

structure ShowsRecord (ids : List UInt64) (d : PickleArrayDescriptor) (bytes : List UInt8) (i : ℕ) :
    Prop where
  id : ∃ j, Renaming.lastPosition ids d.arrayId = some j ∧ fieldAt bytes i 0 = UInt64.ofNat j
  dst : if d.dstIndexingArrayId = noDestination then fieldAt bytes i 1 = noDestination
    else ∃ j, Renaming.lastPosition ids d.dstIndexingArrayId = some j ∧
      fieldAt bytes i 1 = UInt64.ofNat j
  vaddrStart : fieldAt bytes i 2 = d.vaddrStart
  vaddrEnd : fieldAt bytes i 3 = d.vaddrEnd
  elementSize : fieldAt bytes i 4 = d.elementSize
  accessType : fieldAt bytes i 5 = d.accessType.toUInt64
  addressingMode : fieldAt bytes i 6 = d.addressingMode.toUInt64

theorem noDestination_not_mem_ids (hs : Reachable s) (hw : s.nextID < 2 ^ 64) (l : List Ptr) :
    noDestination ∉ s.arrayIds l := by
  intro hmem
  obtain ⟨p, -, hp⟩ := List.mem_map.mp hmem
  exact arrayId_ne_noDestination p hs.idsValid hw hp

theorem showsRecord (hb : Built kernelName added job s) (hw : s.nextID < 2 ^ 64)
    (h : run job.getJobDescriptor s = (.ok bytes, t)) {i : ℕ} (hi : i < added.length) :
    ShowsRecord (s.arrayIds added) (s.desc added[i]) bytes i := by
  have ha := hb.assigned hw.le
  have hdst := dst_field hb ha h hi
  obtain ⟨r, hr, hfield⟩ := fieldAt_of_built hb ha h hi
  have hrec := record?_eq_some hr
  refine ⟨id_field hb ha h hi, ?_, ?_, ?_, ?_, ?_, ?_⟩
  · split_ifs with hd
    · have hnone := noDestination_not_mem_ids hb.wellBuilt.reachable hw added
      rw [hd, renamed_not_mem hnone, if_pos rfl] at hdst
      exact (Option.some.inj hdst).symm
    · have hmem : (s.desc added[i]).dstIndexingArrayId ∈ s.arrayIds added :=
        (renamed_isSome.mp (Option.isSome_of_eq_some hdst)).resolve_right hd
      obtain ⟨j, hj, hv⟩ := renamed_mem hmem
      rw [hv] at hdst
      exact ⟨j, hj, (Option.some.inj hdst).symm⟩
  · exact (hfield 2 (by omega)).trans hrec.vaddrStart
  · exact (hfield 3 (by omega)).trans hrec.vaddrEnd
  · exact (hfield 4 (by omega)).trans hrec.elementSize
  · exact (hfield 5 (by omega)).trans hrec.accessType
  · exact (hfield 6 (by omega)).trans hrec.addressingMode

theorem getJobDescriptor_layout (hb : Built kernelName added job s) (hw : s.nextID < 2 ^ 64 - 1)
    (h : run job.getJobDescriptor s = (.ok bytes, t)) :
    bytes.length = 1 + 56 * added.length + kernelName.length ∧
      (∀ i (hi : i < added.length),
        ShowsRecord (s.arrayIds added) (s.desc added[i]) bytes i) ∧
      bytes.drop (1 + 56 * added.length) = kernelName := by
  refine ⟨?_, fun i hi => showsRecord hb (by omega) h hi, ?_⟩
  · obtain ⟨rs, rfl, hl, -⟩ := encoded_of_built hb (hb.assigned (by omega)) h
    rw [serialize_length, hl]
  · obtain ⟨rs, rfl, hl, -⟩ := encoded_of_built hb (hb.assigned (by omega)) h
    rw [← hl, serialize_drop]

theorem getJobDescriptor_layout_linkedJob :
    (serialize [7] linkedRecords).length = 1 + 56 * 2 + 1 ∧
      (∀ i (hi : i < [0, 1].length), ShowsRecord (linkedStore.arrayIds [0, 1])
        (linkedStore.desc [0, 1][i]) (serialize [7] linkedRecords) i) ∧
      (serialize [7] linkedRecords).drop (1 + 56 * 2) = [7] :=
  getJobDescriptor_layout built_linkedJob (by decide) run_linkedJob

theorem ids_nodup_iff (hb : Built kernelName added job s) (hw : s.nextID < 2 ^ 64) :
    (s.arrayIds added).Nodup ↔ added.Nodup := by
  refine ⟨List.Nodup.of_map _, fun hnd => hnd.map_on ?_⟩
  intro p hp q _ he
  have hnamed := hb.wellBuilt.named (hb.assigned hw.le) p (hb.arrays_eq ▸ hp)
  exact hb.wellBuilt.reachable.idsValid.distinct hw.le p q hnamed he

theorem ids_length_le (hnd : (s.arrayIds added).Nodup) : added.length ≤ 2 ^ 64 := by
  have hsub : (s.arrayIds added).map UInt64.toNat ⊆ List.range (2 ^ 64) := by
    intro n hn
    obtain ⟨id, -, rfl⟩ := List.mem_map.mp hn
    exact List.mem_range.mpr id.toNat_lt
  have hinj : ((s.arrayIds added).map UInt64.toNat).Nodup :=
    hnd.map fun a b h => UInt64.toNat_inj.mp h
  simpa using (hinj.subperm hsub).length_le

theorem ids_contiguous_iff (hb : Built kernelName added job s) (hw : s.nextID < 2 ^ 64)
    (h : run job.getJobDescriptor s = (.ok bytes, t)) :
    (List.range added.length).map (fun i => (fieldAt bytes i 0).toNat) =
      List.range added.length ↔ added.Nodup := by
  have ha := hb.assigned hw.le
  rw [← ids_nodup_iff hb hw]
  constructor
  · intro hall
    have hat : ∀ i < added.length, (fieldAt bytes i 0).toNat = i := by
      intro i hi
      simpa [hi] using congrArg (·[i]?) hall
    rw [Renaming.nodup_iff_lastPosition]
    intro i hi
    have hi' : i < added.length := by simpa using hi
    obtain ⟨j, hj, hf⟩ := id_field hb ha h hi'
    have hlast : (fieldAt bytes (added.length - 1) 0).toNat = added.length - 1 :=
      hat _ (by omega)
    have hlt := UInt64.toNat_lt (fieldAt bytes (added.length - 1) 0)
    have hjl : j < added.length := by simpa using Renaming.lastPosition_lt hj
    have he := hat i hi'
    rw [hf, UInt64.toNat_ofNat', Nat.mod_eq_of_lt (by omega)] at he
    rw [getElem_arrayIds s added hi', hj, he]
  · intro hnd
    have hn := ids_length_le hnd
    apply List.ext_getElem (by simp)
    intro i hi _
    have hi' : i < added.length := by simpa using hi
    obtain ⟨j, hj, hf⟩ := id_field hb ha h hi'
    have hii := Renaming.lastPosition_nodup hnd (i := i) (by simpa using hi')
    rw [getElem_arrayIds s added hi', hj, Option.some.injEq] at hii
    simp only [List.getElem_map, List.getElem_range, hf, UInt64.toNat_ofNat']
    rw [hii, Nat.mod_eq_of_lt (by omega)]

theorem ids_contiguous_linkedJob :
    (List.range 2).map (fun i => (fieldAt (serialize [7] linkedRecords) i 0).toNat) =
      List.range 2 :=
  (ids_contiguous_iff built_linkedJob (by decide) run_linkedJob).mpr (by decide)

theorem not_ids_contiguous :
    ¬ ∀ (kernelName : List UInt8) (added : List Ptr) (job : PickleJob) (s t : Store)
      (bytes : List UInt8), Built kernelName added job s → s.nextID < 2 ^ 64 →
      run job.getJobDescriptor s = (.ok bytes, t) →
      (List.range added.length).map (fun i => (fieldAt bytes i 0).toNat) =
        List.range added.length := by
  intro hall
  obtain ⟨job, s, hrun, -, -, hdst, hn⟩ := run_addArrayDescriptors (new []) [0, 0] init.alloc
  have hbuilt : Built [] [0, 0] job s := by
    refine (Built.new (.single (.newDescriptor init))).addArrayDescriptors ?_ hrun
    simp
  have hw : s.nextID < 2 ^ 64 := lt_of_le_of_lt hn (by decide)
  obtain ⟨rs, hget, -⟩ := getJobDescriptor_of_built hbuilt hw.le fun p hp => by
    obtain rfl : p = 0 := by simpa using hp
    rw [hdst]
    rfl
  have hids := hall [] [0, 0] job s s _ hbuilt hw hget
  obtain ⟨j, hj, hf⟩ := id_field hbuilt (hbuilt.assigned hw.le) hget (i := 0) (by decide)
  obtain rfl : 1 = j := by simpa [arrayIds, Renaming.lastPosition] using hj
  have hzero := congrArg (·[0]?) hids
  simp [hf] at hzero

end PickleJob

end PickleDevice
