import PickleDevice.JobFormat

namespace PickleDevice

open StateEffect ByteWords Store

def Record.read (bytes : List UInt8) : Record where
  id := wordAt bytes 0
  dst := wordAt bytes 8
  vaddrStart := wordAt bytes 16
  vaddrEnd := wordAt bytes 24
  elementSize := wordAt bytes 32
  accessType := wordAt bytes 40
  addressingMode := wordAt bytes 48

def readJob : List UInt8 → Option (List UInt8 × List Record)
  | [] => none
  | nArrays :: body => (readBlocks 56 Record.read nArrays.toNat body).map Prod.swap

theorem Record.read_bytes (r : Record) : Record.read r.bytes = r := by
  have hword : ∀ k (hk : k < 7), wordAt r.bytes (8 * k) = r.words[k] := by
    intro k hk
    rw [wordAt, ← r.word_at [] k hk, List.append_nil]
  rw [Record.mk.injEq]
  exact ⟨hword 0 (by omega), hword 1 (by omega), hword 2 (by omega), hword 3 (by omega),
    hword 4 (by omega), hword 5 (by omega), hword 6 (by omega)⟩

theorem Record.bytes_read {bytes : List UInt8} (h : bytes.length = 56) :
    (Record.read bytes).bytes = bytes := by
  have hwords : (Record.read bytes).words = (List.range 7).map fun k => wordAt bytes (8 * k) := rfl
  have hword : ∀ k ∈ List.range 7, word64 (wordAt bytes (8 * k)) = (bytes.drop (8 * k)).take 8 := by
    intro k hk
    have hk := List.mem_range.mp hk
    apply word64_readWord64
    rw [List.length_take, List.length_drop]
    omega
  rw [Record.bytes, hwords, List.flatMap_map, List.flatMap_congr hword, flatMap_take_drop,
    List.take_of_length_le h.le]

theorem readRecordBlocks_eq_some {n : ℕ} {body rest : List UInt8} {rs : List Record} :
    readBlocks 56 Record.read n body = some (rs, rest) ↔
      rs.length = n ∧ body = rs.flatMap Record.bytes ++ rest :=
  readBlocks_eq_some Record.bytes_length Record.read_bytes fun _ => Record.bytes_read

theorem readJob_eq_some {bytes kernelName : List UInt8} {rs : List Record} :
    readJob bytes = some (kernelName, rs) ↔ rs.length < 256 ∧ bytes = serialize kernelName rs := by
  constructor
  · intro h
    cases bytes with
    | nil => cases h
    | cons nArrays body =>
      obtain ⟨⟨rs', rest⟩, hblocks, he⟩ := Option.map_eq_some_iff.mp h
      obtain ⟨rfl, rfl⟩ := Prod.mk.inj he
      obtain ⟨hn, rfl⟩ := readRecordBlocks_eq_some.mp hblocks
      refine ⟨hn ▸ nArrays.toNat_lt, ?_⟩
      rw [serialize, hn, UInt8.ofNat_toNat]
  · rintro ⟨hlt, rfl⟩
    have hn : (UInt8.ofNat rs.length).toNat = rs.length := UInt8.toNat_ofNat_of_lt' hlt
    have hblocks : readBlocks 56 Record.read rs.length (rs.flatMap Record.bytes ++ kernelName) =
        some (rs, kernelName) := readRecordBlocks_eq_some.mpr ⟨rfl, rfl⟩
    rw [serialize, readJob, hn, hblocks]
    rfl

/-- Beyond 255 records the count is of the first ones only, and the others become part of the
name. -/
theorem serialize_eq (kernelName : List UInt8) (rs : List Record) :
    serialize kernelName rs =
      serialize ((rs.drop (rs.length % 256)).flatMap Record.bytes ++ kernelName)
        (rs.take (rs.length % 256)) := by
  have hle : rs.length % 256 ≤ rs.length := Nat.mod_le _ _
  have hcount : UInt8.ofNat rs.length = UInt8.ofNat (rs.length % 256) := by
    rw [← UInt8.toNat_inj]
    simp
  rw [serialize, serialize, List.length_take_of_le hle, ← hcount, ← List.append_assoc,
    ← List.flatMap_append, List.take_append_drop]

theorem readJob_serialize (kernelName : List UInt8) (rs : List Record) :
    readJob (serialize kernelName rs) =
      some ((rs.drop (rs.length % 256)).flatMap Record.bytes ++ kernelName,
        rs.take (rs.length % 256)) := by
  have hlt : (rs.take (rs.length % 256)).length < 256 := by
    rw [List.length_take]
    omega
  exact readJob_eq_some.mpr ⟨hlt, serialize_eq kernelName rs⟩

theorem readJob_serialize_iff (kernelName : List UInt8) (rs : List Record) :
    readJob (serialize kernelName rs) = some (kernelName, rs) ↔ rs.length < 256 := by
  rw [readJob_eq_some, and_iff_left rfl]

namespace PickleJob

theorem getJobDescriptor_read {job : PickleJob} {s t : Store} {bytes : List UInt8}
    (h : run job.getJobDescriptor s = (.ok bytes, t)) :
    ∃ rs, job.encodedRecords s = .ok rs ∧
      readJob bytes = some ((rs.drop (job.arrays.length % 256)).flatMap Record.bytes ++ job.kernelName,
        rs.take (job.arrays.length % 256)) ∧
      (readJob bytes = some (job.kernelName, rs) ↔ job.arrays.length < 256) := by
  obtain ⟨rs, hrs, hl, rfl⟩ := encodedRecords_eq_ok h
  rw [← hl]
  exact ⟨rs, hrs, readJob_serialize _ _, readJob_serialize_iff _ _⟩

theorem getJobDescriptor_read_linkedJob :
    ∃ rs, linkedJob.encodedRecords linkedStore = .ok rs ∧
      readJob (serialize [7] linkedRecords) =
        some ((rs.drop (2 % 256)).flatMap Record.bytes ++ [7], rs.take (2 % 256)) ∧
      (readJob (serialize [7] linkedRecords) = some ([7], rs) ↔ 2 < 256) :=
  getJobDescriptor_read run_linkedJob

end PickleJob

end PickleDevice
