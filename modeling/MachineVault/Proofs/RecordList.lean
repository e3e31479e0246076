import MachineVault.RecordList
import MachineVault.Proofs.Wire

/-! A written data blob reads back as the records it was written from. -/

namespace MachineVault.RecordList

theorem encode_eq_ok_iff {records : List Bytes} {bytes : Bytes} : encode records = .ok bytes ↔
    records.length < 2 ^ 32 ∧ ∃ parts,
      (records.mapM fun record => countedBytes record .recordLength) = .ok parts ∧
        bytes = formatVersion :: bigEndian 4 records.length ++ parts.flatten := by
  constructor
  · intro h
    obtain ⟨count, hc, h⟩ := bind_eq_ok.mp h
    obtain ⟨parts, hp, h⟩ := bind_eq_ok.mp h
    obtain ⟨hl, rfl⟩ := lengthWord_eq_ok.mp hc
    cases h
    exact ⟨hl, parts, hp, rfl⟩
  · rintro ⟨hl, parts, hp, rfl⟩
    exact bind_eq_ok.mpr ⟨_, lengthWord_eq_ok.mpr ⟨hl, rfl⟩, bind_eq_ok.mpr ⟨parts, hp, rfl⟩⟩

theorem reads_read {records : List Bytes} {bytes : Bytes} (h : encode records = .ok bytes) :
    read.Reads bytes records := by
  obtain ⟨hl, parts, hp, rfl⟩ := encode_eq_ok_iff.mp h
  refine (Reader.reads_byte formatVersion .version).bind ?_
  simp only [if_true]
  refine (Reader.reads_word hl .recordCount).bind ?_
  exact Reader.reads_replicate (fun _ _ hw => Reader.reads_counted hw .recordLength .record)
    records parts hp

theorem decode_encode {records : List Bytes} {bytes : Bytes} (h : encode records = .ok bytes) :
    decode bytes = .ok records :=
  (reads_read h).run

/-- What can be written has records of a length that fits. -/
theorem length_lt_of_encode {records : List Bytes} {bytes : Bytes}
    (h : encode records = .ok bytes) : ∀ record ∈ records, record.length < 2 ^ 32 := by
  intro record hr
  obtain ⟨_, parts, hp, _⟩ := encode_eq_ok_iff.mp h
  obtain ⟨written, hw⟩ := mapM_eq_ok_mem hp record hr
  exact (countedBytes_eq_ok.mp hw).1

end MachineVault.RecordList
