import MachineVault.Proofs.Encoding
import MachineVault.Proofs.Frame
import MachineVault.Proofs.LeftToRight
import MachineVault.Proofs.RecordList

/-! Frames and lists of records have one form each. What is accepted for a value is what would be
written for it, byte for byte, and every value whose lengths fit into a word has such bytes. -/

namespace MachineVault

/-- A value is read from the bytes that are written for it, and from no others. -/
structure Exact {α ε : Type} (encode : α → Except FormatError Bytes) (decode : Bytes → Except ε α)
    (Fits : α → Prop) : Prop where
  accepts : ∀ {bytes a}, decode bytes = .ok a ↔ encode a = .ok bytes
  one_form : ∀ {a}, Fits a ↔ ∃! bytes, decode bytes = .ok a

/-- Where the same bytes are read and written, there is one form for each value that can be
written. -/
theorem Exact.of_accepts {α ε : Type} {encode : α → Except FormatError Bytes}
    {decode : Bytes → Except ε α} {Fits : α → Prop}
    (ha : ∀ {bytes a}, decode bytes = .ok a ↔ encode a = .ok bytes)
    (hf : ∀ {a}, Fits a ↔ ∃ bytes, encode a = .ok bytes) : Exact encode decode Fits where
  accepts := ha
  one_form {a} := by
    rw [hf]
    constructor
    · rintro ⟨bytes, hw⟩
      refine ⟨bytes, ha.mpr hw, fun bytes' hd => ?_⟩
      exact Except.ok.inj ((ha.mp hd).symm.trans hw)
    · rintro ⟨bytes, hd, _⟩
      exact ⟨bytes, ha.mp hd⟩

theorem Frame.exact (magic : Magic) :
    Exact (wrap magic) (unwrap magic) fun payload => payload.length < 2 ^ 32 := by
  refine .of_accepts ⟨wrap_of_unwrap, unwrap_wrap⟩ ⟨exists_wrap magic, ?_⟩
  rintro ⟨frame, hw⟩
  exact (wrap_eq_ok hw).1

namespace RecordList

/-- Records are read from the bytes that are written for them only. -/
theorem encode_of_reads {records : List Bytes} {bytes : Bytes} (h : read.Reads bytes records) :
    encode records = .ok bytes := by
  obtain ⟨version, first, rest₁, rfl, hv, h₁⟩ :=
    (Reader.Sequential.byte .version).reads_bind_iff.mp h
  obtain ⟨rfl, h₂⟩ := Reader.reads_check_iff.mp h₁
  obtain ⟨count, second, rest₂, rfl, hc, h₃⟩ :=
    (Reader.Sequential.word .recordCount).reads_bind_iff.mp h₂
  obtain ⟨hlt, rfl⟩ := Reader.reads_word_iff.mp hc
  have hitem {used record : Bytes} (hr : (Reader.counted .recordLength .record).Reads used record) :
      countedBytes record .recordLength = .ok used :=
    countedBytes_eq_ok.mpr (Reader.reads_counted_iff.mp hr)
  obtain ⟨rfl, parts, hp, rfl⟩ :=
    Reader.written_of_reads_replicate (.counted .recordLength .record) hitem h₃
  rw [Reader.reads_byte_iff.mp hv]
  exact encode_eq_ok_iff.mpr ⟨hlt, parts, hp, rfl⟩

theorem decode_eq_ok_iff {bytes : Bytes} {records : List Bytes} :
    decode bytes = .ok records ↔ encode records = .ok bytes :=
  ⟨fun h => encode_of_reads (sequential_read.run_eq_ok_iff.mp h), decode_encode⟩

theorem exact : Exact encode decode fun records =>
    records.length < 2 ^ 32 ∧ ∀ record ∈ records, record.length < 2 ^ 32 := by
  refine .of_accepts decode_eq_ok_iff ⟨fun h => exists_encode h.1 h.2, ?_⟩
  rintro ⟨bytes, hw⟩
  exact ⟨(encode_eq_ok_iff.mp hw).1, length_lt_of_encode hw⟩

example : decode [0, 0, 0, 0, 2, 0, 0, 0, 0, 0, 0, 0, 0] = .ok [[], []] := by decide

end RecordList

/-- Under every magic a payload has one frame, and a list of records has one blob. -/
theorem frames_and_records_exact :
    (∀ magic, Exact (Frame.wrap magic) (Frame.unwrap magic) fun payload => payload.length < 2 ^ 32) ∧
      Exact RecordList.encode RecordList.decode fun records =>
        records.length < 2 ^ 32 ∧ ∀ record ∈ records, record.length < 2 ^ 32 :=
  ⟨Frame.exact, RecordList.exact⟩

end MachineVault
