import MachineVault.ChunkIndex
import MachineVault.Proofs.Sequential
import MachineVault.RecordList
import MachineVault.Sections

/-! The three length-prefixed formats are read strictly from left to right. No accepted buffer is
the beginning of another one, a buffer that is cut ends too early, one that is too long is told by
how much, and any other fault is reported alike whatever follows it. -/

namespace MachineVault

/-- How the bytes that a decoder is given decide between success, too few and too many bytes. -/
structure LeftToRight {α : Type} (decode : Bytes → Except FormatError α) : Prop where
  cut : ∀ {bytes front a}, decode bytes = .ok a → front <+: bytes → front ≠ bytes →
    ∃ field, decode front = .error (.truncated field)
  extended : ∀ {bytes more a}, decode bytes = .ok a → more ≠ [] →
    decode (bytes ++ more) = .error (.trailingBytes more.length)
  trailing : ∀ {bytes n}, decode bytes = .error (.trailingBytes n) ↔
    0 < n ∧ ∃ front last a, bytes = front ++ last ∧ last.length = n ∧ decode front = .ok a
  faulty : ∀ {bytes e more}, decode bytes = .error e → (∀ field, e ≠ .truncated field) →
    (∀ n, e ≠ .trailingBytes n) → decode (bytes ++ more) = .error e

namespace Reader.Sequential

variable {α : Type} {r : Reader α} {bytes : Bytes}

theorem run_of_reads {used rest : Bytes} {a : α} (h : r.Reads used a) (hne : rest ≠ []) :
    r.run (used ++ rest) = .error (.trailingBytes rest.length) := by
  refine bind_eq_error.mpr (.inr ⟨(a, rest), h rest, ?_⟩)
  cases rest with
  | nil => exact absurd rfl hne
  | cons b rest => rfl

theorem run_of_error {e : FormatError} (h : r bytes = .error e) : r.run bytes = .error e :=
  bind_eq_error.mpr (.inl h)

/-- A whole buffer is refused by its reader, or for what stands behind the value. -/
theorem run_eq_error (hr : Sequential r) {e : FormatError} (h : r.run bytes = .error e) :
    r bytes = .error e ∨ ∃ used rest a, bytes = used ++ rest ∧ rest ≠ [] ∧ r.Reads used a ∧
      e = .trailingBytes rest.length := by
  rcases bind_eq_error.mp h with he | ⟨⟨a, rest⟩, ha, hend⟩
  · exact .inl he
  · obtain ⟨used, hsplit, hused⟩ := hr.taken ha
    cases rest with
    | nil => cases hend
    | cons b rest =>
      cases hend
      exact .inr ⟨used, b :: rest, a, hsplit, by simp, hused, rfl⟩

theorem leftToRight (hr : Sequential r) : LeftToRight r.run where
  cut h hp hne := by
    obtain ⟨field, he⟩ := hr.cut (hr.run_eq_ok_iff.mp h) hp hne
    exact ⟨field, run_of_error he⟩
  extended h hne := run_of_reads (hr.run_eq_ok_iff.mp h) hne
  trailing {bytes n} := by
    constructor
    · intro h
      rcases hr.run_eq_error h with he | ⟨used, rest, a, rfl, hne, hused, he⟩
      · rcases hr.refused he with ⟨field, ht⟩ | ⟨hn, _⟩
        · cases ht
        · exact absurd rfl (hn n)
      · cases he
        exact ⟨List.length_pos_iff.mpr hne, used, rest, a, rfl, rfl, hused.run⟩
    · rintro ⟨hpos, front, last, a, rfl, rfl, h⟩
      exact run_of_reads (hr.run_eq_ok_iff.mp h) (List.length_pos_iff.mp hpos)
  faulty {bytes e more} h htr htl := by
    rcases hr.run_eq_error h with he | ⟨_, rest, _, _, _, _, he⟩
    · rcases hr.refused he with ⟨field, ht⟩ | ⟨_, hmore⟩
      · exact absurd ht (htr field)
      · exact run_of_error (hmore more)
    · exact absurd he (htl rest.length)

end Reader.Sequential

open Reader (Sequential)

namespace ChunkIndex

theorem sequential_readOffset (field : Field) : Sequential (readOffset field) :=
  (Sequential.byte field).bind fun offset => .check nofun (.pure offset)

theorem sequential_readCoordinate (chunk : Int32) (offset : UInt8) (field : Field) :
    Sequential (readCoordinate chunk offset field) := by
  unfold readCoordinate
  split
  · exact .pure _
  · exact .throw nofun

theorem sequential_readEntry (chunk : ChunkPos) : Sequential (readEntry chunk) := by
  refine (Sequential.text .typeTag).bind fun tag => ?_
  refine (Sequential.text .worldName).bind fun world => ?_
  refine (sequential_readOffset .relX).bind fun offsetX => ?_
  refine (Sequential.byte .relY).bind fun y => ?_
  refine (sequential_readOffset .relZ).bind fun offsetZ => ?_
  refine (sequential_readCoordinate chunk.x offsetX .chunkX).bind fun x => ?_
  exact (sequential_readCoordinate chunk.z offsetZ .chunkZ).bind fun z => .pure _

theorem sequential_readEntries (n : Nat) (index : ChunkIndex) :
    Sequential (readEntries n index) := by
  induction n generalizing index with
  | zero => exact .pure index
  | succ n ih =>
    refine (sequential_readEntry index.chunk).bind fun entry => ?_
    dsimp only
    split
    · exact .throw nofun
    · exact ih (index.insert entry.1 entry.2)

theorem sequential_read : Sequential read := by
  refine (Sequential.byte .version).bind fun version => .check nofun ?_
  refine (Sequential.signedWord .chunkX).bind fun x => ?_
  refine (Sequential.signedWord .chunkZ).bind fun z => ?_
  refine (Sequential.byte .hasMachines).bind fun flag => ?_
  split
  · exact .pure _
  · refine .check nofun ?_
    exact (Sequential.word .entryCount).bind fun count => sequential_readEntries count ⟨⟨x, z⟩, ∅⟩

end ChunkIndex

theorem RecordList.sequential_read : RecordList.read.Sequential := by
  refine (Sequential.byte .version).bind fun version => .check nofun ?_
  refine (Sequential.word .recordCount).bind fun count => ?_
  exact (Sequential.counted .recordLength .record).replicate count

namespace Sections

theorem sequential_readSection : Sequential readSection := by
  refine (Sequential.text .sectionTag).bind fun tag => ?_
  exact (Sequential.counted .sectionData .sectionData).bind fun data => .pure (tag, data)

theorem sequential_read : Sequential read := by
  refine (Sequential.word .sectionCount).bind fun count => ?_
  exact (sequential_readSection.replicate count).bind fun sections => .pure (insertAll ∅ sections)

end Sections

/-- Indexes, lists of records and sections are all read in one pass from the front. -/
theorem decoders_leftToRight :
    LeftToRight ChunkIndex.decode ∧ LeftToRight RecordList.decode ∧ LeftToRight Sections.decode :=
  ⟨ChunkIndex.sequential_read.leftToRight, RecordList.sequential_read.leftToRight,
    Sections.sequential_read.leftToRight⟩

end MachineVault
