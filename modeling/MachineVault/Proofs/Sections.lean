import MachineVault.Proofs.Ascending
import MachineVault.Proofs.Wire
import MachineVault.Sections

/-! The sections of a partition read back as they were written, and they can be written as long as
their stored form is shorter than a word can say. -/

namespace MachineVault.Sections

theorem reads_section {entry : String × Bytes} {written : Bytes}
    (h : encodeSection entry = .ok written) : readSection.Reads written entry := by
  obtain ⟨tag, ht, h⟩ := bind_eq_ok.mp h
  obtain ⟨data, hd, h⟩ := bind_eq_ok.mp h
  cases h
  refine (Reader.reads_text ht .sectionTag).bind ?_
  exact (Reader.reads_counted hd .sectionData .sectionData).last (Reader.Reads.pure entry)

theorem decode_encode {sections : Sections} {bytes : Bytes} (h : sections.encode = .ok bytes) :
    decode bytes = .ok sections := by
  obtain ⟨count, hc, h⟩ := bind_eq_ok.mp h
  obtain ⟨parts, hp, h⟩ := bind_eq_ok.mp h
  obtain ⟨hl, rfl⟩ := lengthWord_eq_ok.mp hc
  cases h
  have hitems := Reader.reads_replicate (fun _ _ hw => reads_section hw) _ _ hp
  rw [Std.ExtTreeMap.length_toList] at hitems
  refine Reader.Reads.run ((Reader.reads_word hl .sectionCount).bind (hitems.last ?_))
  rw [insertAll, foldl_insert_toList]
  exact Reader.Reads.pure sections

/-- The length of the stored form of some sections, without the count in front. -/
def entriesLength : List (String × Bytes) → Nat
  | [] => 0
  | entry :: rest => 8 + (Text.encode entry.1).length + entry.2.length + entriesLength rest

/-- The length of the stored form. -/
def storedLength (sections : Sections) : Nat := 4 + entriesLength sections.toList

theorem length_le_entriesLength (entries : List (String × Bytes)) :
    entries.length ≤ entriesLength entries := by
  induction entries with
  | nil => exact Nat.le_refl 0
  | cons entry rest ih =>
    rw [List.length_cons, entriesLength]
    omega

theorem exists_encodeSection {entry : String × Bytes} (ht : (Text.encode entry.1).length < 2 ^ 32)
    (hd : entry.2.length < 2 ^ 32) : ∃ written, encodeSection entry = .ok written ∧
      written.length = 8 + (Text.encode entry.1).length + entry.2.length := by
  refine ⟨_, bind_eq_ok.mpr ⟨_, countedBytes_eq_ok.mpr ⟨ht, rfl⟩,
    bind_eq_ok.mpr ⟨_, countedBytes_eq_ok.mpr ⟨hd, rfl⟩, rfl⟩⟩, ?_⟩
  simp only [List.length_append, length_bigEndian]
  omega

theorem exists_encodeSections {entries : List (String × Bytes)}
    (h : entriesLength entries < 2 ^ 32) : ∃ parts, entries.mapM encodeSection = .ok parts ∧
      parts.flatten.length = entriesLength entries := by
  induction entries with
  | nil => exact ⟨[], rfl, rfl⟩
  | cons entry rest ih =>
    rw [entriesLength] at h
    obtain ⟨written, hw, hlw⟩ := @exists_encodeSection entry (by omega) (by omega)
    obtain ⟨parts, hp, hlp⟩ := ih (by omega)
    refine ⟨written :: parts, ?_, ?_⟩
    · rw [List.mapM_cons, hw, hp]
      rfl
    · rw [List.flatten_cons, List.length_append, hlw, hlp, entriesLength]

/-- Sections can be written whose stored form is short enough. -/
theorem exists_encode {sections : Sections} (h : sections.storedLength < 2 ^ 32) :
    ∃ bytes, sections.encode = .ok bytes ∧ bytes.length = sections.storedLength := by
  unfold storedLength at h
  have hsize := length_le_entriesLength sections.toList
  rw [Std.ExtTreeMap.length_toList] at hsize
  obtain ⟨parts, hp, hl⟩ := @exists_encodeSections sections.toList (by omega)
  refine ⟨_, bind_eq_ok.mpr ⟨_, lengthWord_eq_ok.mpr ⟨by omega, rfl⟩,
    bind_eq_ok.mpr ⟨parts, hp, rfl⟩⟩, ?_⟩
  rw [List.length_append, length_bigEndian, hl, storedLength]

end MachineVault.Sections
