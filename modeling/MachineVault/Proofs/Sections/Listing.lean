import MachineVault.Proofs.Backing
import MachineVault.Proofs.LeftToRight
import MachineVault.Proofs.Sections
import MachineVault.Proofs.Text.Utf8

/-! The stored forms of the sections of a partition, byte by byte. Any list of sections is read, in
whatever order and with whatever tags repeated, the last section of a tag holds its bytes, and of
these forms the one that is written is the one with ascending tags. -/

namespace MachineVault

theorem mapM_eq_ok_iff {ε α β : Type} {f : α → Except ε β} {p : α → Prop} {g : α → β}
    (hf : ∀ {a b}, f a = .ok b ↔ p a ∧ b = g a) {as : List α} {bs : List β} :
    as.mapM f = .ok bs ↔ (∀ a ∈ as, p a) ∧ bs = as.map g := by
  induction as generalizing bs with
  | nil => simp [pure, Except.pure, eq_comm]
  | cons a as ih =>
    rw [List.mapM_cons, bind_eq_ok, List.forall_mem_cons, List.map_cons]
    constructor
    · rintro ⟨b, hb, h⟩
      obtain ⟨bs', hbs, h⟩ := bind_eq_ok.mp h
      obtain ⟨hp, rfl⟩ := hf.mp hb
      obtain ⟨hall, rfl⟩ := ih.mp hbs
      cases h
      exact ⟨⟨hp, hall⟩, rfl⟩
    · rintro ⟨⟨hp, hall⟩, rfl⟩
      exact ⟨g a, hf.mpr ⟨hp, rfl⟩, bind_eq_ok.mpr ⟨_, ih.mpr ⟨hall, rfl⟩, rfl⟩⟩

/-- The bytes of a tag are those of the last section that has it. -/
theorem lastBytes?_eq_some_iff {entries : List (String × Bytes)} {tag : String} {data : Bytes} :
    lastBytes? entries tag = some data ↔ ∃ before after,
      entries = before ++ (tag, data) :: after ∧ ∀ entry ∈ after, entry.1 ≠ tag := by
  rw [lastBytes?, List.lookup_eq_some_iff]
  constructor
  · rintro ⟨after, before, h, hafter⟩
    refine ⟨before.reverse, after.reverse, ?_, fun entry he => ?_⟩
    · rw [← List.reverse_reverse entries, h]
      simp
    · exact (bne_iff_ne.mp (hafter entry (List.mem_reverse.mp he))).symm
  · rintro ⟨before, after, rfl, hafter⟩
    refine ⟨after.reverse, before.reverse, by simp, fun entry he => ?_⟩
    exact bne_iff_ne.mpr (hafter entry (List.mem_reverse.mp he)).symm

namespace Sections

variable {entries : List (String × Bytes)} {entry : String × Bytes} {sections : Sections}
  {bytes : Bytes}

/-- A section as bytes: its tag and its data, each behind its length. -/
def sectionBytes (entry : String × Bytes) : Bytes :=
  bigEndian 4 (Text.encode entry.1).length ++ Text.encode entry.1 ++
    (bigEndian 4 entry.2.length ++ entry.2)

/-- A count and that many sections, as they stand one behind the other. -/
def listing (entries : List (String × Bytes)) : Bytes :=
  bigEndian 4 entries.length ++ (entries.map sectionBytes).flatten

/-- The lengths of a section fit into words. -/
def EntryFits (entry : String × Bytes) : Prop :=
  (Text.encode entry.1).length < 2 ^ 32 ∧ entry.2.length < 2 ^ 32

/-- The bytes are a count and that many sections and nothing else. -/
structure Lists (bytes : Bytes) (entries : List (String × Bytes)) : Prop where
  count : entries.length < 2 ^ 32
  fits : ∀ entry ∈ entries, EntryFits entry
  bytes : bytes = listing entries

/-- Each tag that occurs has the bytes of its last section, and no other tag has any. -/
def HoldsLast (sections : Sections) (entries : List (String × Bytes)) : Prop :=
  ∀ tag data, sections[tag]? = some data ↔ ∃ before after,
    entries = before ++ (tag, data) :: after ∧ ∀ entry ∈ after, entry.1 ≠ tag

theorem encodeSection_eq_ok_iff {written : Bytes} :
    encodeSection entry = .ok written ↔ EntryFits entry ∧ written = sectionBytes entry := by
  simp only [encodeSection, bind_eq_ok, countedBytes_eq_ok]
  constructor
  · rintro ⟨tag, ⟨ht, rfl⟩, data, ⟨hd, rfl⟩, h⟩
    cases h
    exact ⟨⟨ht, hd⟩, rfl⟩
  · rintro ⟨⟨ht, hd⟩, rfl⟩
    exact ⟨_, ⟨ht, rfl⟩, _, ⟨hd, rfl⟩, rfl⟩

theorem encode_eq_ok_iff_lists : encode sections = .ok bytes ↔ Lists bytes sections.toList := by
  simp only [encode, bind_eq_ok, lengthWord_eq_ok, mapM_eq_ok_iff encodeSection_eq_ok_iff,
    ← Std.ExtTreeMap.length_toList]
  constructor
  · rintro ⟨count, ⟨hc, rfl⟩, parts, ⟨hall, rfl⟩, h⟩
    cases h
    exact ⟨hc, hall, rfl⟩
  · rintro ⟨hc, hall, rfl⟩
    exact ⟨_, ⟨hc, rfl⟩, _, ⟨hall, rfl⟩, rfl⟩

theorem reads_readSection_iff {used : Bytes} :
    readSection.Reads used entry ↔ EntryFits entry ∧ used = sectionBytes entry := by
  constructor
  · intro h
    obtain ⟨tag, tagBytes, rest, rfl, ht, h⟩ :=
      (Reader.Sequential.text .sectionTag).reads_bind_iff.mp h
    obtain ⟨data, hd, rfl⟩ :=
      (Reader.reads_map_iff (.counted .sectionData .sectionData)).mp h
    obtain ⟨htl, rfl⟩ := Reader.reads_text_iff.mp ht
    obtain ⟨hdl, rfl⟩ := Reader.reads_counted_iff.mp hd
    exact ⟨⟨htl, hdl⟩, rfl⟩
  · rintro ⟨hf, rfl⟩
    exact reads_section (encodeSection_eq_ok_iff.mpr ⟨hf, rfl⟩)

theorem reads_replicate_iff {count : Nat} {used : Bytes} :
    (Reader.replicate readSection count).Reads used entries ↔ entries.length = count ∧
      (∀ entry ∈ entries, EntryFits entry) ∧ used = (entries.map sectionBytes).flatten := by
  constructor
  · intro h
    obtain ⟨hl, parts, hp, rfl⟩ := Reader.written_of_reads_replicate sequential_readSection
      (fun hr => encodeSection_eq_ok_iff.mpr (reads_readSection_iff.mp hr)) h
    obtain ⟨hall, rfl⟩ := (mapM_eq_ok_iff encodeSection_eq_ok_iff).mp hp
    exact ⟨hl, hall, rfl⟩
  · rintro ⟨rfl, hall, rfl⟩
    exact Reader.reads_replicate (fun _ _ hw => reads_section hw) entries _
      ((mapM_eq_ok_iff encodeSection_eq_ok_iff).mpr ⟨hall, rfl⟩)

/-- Sections are read one by one and added, whatever is there of their tags already. -/
theorem decode_eq_ok_iff_lists :
    decode bytes = .ok sections ↔ ∃ entries, Lists bytes entries ∧ insertAll ∅ entries = sections := by
  rw [decode, sequential_read.run_eq_ok_iff, read,
    (Reader.Sequential.word .sectionCount).reads_bind_iff]
  constructor
  · rintro ⟨count, countBytes, rest, rfl, hc, h⟩
    obtain ⟨entries, he, rfl⟩ := (Reader.reads_map_iff (sequential_readSection.replicate count)).mp h
    obtain ⟨hlt, rfl⟩ := Reader.reads_word_iff.mp hc
    obtain ⟨rfl, hall, rfl⟩ := reads_replicate_iff.mp he
    exact ⟨entries, ⟨hlt, hall, rfl⟩, rfl⟩
  · rintro ⟨entries, ⟨hlt, hall, rfl⟩, rfl⟩
    refine ⟨_, _, _, rfl, Reader.reads_word hlt .sectionCount, ?_⟩
    refine (Reader.reads_map_iff (sequential_readSection.replicate _)).mpr ⟨entries, ?_, rfl⟩
    exact reads_replicate_iff.mpr ⟨rfl, hall, rfl⟩

/-- The same bytes list the same sections. -/
theorem Lists.unique {entries' : List (String × Bytes)} (h : Lists bytes entries)
    (h' : Lists bytes entries') : entries = entries' := by
  have hreads {l : List (String × Bytes)} (hl : Lists bytes l) : Reader.Reads (do
      let count ← Reader.word .sectionCount
      Reader.replicate readSection count) bytes l := by
    rw [hl.bytes, listing]
    exact (Reader.reads_word hl.count .sectionCount).bind
      (reads_replicate_iff.mpr ⟨rfl, hl.fits, rfl⟩)
  have hsame : bytes ++ [] = bytes ++ [] := rfl
  exact ((hreads h).unique (hreads h') hsame).1

theorem holdsLast_iff : HoldsLast sections entries ↔ insertAll ∅ entries = sections := by
  have hget (tag : String) (data : Bytes) : (insertAll ∅ entries)[tag]? = some data ↔
      ∃ before after, entries = before ++ (tag, data) :: after ∧ ∀ entry ∈ after, entry.1 ≠ tag := by
    rw [getElem?_insertAll, Std.ExtTreeMap.getElem?_empty, Option.or_none, lastBytes?_eq_some_iff]
  constructor
  · intro h
    refine Std.ExtTreeMap.ext_getElem? fun tag => Option.ext fun data => ?_
    exact (hget tag data).trans (h tag data).symm
  · rintro rfl
    exact hget

/-- Ascending in the order of bytes. -/
theorem ascending_iff :
    Ascending entries ↔ entries.Pairwise fun a b => Text.encode a.1 < Text.encode b.1 := by
  simp only [Ascending, Text.compare_eq_lt_iff]

/-- Sections in ascending order are those of the map that they make. -/
theorem toList_insertAll (h : Ascending entries) : (insertAll ∅ entries).toList = entries := by
  have hmap : insertAll ∅ entries = Std.ExtTreeMap.ofList entries :=
    (Std.ExtTreeMap.ofList_eq_foldl ..).symm
  rw [hmap, toList_ofList h]

/-- Every map whose lengths fit is written and read back. Bytes are read exactly if they list
sections, of which the last one of each tag counts, and the map is written as these bytes exactly if
the tags ascend in the order of their bytes. -/
theorem codec_lastWins (sections : Sections) (bytes : Bytes) :
    (sections.size < 2 ^ 32 ∧ (∀ entry ∈ sections.toList, EntryFits entry) ↔
      ∃ written, encode sections = .ok written ∧ decode written = .ok sections) ∧
    (decode bytes = .ok sections ↔
      ∃ entries, Lists bytes entries ∧ HoldsLast sections entries) ∧
    ∀ entries, Lists bytes entries → HoldsLast sections entries →
      (encode sections = .ok bytes ↔
        entries.Pairwise fun a b => Text.encode a.1 < Text.encode b.1) := by
  refine ⟨?_, ?_, fun entries hl hlast => ?_⟩
  · rw [← Std.ExtTreeMap.length_toList]
    constructor
    · rintro ⟨hc, hall⟩
      have hw : encode sections = .ok _ := encode_eq_ok_iff_lists.mpr ⟨hc, hall, rfl⟩
      exact ⟨_, hw, decode_encode hw⟩
    · rintro ⟨written, hw, -⟩
      obtain ⟨hc, hall, -⟩ := encode_eq_ok_iff_lists.mp hw
      exact ⟨hc, hall⟩
  · simp only [decode_eq_ok_iff_lists, holdsLast_iff]
  · obtain rfl := holdsLast_iff.mp hlast
    rw [encode_eq_ok_iff_lists, ← ascending_iff]
    constructor
    · intro hw
      rw [hl.unique hw]
      exact ascending_toList _
    · intro ha
      rw [toList_insertAll ha]
      exact hl

example : (decode [0, 0, 0, 2, 0, 0, 0, 1, 97, 0, 0, 0, 1, 1, 0, 0, 0, 1, 97, 0, 0, 0, 0]).map
    (·["a"]?) = .ok (some []) := by cbv

end Sections

end MachineVault
