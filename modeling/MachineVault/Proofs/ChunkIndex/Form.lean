import MachineVault.Proofs.Encoding
import MachineVault.Proofs.LeftToRight

/-! The stored forms of an index, byte by byte. An index is read from exactly the bytes that list
its entries, in any order, and of these forms the one that is written is the ascending one. -/

namespace MachineVault.ChunkIndex

/-- The bytes of a text, behind their length. -/
def textBytes (s : String) : Bytes := bigEndian 4 (Text.encode s).length ++ Text.encode s

/-- An entry as its bytes give it, with offsets from the corner of a chunk. -/
structure StoredEntry where
  tag : String
  world : String
  offsetX : UInt8
  height : UInt8
  offsetZ : UInt8

namespace StoredEntry

def bytes (e : StoredEntry) : Bytes :=
  textBytes e.tag ++ (textBytes e.world ++ [e.offsetX, e.height, e.offsetZ])

/-- The block that the entry stands for in a chunk. -/
def block (chunk : ChunkPos) (e : StoredEntry) : Block :=
  ⟨e.world, Int32.ofInt (chunk.x.toInt * 16 + e.offsetX.toNat), Int32.ofNat e.height.toNat,
    Int32.ofInt (chunk.z.toInt * 16 + e.offsetZ.toNat)⟩

def entry (chunk : ChunkPos) (e : StoredEntry) : Block × String := (e.block chunk, e.tag)

/-- The entry can stand in the index of a chunk. -/
structure Fits (chunk : ChunkPos) (e : StoredEntry) : Prop where
  tag : (Text.encode e.tag).length < 2 ^ 32
  world : (Text.encode e.world).length < 2 ^ 32
  offsetX : e.offsetX.toNat < 16
  offsetZ : e.offsetZ.toNat < 16
  x : FitsInt32 (chunk.x.toInt * 16 + e.offsetX.toNat)
  z : FitsInt32 (chunk.z.toInt * 16 + e.offsetZ.toNat)

end StoredEntry

/-- What stands behind the position of the chunk: the flag 0 alone, or the flag 1 and a counted
list of entries. -/
inductive Form
  | bare
  | listing (entries : List StoredEntry)

namespace Form

def entries : Form → List StoredEntry
  | bare => []
  | listing entries => entries

def bytes (chunk : ChunkPos) : Form → Bytes
  | bare => header chunk ++ [0]
  | listing entries =>
    header chunk ++ 1 :: (bigEndian 4 entries.length ++ (entries.map StoredEntry.bytes).flatten)

/-- The form stands for an index: its entries fit, are at different blocks, and are exactly those
of the index. -/
structure Describes (form : Form) (index : ChunkIndex) : Prop where
  count : form.entries.length < 2 ^ 32
  fits : ∀ e ∈ form.entries, e.Fits index.chunk
  distinct : (form.entries.map (StoredEntry.block index.chunk)).Nodup
  holds : ∀ block tag, index.get? block = some tag ↔
    ∃ e ∈ form.entries, e.block index.chunk = block ∧ e.tag = tag

/-- Ascending entries, and no list where there is none. -/
structure Canonical (form : Form) (chunk : ChunkPos) : Prop where
  ascending : Ascending (form.entries.map (StoredEntry.entry chunk))
  nonempty : form ≠ listing []

end Form

theorem blockAt?_eq_some_iff_fits {chunk v : Int32} {offset : UInt8} (h : offset.toNat < 16) :
    blockAt? chunk offset = some v ↔ FitsInt32 (chunk.toInt * 16 + offset.toNat) ∧
      v = Int32.ofInt (chunk.toInt * 16 + offset.toNat) := by
  rw [blockAt?_eq_some_iff h]
  constructor
  · intro hv
    have hl := v.le_toInt
    have hu := v.toInt_lt
    rw [← hv]
    exact ⟨⟨by omega, by omega⟩, by simp⟩
  · rintro ⟨⟨hl, hu⟩, rfl⟩
    exact Int32.toInt_ofInt_of_le hl (by omega)

theorem reads_readOffset_iff {field : Field} {used : Bytes} {offset : UInt8} :
    (readOffset field).Reads used offset ↔ used = [offset] ∧ offset.toNat < 16 := by
  constructor
  · intro h
    obtain ⟨b, first, second, rfl, hb, h⟩ := (Reader.Sequential.byte field).reads_bind_iff.mp h
    obtain ⟨hlt, h⟩ := Reader.reads_check_iff.mp h
    obtain ⟨rfl, rfl⟩ := Reader.reads_pure_iff.mp h
    rw [Reader.reads_byte_iff.mp hb]
    exact ⟨rfl, hlt⟩
  · rintro ⟨rfl, hlt⟩
    refine (Reader.reads_byte offset field).last ?_
    exact Reader.reads_check_iff.mpr ⟨hlt, Reader.Reads.pure offset⟩

theorem reads_readCoordinate_iff {chunk v : Int32} {offset : UInt8} {field : Field} {used : Bytes}
    (h : offset.toNat < 16) : (readCoordinate chunk offset field).Reads used v ↔
      used = [] ∧ FitsInt32 (chunk.toInt * 16 + offset.toNat) ∧
        v = Int32.ofInt (chunk.toInt * 16 + offset.toNat) := by
  rw [← blockAt?_eq_some_iff_fits h, readCoordinate]
  cases hb : blockAt? chunk offset with
  | none =>
    refine ⟨fun h => ?_, fun h => by cases h.2⟩
    cases h []
  | some v' =>
    rw [Option.some.injEq]
    exact Reader.reads_pure_iff

/-- An entry is read from its own bytes and from no others. -/
theorem reads_readEntry_iff {chunk : ChunkPos} {used : Bytes} {entry : Block × String} :
    (readEntry chunk).Reads used entry ↔
      ∃ e : StoredEntry, e.Fits chunk ∧ used = e.bytes ∧ entry = e.entry chunk := by
  constructor
  · intro h
    obtain ⟨tag, tagBytes, rest, rfl, ht, h⟩ :=
      (Reader.Sequential.text .typeTag).reads_bind_iff.mp h
    obtain ⟨world, worldBytes, rest, rfl, hw, h⟩ :=
      (Reader.Sequential.text .worldName).reads_bind_iff.mp h
    obtain ⟨offsetX, xBytes, rest, rfl, hox, h⟩ := (sequential_readOffset .relX).reads_bind_iff.mp h
    obtain ⟨height, yBytes, rest, rfl, hy, h⟩ := (Reader.Sequential.byte .relY).reads_bind_iff.mp h
    obtain ⟨offsetZ, zBytes, rest, rfl, hoz, h⟩ := (sequential_readOffset .relZ).reads_bind_iff.mp h
    obtain ⟨x, none, rest, rfl, hx, h⟩ :=
      (sequential_readCoordinate chunk.x offsetX .chunkX).reads_bind_iff.mp h
    obtain ⟨z, none', rest, rfl, hz, h⟩ :=
      (sequential_readCoordinate chunk.z offsetZ .chunkZ).reads_bind_iff.mp h
    obtain ⟨rfl, rfl⟩ := Reader.reads_pure_iff.mp h
    obtain ⟨htl, rfl⟩ := Reader.reads_text_iff.mp ht
    obtain ⟨hwl, rfl⟩ := Reader.reads_text_iff.mp hw
    obtain ⟨rfl, hoxl⟩ := reads_readOffset_iff.mp hox
    obtain ⟨rfl, hozl⟩ := reads_readOffset_iff.mp hoz
    obtain ⟨rfl, hxf, rfl⟩ := (reads_readCoordinate_iff hoxl).mp hx
    obtain ⟨rfl, hzf, rfl⟩ := (reads_readCoordinate_iff hozl).mp hz
    rw [Reader.reads_byte_iff.mp hy]
    exact ⟨⟨tag, world, offsetX, height, offsetZ⟩, ⟨htl, hwl, hoxl, hozl, hxf, hzf⟩, rfl, rfl⟩
  · rintro ⟨e, he, rfl, rfl⟩
    have hx : (readOffset .relX).Reads [e.offsetX] e.offsetX :=
      reads_readOffset_iff.mpr ⟨rfl, he.offsetX⟩
    refine (Reader.reads_text_iff.mpr ⟨he.tag, rfl⟩).bind ?_
    refine (Reader.reads_text_iff.mpr ⟨he.world, rfl⟩).bind ?_
    refine hx.bind ((Reader.reads_byte e.height .relY).bind ?_)
    refine (reads_readOffset_iff.mpr ⟨rfl, he.offsetZ⟩).last ?_
    refine ((reads_readCoordinate_iff he.offsetX).mpr ⟨rfl, he.x, rfl⟩).first ?_
    refine ((reads_readCoordinate_iff he.offsetZ).mpr ⟨rfl, he.z, rfl⟩).first ?_
    exact Reader.Reads.pure _

theorem reads_readEntries_succ_iff {n : Nat} {index index' : ChunkIndex} {used : Bytes} :
    (readEntries (n + 1) index).Reads used index' ↔ ∃ (e : StoredEntry) (rest : Bytes),
      used = e.bytes ++ rest ∧ e.Fits index.chunk ∧ e.block index.chunk ∉ index.entries ∧
      (readEntries n (index.insert (e.block index.chunk) e.tag)).Reads rest index' := by
  rw [readEntries, (sequential_readEntry index.chunk).reads_bind_iff]
  constructor
  · rintro ⟨entry, first, rest, rfl, he, h⟩
    obtain ⟨e, hf, rfl, rfl⟩ := reads_readEntry_iff.mp he
    by_cases hm : index.entries.contains (e.block index.chunk)
    · simp only [StoredEntry.entry, hm, if_true] at h
      cases h []
    · simp only [StoredEntry.entry, hm, if_false, Bool.false_eq_true] at h
      exact ⟨e, rest, rfl, hf, hm, h⟩
  · rintro ⟨e, rest, rfl, hf, hm, h⟩
    refine ⟨e.entry index.chunk, e.bytes, rest, rfl, reads_readEntry_iff.mpr ⟨e, hf, rfl, rfl⟩, ?_⟩
    rw [Std.ExtTreeMap.mem_iff_contains] at hm
    simp only [StoredEntry.entry, hm]
    exact h

/-- Entries at different blocks are read one by one and added. -/
theorem reads_readEntries_iff {n : Nat} {index index' : ChunkIndex} {used : Bytes} :
    (readEntries n index).Reads used index' ↔ ∃ entries : List StoredEntry,
      entries.length = n ∧ used = (entries.map StoredEntry.bytes).flatten ∧
      (∀ e ∈ entries, e.Fits index.chunk ∧ e.block index.chunk ∉ index.entries) ∧
      (entries.map (StoredEntry.block index.chunk)).Nodup ∧
      index' = (entries.map (StoredEntry.entry index.chunk)).foldl
        (fun index e => index.insert e.1 e.2) index := by
  induction n generalizing index used with
  | zero =>
    constructor
    · intro h
      obtain ⟨rfl, rfl⟩ := Reader.reads_pure_iff.mp h
      exact ⟨[], rfl, rfl, nofun, List.nodup_nil, rfl⟩
    · rintro ⟨entries, hl, rfl, _, _, rfl⟩
      rw [List.length_eq_zero_iff.mp hl]
      exact Reader.Reads.pure index
  | succ n ih =>
    -- A block is new to the index with the first entry if it is neither in the index nor that of
    -- the first entry.
    have hstep (e e' : StoredEntry) : e'.block index.chunk ∉
        (index.insert (e.block index.chunk) e.tag).entries ↔
          e.block index.chunk ≠ e'.block index.chunk ∧ e'.block index.chunk ∉ index.entries := by
      simp [insert, Std.ExtTreeMap.mem_insert]
    rw [reads_readEntries_succ_iff]
    constructor
    · rintro ⟨e, rest, rfl, hf, hm, h⟩
      obtain ⟨entries, rfl, rfl, hall, hnodup, rfl⟩ := ih.mp h
      refine ⟨e :: entries, rfl, rfl, ?_, ?_, rfl⟩
      · rw [List.forall_mem_cons]
        exact ⟨⟨hf, hm⟩, fun e' he' => ⟨(hall e' he').1, ((hstep e e').mp (hall e' he').2).2⟩⟩
      · rw [List.map_cons, List.nodup_cons]
        refine ⟨fun hmem => ?_, hnodup⟩
        obtain ⟨e', he', heq⟩ := List.mem_map.mp hmem
        exact ((hstep e e').mp (hall e' he').2).1 heq.symm
    · rintro ⟨entries, hl, rfl, hall, hnodup, rfl⟩
      cases entries with
      | nil => cases hl
      | cons e entries =>
        rw [List.forall_mem_cons] at hall
        rw [List.map_cons, List.nodup_cons] at hnodup
        refine ⟨e, _, rfl, hall.1.1, hall.1.2, ih.mpr ⟨entries, ?_, rfl, ?_, hnodup.2, rfl⟩⟩
        · simpa using hl
        · intro e' he'
          refine ⟨(hall.2 e' he').1, (hstep e e').mpr ⟨?_, (hall.2 e' he').2⟩⟩
          intro heq
          exact hnodup.1 (List.mem_map.mpr ⟨e', he', heq.symm⟩)

/-- Entries at different blocks make up one index. -/
theorem holds_iff {index : ChunkIndex} {entries : List StoredEntry}
    (h : (entries.map (StoredEntry.block index.chunk)).Nodup) :
    (∀ block tag, index.get? block = some tag ↔
      ∃ e ∈ entries, e.block index.chunk = block ∧ e.tag = tag) ↔
      (entries.map (StoredEntry.entry index.chunk)).foldl
        (fun index e => index.insert e.1 e.2) ⟨index.chunk, ∅⟩ = index := by
  have hkeys : ((entries.map (StoredEntry.entry index.chunk)).map Prod.fst).Nodup := by
    rw [List.map_map]
    exact h
  have hmem (block : Block) (tag : String) :
      (block, tag) ∈ entries.map (StoredEntry.entry index.chunk) ↔
        ∃ e ∈ entries, e.block index.chunk = block ∧ e.tag = tag := by
    simp [StoredEntry.entry]
  rw [entries_foldl_insert, ← Std.ExtTreeMap.ofList_eq_foldl]
  constructor
  · intro hholds
    have hentries : Std.ExtTreeMap.ofList (entries.map (StoredEntry.entry index.chunk)) =
        index.entries := by
      refine Std.ExtTreeMap.ext_getElem? fun block => Option.ext fun tag => ?_
      rw [getElem?_ofList_of_nodup hkeys, hmem, ← hholds]
      rfl
    rw [hentries]
  · intro heq block tag
    have hget := getElem?_ofList_of_nodup hkeys block tag
    rw [← hmem, ← hget, get?, ← heq]

theorem exists_header_of_reads {index : ChunkIndex} {used : Bytes} (h : read.Reads used index) :
    ∃ (chunk : ChunkPos) (flag : UInt8) (rest : Bytes), used = header chunk ++ flag :: rest ∧
      Reader.Reads (if flag = 0 then pure ⟨chunk, ∅⟩ else do
        unless flag = 1 do throw (.outOfRange .hasMachines flag.toNat)
        let count ← Reader.word .entryCount
        readEntries count ⟨chunk, ∅⟩) rest index := by
  obtain ⟨version, first, rest₁, rfl, hv, h₁⟩ :=
    (Reader.Sequential.byte .version).reads_bind_iff.mp h
  obtain ⟨rfl, h₂⟩ := Reader.reads_check_iff.mp h₁
  obtain ⟨x, xBytes, rest₂, rfl, hx, h₃⟩ :=
    (Reader.Sequential.signedWord .chunkX).reads_bind_iff.mp h₂
  obtain ⟨z, zBytes, rest₃, rfl, hz, h₄⟩ :=
    (Reader.Sequential.signedWord .chunkZ).reads_bind_iff.mp h₃
  obtain ⟨flag, flagBytes, rest₄, rfl, hf, h₅⟩ :=
    (Reader.Sequential.byte .hasMachines).reads_bind_iff.mp h₄
  rw [Reader.reads_byte_iff.mp hv, Reader.reads_signedWord_iff.mp hx,
    Reader.reads_signedWord_iff.mp hz, Reader.reads_byte_iff.mp hf]
  exact ⟨⟨x, z⟩, flag, rest₄, by simp [header], h₅⟩

theorem exists_form_of_reads {index : ChunkIndex} {used : Bytes} (hr : read.Reads used index) :
    ∃ form : Form, form.bytes index.chunk = used ∧ form.Describes index := by
  obtain ⟨chunk, flag, rest, rfl, h₁⟩ := exists_header_of_reads hr
  by_cases hflag : flag = 0
  · rw [if_pos hflag] at h₁
    obtain ⟨rfl, rfl⟩ := Reader.reads_pure_iff.mp h₁
    refine ⟨.bare, by rw [hflag, Form.bytes], by simp [Form.entries], nofun, List.nodup_nil, ?_⟩
    simp [Form.entries, get?]
  · rw [if_neg hflag] at h₁
    obtain ⟨rfl, h₂⟩ := Reader.reads_check_iff.mp h₁
    obtain ⟨count, countBytes, rest, rfl, hc, h₃⟩ :=
      (Reader.Sequential.word .entryCount).reads_bind_iff.mp h₂
    obtain ⟨hlt, rfl⟩ := Reader.reads_word_iff.mp hc
    obtain ⟨entries, rfl, rfl, hall, hnodup, hindex⟩ := reads_readEntries_iff.mp h₃
    have hchunk : index.chunk = chunk := by
      rw [hindex, entries_foldl_insert]
    subst hchunk
    have hdistinct : (entries.map (StoredEntry.block index.chunk)).Nodup := hnodup
    have hholds := (holds_iff hdistinct).mpr hindex.symm
    exact ⟨.listing entries, rfl, hlt, fun e he => (hall e he).1, hdistinct, hholds⟩

theorem Form.Describes.reads {form : Form} {index : ChunkIndex} (h : form.Describes index) :
    read.Reads (form.bytes index.chunk) index := by
  have hindex := (holds_iff h.distinct).mp h.holds
  cases form with
  | bare =>
    refine reads_header ?_
    rw [if_pos rfl, ← hindex]
    exact Reader.Reads.pure _
  | listing entries =>
    refine reads_header ?_
    rw [if_neg (by decide)]
    simp only [if_true]
    refine (Reader.reads_word h.count .entryCount).bind ?_
    refine reads_readEntries_iff.mpr ⟨entries, rfl, rfl, fun e he => ?_, h.distinct, hindex.symm⟩
    exact ⟨h.fits e he, Std.ExtTreeMap.not_mem_empty⟩

/-- An index is read from its stored forms and from no other bytes. -/
theorem reads_read_iff {index : ChunkIndex} {used : Bytes} : read.Reads used index ↔
    ∃ form : Form, form.bytes index.chunk = used ∧ form.Describes index := by
  refine ⟨exists_form_of_reads, ?_⟩
  rintro ⟨form, rfl, h⟩
  exact h.reads

theorem decode_eq_ok_iff {bytes : Bytes} {index : ChunkIndex} : decode bytes = .ok index ↔
    ∃ form : Form, form.bytes index.chunk = bytes ∧ form.Describes index :=
  sequential_read.run_eq_ok_iff.trans reads_read_iff

theorem chunkOf_ofInt {chunk : Int32} {offset : UInt8} (h : offset.toNat < 16)
    (hf : FitsInt32 (chunk.toInt * 16 + offset.toNat)) :
    chunkOf (Int32.ofInt (chunk.toInt * 16 + offset.toNat)) = chunk := by
  apply Int32.toInt_inj.mp
  rw [toInt_chunkOf, Int32.toInt_ofInt_of_le hf.1 (by have := hf.2; omega)]
  omega

theorem offsetOf_ofInt {chunk : Int32} {offset : UInt8} (h : offset.toNat < 16)
    (hf : FitsInt32 (chunk.toInt * 16 + offset.toNat)) :
    offsetOf (Int32.ofInt (chunk.toInt * 16 + offset.toNat)) = offset := by
  apply UInt8.toNat_inj.mp
  have ho := toNat_offsetOf (Int32.ofInt (chunk.toInt * 16 + offset.toNat))
  rw [Int32.toInt_ofInt_of_le hf.1 (by have := hf.2; omega)] at ho
  omega

theorem toInt_height (height : UInt8) : (Int32.ofNat height.toNat).toInt = height.toNat := by
  have := height.toNat_lt
  exact Int32.toInt_ofNat_of_lt (by omega)

namespace StoredEntry

variable {chunk : ChunkPos} {e : StoredEntry}

theorem Fits.checkEncodable (h : e.Fits chunk) : checkEncodable chunk (e.block chunk) = .ok () := by
  refine checkEncodable_eq_ok.mpr ⟨?_, ?_, ?_⟩
  · rw [Block.chunk, block, chunkOf_ofInt h.offsetX h.x, chunkOf_ofInt h.offsetZ h.z]
  · have := e.height.toNat_lt
    rw [Int32.le_iff_toInt_le, block, toInt_height]
    simp
  · have := e.height.toNat_lt
    rw [Int32.le_iff_toInt_le, block, toInt_height]
    simp [maxHeight]
    omega

theorem Fits.encodeEntry (h : e.Fits chunk) : encodeEntry (e.entry chunk) = .ok e.bytes := by
  have hoffsets : [offsetOf (e.block chunk).x, UInt8.ofNat (e.block chunk).y.toInt.toNat,
      offsetOf (e.block chunk).z] = [e.offsetX, e.height, e.offsetZ] := by
    simp only [block, offsetOf_ofInt h.offsetX h.x, offsetOf_ofInt h.offsetZ h.z, toInt_height,
      Int.toNat_natCast, UInt8.ofNat_toNat]
  refine bind_eq_ok.mpr ⟨_, countedBytes_eq_ok.mpr ⟨h.tag, rfl⟩, ?_⟩
  refine bind_eq_ok.mpr ⟨_, countedBytes_eq_ok.mpr ⟨h.world, rfl⟩, ?_⟩
  simp only [hoffsets, bytes, textBytes, List.append_assoc]
  rfl

theorem mapM_encodeEntry {entries : List StoredEntry} (h : ∀ e ∈ entries, e.Fits chunk) :
    (entries.map (entry chunk)).mapM ChunkIndex.encodeEntry =
      .ok (entries.map StoredEntry.bytes) := by
  induction entries with
  | nil => rfl
  | cons e entries ih =>
    rw [List.forall_mem_cons] at h
    rw [List.map_cons, List.mapM_cons, h.1.encodeEntry, ih h.2]
    rfl

/-- Entries that are written alike are the same, one by one. -/
theorem eq_of_mapM_encodeEntry {entries : List StoredEntry} {listed : List (Block × String)}
    {parts : List Bytes} (h : ∀ e ∈ entries, e.Fits chunk)
    (hc : ∀ entry ∈ listed, ChunkIndex.checkEncodable chunk entry.1 = .ok ())
    (hp : listed.mapM ChunkIndex.encodeEntry = .ok parts) (hl : listed.length = entries.length)
    (hb : parts.flatten = (entries.map StoredEntry.bytes).flatten) :
    listed = entries.map (entry chunk) := by
  induction entries generalizing listed parts with
  | nil => exact List.length_eq_zero_iff.mp hl
  | cons e entries ih =>
    cases listed with
    | nil => cases hl
    | cons first listed =>
      rw [List.forall_mem_cons] at h hc
      rw [List.mapM_cons] at hp
      obtain ⟨written, hw, hp⟩ := bind_eq_ok.mp hp
      obtain ⟨parts', hp', hp⟩ := bind_eq_ok.mp hp
      cases hp
      have hread : (readEntry chunk).Reads e.bytes (e.entry chunk) :=
        reads_readEntry_iff.mpr ⟨e, h.1, rfl, rfl⟩
      obtain ⟨rfl, hrest⟩ := (reads_readEntry hc.1 hw).unique hread hb
      rw [List.map_cons, ih h.2 hc.2 hp' (by simpa using hl) hrest]

end StoredEntry

namespace Form

variable {form : Form} {index : ChunkIndex} {written : Bytes}

namespace Describes

theorem mem_toList (h : form.Describes index) (entry : Block × String) :
    entry ∈ index.entries.toList ↔ entry ∈ form.entries.map (StoredEntry.entry index.chunk) := by
  have hholds := h.holds entry.1 entry.2
  rw [Std.ExtTreeMap.mem_toList_iff_getElem?_eq_some, ← get?, hholds]
  simp [StoredEntry.entry, Prod.ext_iff]

theorem length_toList (h : form.Describes index) :
    index.entries.toList.length = form.entries.length := by
  have hnodup : (form.entries.map (StoredEntry.entry index.chunk)).Nodup := by
    apply List.Nodup.of_map Prod.fst
    rw [List.map_map]
    exact h.distinct
  have hperm := (List.perm_ext_iff_of_nodup (ascending_toList index.entries).nodup hnodup).mpr
    h.mem_toList
  simpa using hperm.length_eq

theorem checkEncodable (h : form.Describes index) :
    ∀ entry ∈ index.entries.toList, checkEncodable index.chunk entry.1 = .ok () := by
  intro entry hm
  obtain ⟨e, he, rfl⟩ := List.mem_map.mp ((h.mem_toList entry).mp hm)
  exact (h.fits e he).checkEncodable

theorem exists_parts (h : form.Describes index) :
    ∃ parts, index.entries.toList.mapM encodeEntry = .ok parts := by
  refine exists_mapM fun entry hm => ?_
  obtain ⟨e, he, rfl⟩ := List.mem_map.mp ((h.mem_toList entry).mp hm)
  exact ⟨e.bytes, (h.fits e he).encodeEntry⟩

/-- An index that has been read can be written: without a list if it is empty, and else as the list
of its entries in ascending order. -/
theorem encode_eq (h : form.Describes index) {parts : List Bytes}
    (hp : index.entries.toList.mapM encodeEntry = .ok parts) :
    encode index = .ok (header index.chunk ++ if form.entries = [] then [0] else
      1 :: (bigEndian 4 form.entries.length ++ parts.flatten)) := by
  have hcheck : index.entries.keys.forM (ChunkIndex.checkEncodable index.chunk) = .ok () := by
    refine forM_eq_ok.mpr fun block hb => ?_
    rw [← Std.ExtTreeMap.map_fst_toList_eq_keys] at hb
    obtain ⟨entry, he, rfl⟩ := List.mem_map.mp hb
    exact h.checkEncodable entry he
  have hsize : index.size = form.entries.length := by
    rw [size, ← Std.ExtTreeMap.length_toList, h.length_toList]
  have hempty : index.entries.isEmpty = true ↔ form.entries = [] := by
    rw [Std.ExtTreeMap.isEmpty_eq_size_beq_zero, beq_iff_eq, ← List.length_eq_zero_iff, ← hsize]
    rfl
  refine bind_eq_ok.mpr ⟨(), hcheck, ?_⟩
  by_cases he : form.entries = []
  · rw [if_pos (hempty.mpr he), if_pos he]
    rfl
  · rw [if_neg (mt hempty.mp he), if_neg he]
    refine bind_eq_ok.mpr ⟨_, lengthWord_eq_ok.mpr ⟨hsize ▸ h.count, rfl⟩, ?_⟩
    refine bind_eq_ok.mpr ⟨parts, hp, ?_⟩
    rw [hsize]
    simp
    rfl

/-- Writing gives back the bytes that were read exactly if these are the canonical ones. -/
theorem encode_eq_bytes_iff (h : form.Describes index) :
    encode index = .ok (form.bytes index.chunk) ↔ form.Canonical index.chunk := by
  obtain ⟨parts, hp⟩ := h.exists_parts
  rw [h.encode_eq hp]
  cases form with
  | bare =>
    refine ⟨fun _ => ⟨List.Pairwise.nil, nofun⟩, fun _ => ?_⟩
    simp [entries, bytes]
  | listing entries =>
    by_cases he : entries = []
    · subst he
      refine ⟨fun hb => ?_, fun hc => absurd rfl hc.nonempty⟩
      simp [Form.entries, bytes] at hb
    · have hall : ∀ e ∈ entries, e.Fits index.chunk := h.fits
      constructor
      · intro hb
        have hparts : parts.flatten = (entries.map StoredEntry.bytes).flatten := by
          simpa [Form.entries, bytes, he] using hb
        have hlist := StoredEntry.eq_of_mapM_encodeEntry hall h.checkEncodable hp
          h.length_toList hparts
        refine ⟨?_, fun heq => he (listing.inj heq)⟩
        rw [Form.entries, ← hlist]
        exact ascending_toList index.entries
      · intro hc
        have hlist : index.entries.toList = entries.map (StoredEntry.entry index.chunk) :=
          (ascending_toList index.entries).eq_of_mem_iff hc.ascending h.mem_toList
        rw [hlist, StoredEntry.mapM_encodeEntry hall] at hp
        cases hp
        simp [Form.entries, bytes, he]

end Describes

end Form

/-- No length in the index exceeds a word. -/
structure Measured (index : ChunkIndex) : Prop where
  size : index.size < 2 ^ 32
  texts : ∀ entry ∈ index.entries.toList,
    (Text.encode entry.2).length < 2 ^ 32 ∧ (Text.encode entry.1.world).length < 2 ^ 32

theorem forM_checkEncodable_iff {index : ChunkIndex} :
    index.entries.keys.forM (checkEncodable index.chunk) = .ok () ↔
      ∀ entry ∈ index.entries.toList,
        entry.1.chunk = index.chunk ∧ 0 ≤ entry.1.y ∧ entry.1.y ≤ maxHeight := by
  rw [forM_eq_ok, ← Std.ExtTreeMap.map_fst_toList_eq_keys, List.forall_mem_map]
  simp only [checkEncodable_eq_ok]

theorem Measured.exists_encode_iff {index : ChunkIndex} (h : index.Measured) :
    (∃ written, encode index = .ok written) ↔ ∀ entry ∈ index.entries.toList,
      entry.1.chunk = index.chunk ∧ 0 ≤ entry.1.y ∧ entry.1.y ≤ maxHeight := by
  rw [← forM_checkEncodable_iff]
  constructor
  · rintro ⟨written, hw⟩
    obtain ⟨_, hc, _⟩ := bind_eq_ok.mp hw
    exact hc
  · intro hc
    exact exists_encode h.size (forM_eq_ok.mp hc) h.texts

/-- Which indexes can be written, which bytes can be read and as what, and which of them are those
that are written: the writer and the reader of indexes in terms of the stored form. -/
theorem codec_exact (index : ChunkIndex) (bytes : Bytes) :
    (index.Measured → ((∃ written, encode index = .ok written) ↔
      ∀ entry ∈ index.entries.toList,
        entry.1.chunk = index.chunk ∧ 0 ≤ entry.1.y ∧ entry.1.y ≤ maxHeight)) ∧
    (encode index = .ok bytes → decode bytes = .ok index) ∧
    (decode bytes = .ok index ↔
      ∃ form : Form, form.bytes index.chunk = bytes ∧ form.Describes index) ∧
    (∀ form : Form, form.bytes index.chunk = bytes → form.Describes index →
      (∃ written, encode index = .ok written) ∧
      (encode index = .ok bytes ↔ form.Canonical index.chunk)) := by
  refine ⟨fun h => h.exists_encode_iff, decode_encode, decode_eq_ok_iff, ?_⟩
  rintro form rfl h
  obtain ⟨parts, hp⟩ := h.exists_parts
  exact ⟨⟨_, h.encode_eq hp⟩, h.encode_eq_bytes_iff⟩

/-- Two entries in descending order, the second of them in the last column of the chunk. -/
def unsortedForm : Form :=
  .listing [⟨"pump", "world", 5, 64, 15⟩, ⟨"furnace", "world", 5, 0, 3⟩]

def unsortedIndex : ChunkIndex :=
  ((⟨⟨-134217728, 134217727⟩, ∅⟩ : ChunkIndex).insert
    ⟨"world", -2147483643, 64, 2147483647⟩ "pump").insert
    ⟨"world", -2147483643, 0, 2147483635⟩ "furnace"

theorem codec_exact_unsortedForm :
    unsortedIndex.Measured ∧ (∃ written, encode unsortedIndex = .ok written) ∧
    decode (unsortedForm.bytes unsortedIndex.chunk) = .ok unsortedIndex ∧
    ∃ form : Form, form.bytes unsortedIndex.chunk = unsortedForm.bytes unsortedIndex.chunk ∧
      form.Describes unsortedIndex ∧ ¬ form.Canonical unsortedIndex.chunk := by
  have hm : unsortedIndex.Measured := ⟨by decide +kernel, by decide +kernel⟩
  have hd : decode (unsortedForm.bytes unsortedIndex.chunk) = .ok unsortedIndex := by
    decide +kernel
  have hne : encode unsortedIndex ≠ .ok (unsortedForm.bytes unsortedIndex.chunk) := by
    decide +kernel
  obtain ⟨hw, -, hread, hforms⟩ :=
    codec_exact unsortedIndex (unsortedForm.bytes unsortedIndex.chunk)
  obtain ⟨form, hb, hdesc⟩ := hread.mp hd
  refine ⟨hm, (hw hm).mpr (by decide +kernel), hd, form, hb, hdesc, fun hc => ?_⟩
  exact hne ((hforms form hb hdesc).2.mpr hc)

end MachineVault.ChunkIndex
