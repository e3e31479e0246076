import MachineVault.ChunkIndex
import MachineVault.Proofs.Ascending
import MachineVault.Proofs.Wire

/-! A written index reads back as itself. -/

namespace MachineVault.ChunkIndex

theorem checkEncodable_eq_ok {chunk : ChunkPos} {block : Block} :
    checkEncodable chunk block = .ok () ↔
      block.chunk = chunk ∧ 0 ≤ block.y ∧ block.y ≤ maxHeight := by
  unfold checkEncodable
  by_cases hc : block.chunk = chunk
  · by_cases hy : 0 ≤ block.y ∧ block.y ≤ maxHeight
    · simp only [hc, hy, if_true, and_self, iff_true]
      rfl
    · simp only [hc, hy, if_true, if_false, true_and, iff_false]
      exact nofun
  · simp only [hc, if_false, false_and, iff_false]
    exact nofun

theorem forM_eq_ok {ε α : Type} {f : α → Except ε Unit} {as : List α} :
    as.forM f = .ok () ↔ ∀ a ∈ as, f a = .ok () := by
  induction as with
  | nil => exact ⟨fun _ => nofun, fun _ => rfl⟩
  | cons a as ih =>
    change (f a >>= fun _ => as.forM f) = .ok () ↔ _
    rw [bind_eq_ok, List.forall_mem_cons, ← ih]
    exact ⟨fun ⟨_, ha, has⟩ => ⟨ha, has⟩, fun ⟨ha, has⟩ => ⟨(), ha, has⟩⟩

/-- A height from 0 to 255 is the byte that is written for it. -/
theorem height_ofNat {y : Int32} (hl : 0 ≤ y) (hu : y ≤ maxHeight) :
    Int32.ofNat (UInt8.ofNat y.toInt.toNat).toNat = y := by
  have hl : 0 ≤ y.toInt := by simpa using Int32.le_iff_toInt_le.mp hl
  have hu : y.toInt ≤ 255 := by simpa [maxHeight] using Int32.le_iff_toInt_le.mp hu
  apply Int32.toInt_inj.mp
  rw [UInt8.toNat_ofNat', Int32.toInt_ofNat_of_lt (by omega)]
  omega

theorem offsetOf_lt (v : Int32) : (offsetOf v).toNat < 16 := by
  have := toNat_offsetOf v
  omega

theorem reads_readOffset (v : Int32) (field : Field) :
    (readOffset field).Reads [offsetOf v] (offsetOf v) := by
  refine (Reader.reads_byte (offsetOf v) field).last ?_
  rw [if_pos (offsetOf_lt v)]
  exact Reader.Reads.pure _

theorem reads_readCoordinate (v : Int32) (field : Field) :
    (readCoordinate (chunkOf v) (offsetOf v) field).Reads [] v := by
  rw [readCoordinate, blockAt?_chunkOf_offsetOf]
  exact Reader.Reads.pure v

theorem reads_readEntry {chunk : ChunkPos} {entry : Block × String} {written : Bytes}
    (hc : checkEncodable chunk entry.1 = .ok ()) (h : encodeEntry entry = .ok written) :
    (readEntry chunk).Reads written entry := by
  obtain ⟨rfl, hl, hu⟩ := checkEncodable_eq_ok.mp hc
  obtain ⟨tagBytes, ht, h⟩ := bind_eq_ok.mp h
  obtain ⟨worldBytes, hw, h⟩ := bind_eq_ok.mp h
  cases h
  rw [List.append_assoc]
  refine (Reader.reads_text ht .typeTag).bind ?_
  refine (Reader.reads_text hw .worldName).bind ?_
  refine (reads_readOffset entry.1.x .relX).bind ?_
  refine (Reader.reads_byte _ .relY).bind ?_
  refine (reads_readOffset entry.1.z .relZ).last ?_
  refine (reads_readCoordinate entry.1.x .chunkX).first ?_
  refine (reads_readCoordinate entry.1.z .chunkZ).first ?_
  rw [height_ofNat hl hu]
  exact Reader.Reads.pure _

/-- Entries in ascending order are all added, since no block stands among them twice. -/
theorem reads_readEntries (entries : List (Block × String)) (index : ChunkIndex)
    (parts : List Bytes) (hc : ∀ e ∈ entries, checkEncodable index.chunk e.1 = .ok ())
    (ha : Ascending entries) (hd : ∀ e ∈ entries, e.1 ∉ index.entries)
    (h : entries.mapM encodeEntry = .ok parts) :
    (readEntries entries.length index).Reads parts.flatten
      (entries.foldl (fun index e => index.insert e.1 e.2) index) := by
  induction entries generalizing index parts with
  | nil =>
    cases h
    exact Reader.Reads.pure index
  | cons e entries ih =>
    rw [List.mapM_cons] at h
    obtain ⟨written, he, h⟩ := bind_eq_ok.mp h
    obtain ⟨parts', hes, h⟩ := bind_eq_ok.mp h
    cases h
    have hnew : ∀ e' ∈ entries, e'.1 ∉ (index.insert e.1 e.2).entries := by
      intro e' he' hm
      rcases Std.ExtTreeMap.mem_insert.mp hm with heq | hm
      · rw [(List.pairwise_cons.mp ha).1 e' he'] at heq
        cases heq
      · exact hd e' (List.mem_cons_of_mem _ he') hm
    have hrest := ih (index.insert e.1 e.2) parts'
      (fun e' he' => hc e' (List.mem_cons_of_mem _ he')) (List.pairwise_cons.mp ha).2 hnew hes
    refine (reads_readEntry (hc e List.mem_cons_self) he).bind ?_
    have hfree : index.entries.contains e.1 = false := by
      rw [← Bool.not_eq_true, ← Std.ExtTreeMap.mem_iff_contains]
      exact hd e List.mem_cons_self
    simp only [hfree, Bool.false_eq_true, if_false]
    exact hrest

theorem entries_foldl_insert (entries : List (Block × String)) (index : ChunkIndex) :
    entries.foldl (fun index e => index.insert e.1 e.2) index =
      ⟨index.chunk, entries.foldl (fun m e => m.insert e.1 e.2) index.entries⟩ := by
  induction entries generalizing index with
  | nil => rfl
  | cons e entries ih => exact ih (index.insert e.1 e.2)

/-- The header is read before the flag tells whether entries follow. -/
theorem reads_header {chunk : ChunkPos} {flag : UInt8} {rest : Bytes} {index : ChunkIndex}
    (h : Reader.Reads (if flag = 0 then pure ⟨chunk, ∅⟩ else do
      unless flag = 1 do throw (.outOfRange .hasMachines flag.toNat)
      let count ← Reader.word .entryCount
      readEntries count ⟨chunk, ∅⟩) rest index) :
    read.Reads (header chunk ++ flag :: rest) index := by
  have hb : header chunk ++ flag :: rest =
      [formatVersion] ++
        (signedWordBytes chunk.x ++ (signedWordBytes chunk.z ++ ([flag] ++ rest))) := by
    simp [header]
  rw [hb]
  refine (Reader.reads_byte formatVersion .version).bind ?_
  simp only [if_true]
  refine (Reader.reads_signedWord chunk.x .chunkX).bind ?_
  refine (Reader.reads_signedWord chunk.z .chunkZ).bind ?_
  exact (Reader.reads_byte flag .hasMachines).bind h

theorem reads_read {index : ChunkIndex} {bytes : Bytes} (h : encode index = .ok bytes) :
    read.Reads bytes index := by
  obtain ⟨_, hc, h⟩ := bind_eq_ok.mp h
  have hc := forM_eq_ok.mp hc
  by_cases he : index.entries.isEmpty = true
  · rw [if_pos he] at h
    cases h
    have hi : (⟨index.chunk, ∅⟩ : ChunkIndex) = index := by
      rw [← Std.ExtTreeMap.isEmpty_iff.mp he]
    refine reads_header ?_
    rw [if_pos rfl, hi]
    exact Reader.Reads.pure index
  · rw [if_neg he] at h
    obtain ⟨count, hn, h⟩ := bind_eq_ok.mp h
    obtain ⟨parts, hp, h⟩ := bind_eq_ok.mp h
    obtain ⟨hlt, rfl⟩ := lengthWord_eq_ok.mp hn
    cases h
    rw [List.append_assoc, List.cons_append]
    refine reads_header ?_
    rw [if_neg (by decide)]
    simp only [if_true]
    refine (Reader.reads_word hlt .entryCount).bind ?_
    have hentries := reads_readEntries index.entries.toList ⟨index.chunk, ∅⟩ parts
      (fun e he => hc e.1 (Std.ExtTreeMap.mem_keys.mpr (mem_of_mem_toList he))) (ascending_toList _)
      (fun _ _ => Std.ExtTreeMap.not_mem_empty) hp
    rw [entries_foldl_insert, foldl_insert_toList, Std.ExtTreeMap.length_toList] at hentries
    exact hentries

theorem decode_encode {index : ChunkIndex} {bytes : Bytes} (h : encode index = .ok bytes) :
    decode bytes = .ok index :=
  (reads_read h).run

end MachineVault.ChunkIndex
