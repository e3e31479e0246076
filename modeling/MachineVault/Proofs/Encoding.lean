import MachineVault.LoadedChunk.Basic
import MachineVault.Proofs.ChunkIndex
import MachineVault.Proofs.LoadedChunk
import MachineVault.Proofs.RecordList
import Mathlib.Data.Finset.Card

/-! When a chunk can be written. Its blocks have to lie in its partition, at heights that the format
can hold, and no length may exceed a word. The number of blocks never does. -/

namespace MachineVault

/-- A slot that can be written for a block. -/
structure Slot.Storable (block : Block) (slot : Slot) : Prop where
  height : 0 ≤ block.y ∧ block.y ≤ ChunkIndex.maxHeight
  world : (Text.encode block.world).length < 2 ^ 32
  tag : (Text.encode slot.typeTag).length < 2 ^ 32
  record : (slot.encode block).length < 2 ^ 32

theorem exists_mapM {ε α β : Type} {f : α → Except ε β} {as : List α}
    (h : ∀ a ∈ as, ∃ b, f a = .ok b) : ∃ bs, as.mapM f = .ok bs := by
  induction as with
  | nil => exact ⟨[], rfl⟩
  | cons a as ih =>
    obtain ⟨b, hb⟩ := h a List.mem_cons_self
    obtain ⟨bs, hbs⟩ := ih fun a' ha' => h a' (List.mem_cons_of_mem _ ha')
    refine ⟨b :: bs, ?_⟩
    rw [List.mapM_cons, hb, hbs]
    rfl

theorem length_le_of_nodup {ns : List Nat} {n : Nat} (hn : ns.Nodup) (h : ∀ m ∈ ns, m < n) :
    ns.length ≤ n := by
  have hsub : ns.toFinset ⊆ Finset.range n := fun m hm =>
    Finset.mem_range.mpr (h m (List.mem_toFinset.mp hm))
  have hcard := Finset.card_le_card hsub
  rwa [List.toFinset_card_of_nodup hn, Finset.card_range] at hcard

namespace Block

/-- The number of the place that a block has in its chunk. -/
def cell (b : Block) : Nat :=
  (b.y.toInt.toNat * 16 + (offsetOf b.x).toNat) * 16 + (offsetOf b.z).toNat

theorem toInt_height {b : Block} (h : 0 ≤ b.y ∧ b.y ≤ ChunkIndex.maxHeight) :
    0 ≤ b.y.toInt ∧ b.y.toInt ≤ 255 := by
  constructor
  · simpa using Int32.le_iff_toInt_le.mp h.1
  · simpa [ChunkIndex.maxHeight] using Int32.le_iff_toInt_le.mp h.2

theorem cell_lt {b : Block} (h : 0 ≤ b.y ∧ b.y ≤ ChunkIndex.maxHeight) : b.cell < 65536 := by
  have hy := toInt_height h
  have hx := ChunkIndex.offsetOf_lt b.x
  have hz := ChunkIndex.offsetOf_lt b.z
  unfold cell
  omega

theorem eq_of_chunkOf_offsetOf {v v' : Int32} (hc : chunkOf v = chunkOf v')
    (ho : offsetOf v = offsetOf v') : v = v' := by
  have hv := blockAt?_chunkOf_offsetOf v
  rw [hc, ho, blockAt?_chunkOf_offsetOf] at hv
  exact (Option.some.inj hv).symm

theorem cell_inj {b b' : Block} (hp : b.partition = b'.partition)
    (h : 0 ≤ b.y ∧ b.y ≤ ChunkIndex.maxHeight) (h' : 0 ≤ b'.y ∧ b'.y ≤ ChunkIndex.maxHeight)
    (heq : b.cell = b'.cell) : b = b' := by
  obtain ⟨hw, hc⟩ := Partition.mk.inj hp
  obtain ⟨hcx, hcz⟩ := ChunkPos.mk.inj hc
  have hy := toInt_height h
  have hy' := toInt_height h'
  have hx := ChunkIndex.offsetOf_lt b.x
  have hx' := ChunkIndex.offsetOf_lt b'.x
  have hz := ChunkIndex.offsetOf_lt b.z
  have hz' := ChunkIndex.offsetOf_lt b'.z
  unfold cell at heq
  have hx := eq_of_chunkOf_offsetOf hcx (UInt8.toNat_inj.mp (by omega))
  have hz := eq_of_chunkOf_offsetOf hcz (UInt8.toNat_inj.mp (by omega))
  have hy : b.y = b'.y := Int32.toInt_inj.mp (by omega)
  cases b
  cases b'
  cases hw
  cases hx
  cases hy
  cases hz
  rfl

/-- The blocks of one partition are no more than there are places in a chunk. -/
theorem length_le {blocks : List Block} {partition : Partition} (hn : blocks.Nodup)
    (h : ∀ b ∈ blocks, b.partition = partition ∧ 0 ≤ b.y ∧ b.y ≤ ChunkIndex.maxHeight) :
    blocks.length ≤ 65536 := by
  have hcells : (blocks.map cell).Nodup := by
    refine hn.map_on fun b hb b' hb' heq => ?_
    obtain ⟨hp, hy⟩ := h b hb
    obtain ⟨hp', hy'⟩ := h b' hb'
    exact cell_inj (hp.trans hp'.symm) hy hy' heq
  rw [← List.length_map cell]
  refine length_le_of_nodup hcells fun n hm => ?_
  obtain ⟨b, hb, rfl⟩ := List.mem_map.mp hm
  exact cell_lt (h b hb).2

end Block

theorem countedBytes_of_lt {bytes : Bytes} (h : bytes.length < 2 ^ 32) (field : Field) :
    ∃ written, countedBytes bytes field = .ok written :=
  ⟨_, countedBytes_eq_ok.mpr ⟨h, rfl⟩⟩

/-- Records can be written unless they are too many or one of them is too long. -/
theorem RecordList.exists_encode {records : List Bytes} (hn : records.length < 2 ^ 32)
    (h : ∀ record ∈ records, record.length < 2 ^ 32) : ∃ bytes, encode records = .ok bytes := by
  obtain ⟨parts, hp⟩ := exists_mapM fun record hr => countedBytes_of_lt (h record hr) .recordLength
  exact ⟨_, encode_eq_ok_iff.mpr ⟨hn, parts, hp, rfl⟩⟩

/-- An index can be written unless a block has no stored form or a length does not fit. -/
theorem ChunkIndex.exists_encode {index : ChunkIndex} (hn : index.size < 2 ^ 32)
    (hc : ∀ block ∈ index.entries.keys, checkEncodable index.chunk block = .ok ())
    (h : ∀ e ∈ index.entries.toList, (Text.encode e.2).length < 2 ^ 32 ∧
      (Text.encode e.1.world).length < 2 ^ 32) : ∃ bytes, encode index = .ok bytes := by
  have hentry : ∀ e ∈ index.entries.toList, ∃ written, encodeEntry e = .ok written := by
    intro entry he
    rcases entry with ⟨block, tag⟩
    obtain ⟨tagBytes, ht⟩ := countedBytes_of_lt (h _ he).1 .typeTag
    obtain ⟨worldBytes, hw⟩ := countedBytes_of_lt (h _ he).2 .worldName
    unfold encodeEntry
    dsimp only
    rw [ht, hw]
    exact ⟨_, rfl⟩
  obtain ⟨parts, hp⟩ := exists_mapM hentry
  unfold encode
  rw [forM_eq_ok.mpr hc, lengthWord_eq_ok.mpr ⟨hn, rfl⟩, hp]
  by_cases he : index.entries.isEmpty = true
  · exact ⟨_, by rw [if_pos he]; rfl⟩
  · exact ⟨_, by rw [if_neg he]; rfl⟩

/-- A chunk can be written if each of its slots can. -/
theorem LoadedChunk.exists_encode {c : LoadedChunk}
    (hs : ∀ {block slot}, c.slot? block = some slot →
      block.partition = c.partition ∧ slot.Storable block) :
    ∃ index data, c.encode = .ok (index, data) := by
  have hkeys : ∀ block ∈ c.contents.keys, ∃ slot, c.slot? block = some slot := fun block hb =>
    Option.isSome_iff_exists.mp (Std.ExtTreeMap.mem_iff_isSome_getElem?.mp
      (Std.ExtTreeMap.mem_keys.mp hb))
  have hsize : c.contents.size < 2 ^ 32 := by
    have hle := Block.length_le Std.ExtTreeMap.nodup_keys fun block hb => by
      obtain ⟨slot, hb⟩ := hkeys block hb
      exact ⟨(hs hb).1, (hs hb).2.height⟩
    rw [Std.ExtTreeMap.length_keys] at hle
    omega
  obtain ⟨index, hi⟩ : ∃ bytes, c.index.encode = .ok bytes := by
    refine ChunkIndex.exists_encode ?_ (fun block hb => ?_) ?_
    · rwa [ChunkIndex.size, index, Std.ExtTreeMap.size_map]
    · rw [index, Std.ExtTreeMap.keys_map] at hb
      obtain ⟨slot, hb⟩ := hkeys block hb
      exact ChunkIndex.checkEncodable_eq_ok.mpr
        ⟨congrArg Partition.chunk (hs hb).1, (hs hb).2.height⟩
    · intro entry he
      rcases entry with ⟨block, tag⟩
      have htag : c.index.get? block = some tag :=
        Std.ExtTreeMap.mem_toList_iff_getElem?_eq_some.mp he
      rw [get?_index] at htag
      obtain ⟨slot, hb, rfl⟩ := Option.map_eq_some_iff.mp htag
      exact ⟨(hs hb).2.tag, (hs hb).2.world⟩
  obtain ⟨data, hd⟩ : ∃ bytes, RecordList.encode
      (c.contents.toList.map fun e => e.2.encode e.1) = .ok bytes := by
    refine RecordList.exists_encode ?_ fun record hr => ?_
    · rwa [List.length_map, Std.ExtTreeMap.length_toList]
    · obtain ⟨⟨block, slot⟩, hm, rfl⟩ := List.mem_map.mp hr
      exact (hs (mem_toList.mp hm)).2.record
  refine ⟨index, data, ?_⟩
  unfold encode
  rw [hi, hd]
  rfl

end MachineVault
