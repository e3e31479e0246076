import MachineVault.Proofs.ChunkIndex.Form

/-! Chunks and offsets are coordinates in their own right. A block coordinate is shifted and masked
into a chunk and an offset, every pair of a chunk that lies on the grid and an offset below the side
of a chunk comes from one block coordinate, and no two blocks share partition, offsets and height. -/

namespace MachineVault

variable {v chunk : Int32} {offset : UInt8}

/-- Rounding down to a chunk is a shift that keeps the sign. -/
theorem chunkOf_eq_shiftRight (v : Int32) : chunkOf v = v >>> 4 := by
  apply Int32.toInt_inj.mp
  have hshift : (v >>> 4).toInt = v.toInt >>> (4 : Nat) := BitVec.toInt_sshiftRight
  rw [toInt_chunkOf, hshift, Int.shiftRight_eq_div_pow]
  rfl

/-- The offset is what the low four bits spell. -/
theorem offsetOf_eq_and (v : Int32) : offsetOf v = (v &&& 15).toUInt32.toUInt8 := by
  apply UInt8.toNat_inj.mp
  have hmask : (v &&& 15).toUInt32.toUInt8.toNat = v.toUInt32.toNat % 16 % 256 := by
    rw [UInt32.toNat_toUInt8, Int32.toUInt32_and, UInt32.toNat_and]
    exact congrArg (· % 256) (Nat.and_two_pow_sub_one_eq_mod v.toUInt32.toNat 4)
  have ho := toNat_offsetOf v
  -- a negative number in two's complement has the same rest as the number that its bits spell
  have hv : v.toInt = if 2 * v.toUInt32.toNat < 4294967296 then (v.toUInt32.toNat : Int)
      else v.toUInt32.toNat - 4294967296 := BitVec.toInt_eq_toNat_cond _
  split at hv <;> omega

/-- The chunks whose blocks all have coordinates of 32 bits: sixteen times fewer than blocks. -/
def OnGrid (chunk : Int32) : Prop := -134217728 ≤ chunk.toInt ∧ chunk.toInt ≤ 134217727

/-- On the grid, and only there, an offset leads to a block. -/
theorem exists_blockAt?_iff (h : offset.toNat < 16) :
    (∃ v, blockAt? chunk offset = some v) ↔ OnGrid chunk := by
  unfold OnGrid
  constructor
  · rintro ⟨v, hb⟩
    have hv := (blockAt?_eq_some_iff h).mp hb
    have hl := v.le_toInt
    have hu := v.toInt_lt
    omega
  · rintro ⟨hl, hu⟩
    refine ⟨Int32.ofInt (chunk.toInt * 16 + offset.toNat), (blockAt?_eq_some_iff h).mpr ?_⟩
    exact Int32.toInt_ofInt_of_le (by omega) (by omega)

/-- The block that an offset leads to lies in the chunk, at this offset. -/
theorem split_of_blockAt? (h : offset.toNat < 16) (hb : blockAt? chunk offset = some v) :
    chunkOf v = chunk ∧ offsetOf v = offset := by
  obtain ⟨hf, rfl⟩ := (ChunkIndex.blockAt?_eq_some_iff_fits h).mp hb
  exact ⟨ChunkIndex.chunkOf_ofInt h hf, ChunkIndex.offsetOf_ofInt h hf⟩

theorem Block.eq_iff_split {a b : Block} : a = b ↔ a.partition = b.partition ∧
    offsetOf a.x = offsetOf b.x ∧ offsetOf a.z = offsetOf b.z ∧ a.y = b.y := by
  constructor
  · rintro rfl
    exact ⟨rfl, rfl, rfl, rfl⟩
  · rintro ⟨hp, hx, hz, hy⟩
    have hworld : a.world = b.world := congrArg Partition.world hp
    have hchunk : a.chunk = b.chunk := congrArg Partition.chunk hp
    have hax : a.x = b.x := eq_of_chunkOf_offsetOf (congrArg ChunkPos.x hchunk) hx
    have haz : a.z = b.z := eq_of_chunkOf_offsetOf (congrArg ChunkPos.z hchunk) hz
    cases a
    cases b
    congr 1

/-- Blocks and what they are split into determine each other: the parts of a block are the high and
the low bits of its coordinates and lead back to it, an offset leads to a block from the chunks on
the grid only and that block has these parts, and blocks with the same parts are the same. -/
theorem coordinates_biject :
    (∀ v : Int32, chunkOf v = v >>> 4 ∧ offsetOf v = (v &&& 15).toUInt32.toUInt8) ∧
    (∀ b : Block, (offsetOf b.x).toNat < 16 ∧ (offsetOf b.z).toNat < 16 ∧
      blockAt? b.chunk.x (offsetOf b.x) = some b.x ∧
      blockAt? b.chunk.z (offsetOf b.z) = some b.z) ∧
    (∀ (chunk : Int32) (offset : UInt8), offset.toNat < 16 →
      ((∃ v, blockAt? chunk offset = some v) ↔ OnGrid chunk) ∧
      ∀ v, blockAt? chunk offset = some v → chunkOf v = chunk ∧ offsetOf v = offset) ∧
    ∀ a b : Block, a = b ↔ a.partition = b.partition ∧
      offsetOf a.x = offsetOf b.x ∧ offsetOf a.z = offsetOf b.z ∧ a.y = b.y := by
  refine ⟨fun v => ⟨chunkOf_eq_shiftRight v, offsetOf_eq_and v⟩, fun b => ?_,
    fun chunk offset h => ⟨exists_blockAt?_iff h, fun v => split_of_blockAt? h⟩,
    fun a b => Block.eq_iff_split⟩
  exact ⟨ChunkIndex.offsetOf_lt b.x, ChunkIndex.offsetOf_lt b.z,
    blockAt?_chunkOf_offsetOf b.x, blockAt?_chunkOf_offsetOf b.z⟩

example : blockAt? 134217727 15 = some 2147483647 ∧ blockAt? 134217728 0 = none := by decide

end MachineVault
