import Std.Data.ExtTreeMap.Lemmas
import MachineVault.Binary64

/-! Places in a named world: precise locations, blocks, and the partitions that group the blocks of
one 16 by 16 chunk. Splitting a block coordinate into chunk and offset loses nothing. -/

namespace MachineVault

/-- Side length of a chunk in blocks. -/
def chunkSize : Int := 16

/-- In the range of block coordinates. -/
def FitsInt32 (n : Int) : Prop := -2147483648 ≤ n ∧ n ≤ 2147483647

instance (n : Int) : Decidable (FitsInt32 n) := inferInstanceAs (Decidable (_ ∧ _))

/-- The chunk coordinate of a block coordinate. -/
def chunkOf (v : Int32) : Int32 := Int32.ofInt (v.toInt / chunkSize)

/-- The place of a block coordinate inside its chunk. -/
def offsetOf (v : Int32) : UInt8 := UInt8.ofNat (v.toInt % chunkSize).toNat

/-- The block coordinate at an offset from the start of a chunk, if both fit. -/
def blockAt? (chunk : Int32) (offset : UInt8) : Option Int32 :=
  if FitsInt32 (chunk.toInt * chunkSize) ∧ FitsInt32 (chunk.toInt * chunkSize + offset.toNat) then
    some (Int32.ofInt (chunk.toInt * chunkSize + offset.toNat))
  else none

structure ChunkPos where
  x : Int32
  z : Int32
deriving DecidableEq

/-- A block of a named world. -/
structure Block where
  world : String
  x : Int32
  y : Int32
  z : Int32
deriving DecidableEq

/-- One chunk of one world. -/
structure Partition where
  world : String
  chunk : ChunkPos
deriving DecidableEq

/-- A point of a named world, as a host reports it. -/
structure Location where
  world : String
  x : Binary64
  y : Binary64
  z : Binary64
deriving DecidableEq

namespace ChunkPos

def order : ChunkPos → ChunkPos → Ordering :=
  compareLex (compareOn ChunkPos.x) (compareOn ChunkPos.z)

instance : Ord ChunkPos := ⟨order⟩

instance : Std.TransOrd ChunkPos :=
  inferInstanceAs (Std.TransCmp (compareLex (compareOn ChunkPos.x) (compareOn ChunkPos.z)))

instance : Std.LawfulEqOrd ChunkPos where
  eq_of_compare {a b} h := by
    obtain ⟨hx, hz⟩ := compareLex_eq_eq.mp h
    cases a
    cases b
    congr 1
    · exact Std.LawfulEqOrd.eq_of_compare hx
    · exact Std.LawfulEqOrd.eq_of_compare hz

instance : ToString ChunkPos := ⟨fun c => s!"{c.x},{c.z}"⟩

end ChunkPos

namespace Partition

def order : Partition → Partition → Ordering :=
  compareLex (compareOn Partition.world) (compareOn Partition.chunk)

instance : Ord Partition := ⟨order⟩

instance : Std.TransOrd Partition :=
  inferInstanceAs (Std.TransCmp (compareLex (compareOn Partition.world) (compareOn Partition.chunk)))

instance : Std.LawfulEqOrd Partition where
  eq_of_compare {a b} h := by
    obtain ⟨hw, hc⟩ := compareLex_eq_eq.mp h
    cases a
    cases b
    congr 1
    · exact Std.LawfulEqOrd.eq_of_compare hw
    · exact Std.LawfulEqOrd.eq_of_compare hc

instance : ToString Partition := ⟨fun p => s!"{p.world}[{p.chunk}]"⟩

end Partition

namespace Block

/-- World first, then x, y and z. -/
def order : Block → Block → Ordering :=
  compareLex (compareOn Block.world)
    (compareLex (compareOn Block.x) (compareLex (compareOn Block.y) (compareOn Block.z)))

instance : Ord Block := ⟨order⟩

instance : Std.TransOrd Block :=
  inferInstanceAs (Std.TransCmp (compareLex (compareOn Block.world)
    (compareLex (compareOn Block.x) (compareLex (compareOn Block.y) (compareOn Block.z)))))

instance : Std.LawfulEqOrd Block where
  eq_of_compare {a b} h := by
    obtain ⟨hw, h⟩ := compareLex_eq_eq.mp h
    obtain ⟨hx, h⟩ := compareLex_eq_eq.mp h
    obtain ⟨hy, hz⟩ := compareLex_eq_eq.mp h
    cases a
    cases b
    congr 1
    · exact Std.LawfulEqOrd.eq_of_compare hw
    · exact Std.LawfulEqOrd.eq_of_compare hx
    · exact Std.LawfulEqOrd.eq_of_compare hy
    · exact Std.LawfulEqOrd.eq_of_compare hz

instance : ToString Block := ⟨fun b => s!"{b.world}@{b.x},{b.y},{b.z}"⟩

def chunk (b : Block) : ChunkPos := ⟨chunkOf b.x, chunkOf b.z⟩

/-- The partition that holds a block. -/
def partition (b : Block) : Partition := ⟨b.world, b.chunk⟩

end Block

def Partition.contains (p : Partition) (b : Block) : Bool := b.partition = p

/-- The block that a location lies in: each axis rounded down. -/
def Location.block (l : Location) : Block :=
  ⟨l.world, l.x.floorInt32, l.y.floorInt32, l.z.floorInt32⟩

/-- The corner of a block. -/
def Block.corner (b : Block) : Location :=
  ⟨b.world, .ofInt b.x.toInt, .ofInt b.y.toInt, .ofInt b.z.toInt⟩

private theorem toInt_bounds (v : Int32) : -2147483648 ≤ v.toInt ∧ v.toInt < 2147483648 :=
  ⟨v.le_toInt, v.toInt_lt⟩

private theorem toInt_ofInt {n : Int} (h : -2147483648 ≤ n) (h' : n < 2147483648) :
    (Int32.ofInt n).toInt = n :=
  Int32.toInt_ofInt_of_le h h'

theorem toInt_chunkOf (v : Int32) : (chunkOf v).toInt = v.toInt / 16 := by
  have := toInt_bounds v
  exact toInt_ofInt (by simp only [chunkSize]; omega) (by simp only [chunkSize]; omega)

theorem toNat_offsetOf (v : Int32) : ((offsetOf v).toNat : Int) = v.toInt % 16 := by
  have : (offsetOf v).toNat = (v.toInt % 16).toNat % 256 := UInt8.toNat_ofNat'
  omega

theorem blockAt?_eq_some_iff {chunk x : Int32} {offset : UInt8} (h : offset.toNat < 16) :
    blockAt? chunk offset = some x ↔ x.toInt = chunk.toInt * 16 + offset.toNat := by
  have hx := toInt_bounds x
  simp only [blockAt?, Option.ite_none_right_eq_some, Option.some.injEq]
  simp only [FitsInt32, chunkSize]
  constructor
  · rintro ⟨⟨_, h₁, h₂⟩, rfl⟩
    exact toInt_ofInt (by omega) (by omega)
  · intro hx'
    refine ⟨by omega, ?_⟩
    apply Int32.toInt_inj.mp
    rw [toInt_ofInt (by omega) (by omega), hx']

theorem blockAt?_chunkOf_offsetOf (v : Int32) : blockAt? (chunkOf v) (offsetOf v) = some v := by
  have ho := toNat_offsetOf v
  rw [blockAt?_eq_some_iff (by omega), toInt_chunkOf]
  omega

end MachineVault
