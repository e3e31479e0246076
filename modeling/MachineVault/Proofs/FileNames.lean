import Mathlib.Data.Nat.Digits.Defs
import MachineVault.Proofs.FileSystem.Writing
import MachineVault.Proofs.Files

/-! The names of the files that are kept for partitions. Each partition has one of its own for its
file and one for the temporary file, and no two of them are ever the same. -/

namespace MachineVault

open FileSystem (IsName Place)

/-- A character takes four bytes at most. -/
theorem utf8ByteSize_ofList_le (chars : List Char) :
    (String.ofList chars).utf8ByteSize ≤ 4 * chars.length := by
  induction chars with
  | nil => exact Nat.le_refl 0
  | cons c rest ih =>
    have hc := c.utf8Size_le_four
    rw [← List.singleton_append, String.ofList_append, String.utf8ByteSize_append,
      ← String.singleton_eq_ofList, String.utf8ByteSize_singleton, List.length_append,
      List.length_singleton]
    omega

/-- Ten digits and a sign are enough. -/
theorem length_toString_le (v : Int32) : (toString v).toList.length ≤ 11 := by
  have hlow := v.le_toInt
  have hhigh := v.toInt_lt
  have hdigits {n : Nat} (hn : n < 10 ^ 10) : n.repr.length ≤ 10 :=
    Nat.repr_length n 10 (by decide) hn
  change (v.toInt.repr).toList.length ≤ 11
  rw [String.length_toList, Int.repr_eq_if]
  split
  · exact Nat.le_succ_of_le (hdigits (by omega))
  · have hn := hdigits (n := (-v.toInt).toNat) (by omega)
    rw [String.length_append]
    exact Nat.add_le_add (Nat.le_refl 1) hn

/-- Two paths and their temporary files stand for four different places. -/
def Path.Apart (path path' : Path) : Prop :=
  ∃ places : List Place, places.Nodup ∧
    [path, path.temporary, path', path'.temporary].map target? = places.map some

namespace PartitionFiles

variable {p : PartitionFiles} {partition partition' : Partition}

def temporaryName (chunk : ChunkPos) : String := s!"c.{chunk.x}.{chunk.z}.tmp"

theorem toList_temporaryName (chunk : ChunkPos) : (temporaryName chunk).toList = ['c', '.'] ++
    ((toString chunk.x).toList ++ '.' :: (toString chunk.z).toList) ++ ['.', 't', 'm', 'p'] := by
  change ("c." ++ toString chunk.x ++ "." ++ toString chunk.z ++ ".tmp").toList = _
  simp

theorem temporaryName_inj {chunk chunk' : ChunkPos}
    (h : temporaryName chunk = temporaryName chunk') : chunk = chunk' := by
  have hl := congrArg String.toList h
  rw [toList_temporaryName, toList_temporaryName] at hl
  refine fileName_inj (String.toList_inj.mp ?_)
  rw [toList_fileName, toList_fileName, List.append_cancel_right hl]

theorem utf8ByteSize_temporaryName_le (chunk : ChunkPos) :
    (temporaryName chunk).utf8ByteSize ≤ (fileName chunk).utf8ByteSize := by
  change ("c." ++ toString chunk.x ++ "." ++ toString chunk.z ++ ".tmp").utf8ByteSize ≤
    ("c." ++ toString chunk.x ++ "." ++ toString chunk.z ++ ".mdat").utf8ByteSize
  have hextension : ".tmp".utf8ByteSize ≤ ".mdat".utf8ByteSize := by decide
  simp only [String.utf8ByteSize_append]
  omega

theorem nul_notMem_temporaryName (chunk : ChunkPos) : '\x00' ∉ (temporaryName chunk).toList := by
  have hx : '\x00' ∉ (toString chunk.x).toList := notMem_toString rfl (by decide) _
  have hz : '\x00' ∉ (toString chunk.z).toList := notMem_toString rfl (by decide) _
  simp [toList_temporaryName, hx, hz]

theorem isName_of_toList {name : String} {chunk : ChunkPos} {extension : List Char}
    (h : name.toList = ['c', '.'] ++
      ((toString chunk.x).toList ++ '.' :: (toString chunk.z).toList) ++ extension)
    (hl : extension.length ≤ 5) : IsName name := by
  have hx := length_toString_le chunk.x
  have hz := length_toString_le chunk.z
  have hlength := congrArg List.length h
  simp only [List.length_append, List.length_cons, List.length_nil] at hlength
  have hne {name' : String} (hn : name'.toList.length ≤ 2) : name ≠ name' := by
    rintro rfl
    omega
  refine ⟨by simp [Path.isIdle, hne], hne (by decide), ?_⟩
  have hsize := utf8ByteSize_ofList_le name.toList
  rw [String.ofList_toList] at hsize
  change name.utf8ByteSize ≤ 255
  omega

theorem isName_fileName (chunk : ChunkPos) : IsName (fileName chunk) :=
  isName_of_toList (toList_fileName chunk) (by decide)

theorem isName_temporaryName (chunk : ChunkPos) : IsName (temporaryName chunk) :=
  isName_of_toList (toList_temporaryName chunk) (by decide)

theorem stem_fileName (chunk : ChunkPos) : Path.stem (fileName chunk).toList = ['c', '.'] ++
    ((toString chunk.x).toList ++ '.' :: (toString chunk.z).toList) := by
  simp [Path.stem, toList_fileName]

theorem temporary_fileName (front : Path) (chunk : ChunkPos) :
    (front ++ [fileName chunk]).temporary = front ++ [temporaryName chunk] := by
  have hname := isName_fileName chunk
  have hend := Path.trimEnd_snoc front hname.stays
  have htemporary : String.ofList (Path.stem (fileName chunk).toList ++ ['.', 't', 'm', 'p']) =
      temporaryName chunk := by
    rw [stem_fileName, ← toList_temporaryName, String.ofList_toList]
  unfold Path.temporary
  rw [hend, List.getLast?_concat]
  split
  · cases ‹_ = none›
  · rename_i hdots
    exact absurd (Option.some.inj hdots) hname.descends
  · rename_i heq
    obtain rfl := Option.some.inj heq
    dsimp only
    rw [if_neg (by simp [stem_fileName]), htemporary, Path.directory_snoc front hname.stays]

/-- The place of the temporary file of a partition. -/
def temporaryPlace (p : PartitionFiles) (partition : Partition) : Place :=
  Path.destination p.root ++ [partition.world, temporaryName partition.chunk]

theorem temporaryPlace_inj (h : p.temporaryPlace partition = p.temporaryPlace partition') :
    partition = partition' := by
  obtain ⟨hworld, hname⟩ := List.cons.inj (List.append_cancel_left h)
  have hchunk := temporaryName_inj (List.cons.inj hname).1
  cases partition
  cases partition'
  cases hworld
  cases hchunk
  rfl

theorem temporaryPlace_ne_place (p : PartitionFiles) (partition partition' : Partition) :
    p.temporaryPlace partition ≠ p.place partition' := by
  intro h
  have hname := (List.cons.inj (List.cons.inj (List.append_cancel_left h)).2).1
  have hlast := congrArg (fun name => name.toList.reverse.head?) hname
  simp [toList_fileName, toList_temporaryName] at hlast

theorem target?_temporary_path {path : Path} (h : p.path partition = .ok path) :
    path.temporary.target? = some (p.temporaryPlace partition) := by
  unfold PartitionFiles.path at h
  split at h
  · rename_i hu
    have hname := isName_temporaryName partition.chunk
    cases h
    rw [List.append_cons, temporary_fileName, ← List.append_cons]
    exact target?_of_isUsable hu hname.stays hname.descends p.root
  · cases h

/-- Different partitions share neither a file nor a temporary file. -/
theorem apart (hu : isUsable partition.world = true) (hu' : isUsable partition'.world = true)
    (hne : partition ≠ partition') : ∃ path path', p.path partition = .ok path ∧
      p.path partition' = .ok path' ∧ path.Apart path' := by
  obtain ⟨path, hpath⟩ : ∃ path, p.path partition = .ok path := ⟨_, if_pos hu⟩
  obtain ⟨path', hpath'⟩ : ∃ path', p.path partition' = .ok path' := ⟨_, if_pos hu'⟩
  have hfile := target?_path hpath
  have hfile' := target?_path hpath'
  have htemporary := target?_temporary_path hpath
  have htemporary' := target?_temporary_path hpath'
  have hbeside (partition partition' : Partition) :
      p.place partition ≠ p.temporaryPlace partition' :=
    (p.temporaryPlace_ne_place partition' partition).symm
  have hplace : p.place partition ≠ p.place partition' := fun h => hne (place_inj h)
  have htemporaryPlace : p.temporaryPlace partition ≠ p.temporaryPlace partition' :=
    fun h => hne (temporaryPlace_inj h)
  refine ⟨path, path', hpath, hpath', [p.place partition, p.temporaryPlace partition,
    p.place partition', p.temporaryPlace partition'], ?_, ?_⟩
  · simp [hplace, htemporaryPlace, hbeside, temporaryPlace_ne_place]
  · simp [hfile, hfile', htemporary, htemporary']

end PartitionFiles

end MachineVault
