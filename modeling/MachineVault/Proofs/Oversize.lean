import MachineVault.Frame
import MachineVault.Proofs.Encoding
import MachineVault.Sections

/-! Why something cannot be written. A length or a count that does not fit into a word is the only
reason, once the blocks of an index are at heights that the format can hold. -/

namespace MachineVault

/-- The error for a length or a count that does not fit into a word. -/
def FormatError.Oversize (e : FormatError) : Prop :=
  ∃ field, ∃ n : Nat, 2 ^ 32 ≤ n ∧ e = .outOfRange field n

/-- Such an error as storage comes to it. -/
def Error.Oversize (e : Error) : Prop := ∃ cause : FormatError, cause.Oversize ∧ e = .format cause

/-- What is refused is refused for a length or a count. -/
structure OnlyOversize {α : Type} (x : Except FormatError α) : Prop where
  error : ∀ {e}, x = .error e → e.Oversize

namespace OnlyOversize

variable {α β : Type}

theorem pure (a : α) : OnlyOversize (.ok a) where
  error he := by cases he

theorem bind {x : Except FormatError α} {f : α → Except FormatError β} (h : OnlyOversize x)
    (hf : ∀ a, OnlyOversize (f a)) : OnlyOversize (x >>= f) where
  error he := by
    cases x with
    | error e' =>
      cases he
      exact h.error rfl
    | ok a => exact (hf a).error he

theorem mapM {f : α → Except FormatError β} (h : ∀ a, OnlyOversize (f a)) (as : List α) :
    OnlyOversize (as.mapM f) := by
  induction as with
  | nil => exact .pure _
  | cons a as ih =>
    rw [List.mapM_cons]
    exact (h a).bind fun _ => ih.bind fun _ => .pure _

theorem mapError {x : Except FormatError α} {e : Error} (h : OnlyOversize x)
    (he : x.mapError .format = .error e) : e.Oversize := by
  cases x with
  | error cause =>
    cases he
    exact ⟨cause, h.error rfl, rfl⟩
  | ok a => cases he

theorem lengthWord (n : Nat) (field : Field) : OnlyOversize (lengthWord n field) where
  error he := by
    unfold MachineVault.lengthWord at he
    split at he
    · cases he
    · rename_i hn
      cases he
      exact ⟨field, n, Nat.le_of_not_lt hn, rfl⟩

theorem countedBytes (bytes : Bytes) (field : Field) : OnlyOversize (countedBytes bytes field) :=
  (lengthWord bytes.length field).bind fun _ => .pure _

theorem recordList (records : List Bytes) : OnlyOversize (RecordList.encode records) :=
  (lengthWord ..).bind fun _ => (mapM (fun _ => countedBytes ..) records).bind fun _ => .pure _

theorem sections (s : Sections) : OnlyOversize s.encode := by
  have hsection (entry : String × Bytes) : OnlyOversize (Sections.encodeSection entry) :=
    (countedBytes ..).bind fun _ => (countedBytes ..).bind fun _ => .pure _
  exact (lengthWord ..).bind fun _ => (mapM hsection _).bind fun _ => .pure _

theorem frame (magic : Magic) (payload : Bytes) : OnlyOversize (Frame.wrap magic payload) :=
  (lengthWord ..).bind fun _ => .pure _

theorem index {index : ChunkIndex}
    (h : ∀ block ∈ index.entries.keys, ChunkIndex.checkEncodable index.chunk block = .ok ()) :
    OnlyOversize index.encode := by
  have hentry (entry : Block × String) : OnlyOversize (ChunkIndex.encodeEntry entry) :=
    (countedBytes ..).bind fun _ => (countedBytes ..).bind fun _ => .pure _
  unfold ChunkIndex.encode
  rw [ChunkIndex.forM_eq_ok.mpr h]
  change OnlyOversize (if index.entries.isEmpty then _ else _)
  split
  · exact .pure _
  · exact (lengthWord ..).bind fun _ => (mapM hentry _).bind fun _ => .pure _

/-- A chunk of blocks at fitting heights. -/
theorem chunk {c : LoadedChunk} (h : ∀ block slot, c.slot? block = some slot →
      block.partition = c.partition ∧ 0 ≤ block.y ∧ block.y ≤ ChunkIndex.maxHeight) :
    OnlyOversize c.encode := by
  have hindex : OnlyOversize c.index.encode := by
    refine index fun block hb => ?_
    rw [LoadedChunk.index, Std.ExtTreeMap.keys_map, Std.ExtTreeMap.mem_keys,
      Std.ExtTreeMap.mem_iff_isSome_getElem?, Option.isSome_iff_exists] at hb
    obtain ⟨slot, hs⟩ := hb
    obtain ⟨hp, hy⟩ := h block slot hs
    exact ChunkIndex.checkEncodable_eq_ok.mpr ⟨congrArg Partition.chunk hp, hy⟩
  exact hindex.bind fun _ => (recordList _).bind fun _ => .pure _

end OnlyOversize

end MachineVault
