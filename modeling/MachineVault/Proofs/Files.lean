import Std.Data.String.ToInt
import MachineVault.Backing.Files
import MachineVault.Proofs.Backing
import MachineVault.Proofs.CacheTable
import MachineVault.Proofs.FileSystem.Sparing
import MachineVault.Proofs.Frame
import MachineVault.Proofs.Oversize
import MachineVault.Proofs.Sections

/-! The files of partitions and tables. What has been written to one is read again. Each partition
has a file of its own, and that is left as it was when the file of another partition is written,
when a table is saved that is kept elsewhere, and when it cannot be written itself. -/

namespace MachineVault

open FileSystem (Place Spares)

/-- A framed file is replaced unless its payload is too long. -/
theorem FileSystem.replaceFramed_cases (fs : FileSystem) (magic : Magic) (path : Path)
    (payload : Bytes) :
    (∃ e, Frame.wrap magic payload = .error e ∧
      fs.replaceFramed magic path payload = (fs, .error (.format e))) ∨
    ∃ frame, Frame.wrap magic payload = .ok frame ∧ fs.replaceFramed magic path payload =
      ((fs.replace path frame).1, fileOutcome (fs.replace path frame).2) := by
  unfold FileSystem.replaceFramed
  cases Frame.wrap magic payload with
  | error e => exact .inl ⟨e, rfl, rfl⟩
  | ok frame => exact .inr ⟨frame, rfl, rfl⟩

theorem FileSystem.spares_replaceFramed {fs : FileSystem} {magic : Magic} {path : Path}
    {payload : Bytes} {place : Place} (ht : path.temporary.target? ≠ some place)
    (hp : path.target? ≠ some place) : Spares place fs (fs.replaceFramed magic path payload).1 := by
  rcases fs.replaceFramed_cases magic path payload with ⟨e, -, hv⟩ | ⟨frame, -, hv⟩
  · rw [hv]
    exact .refl place fs
  · rw [hv]
    exact spares_replace ht hp

theorem FileSystem.spares_of_replaceFramed_error {fs fs' : FileSystem} {magic : Magic} {path : Path}
    {payload : Bytes} {place : Place} {e : Error} (ht : path.temporary.target? ≠ some place)
    (h : fs.replaceFramed magic path payload = (fs', .error e)) : Spares place fs fs' := by
  rcases fs.replaceFramed_cases magic path payload with ⟨e', -, hv⟩ | ⟨frame, -, hv⟩
  · rw [h] at hv
    cases hv
    exact .refl place fs
  · rw [h] at hv
    cases hr : fs.replace path frame with
    | mk fs₁ outcome =>
    rw [hr] at hv
    cases outcome with
    | ok u => cases hv
    | error e' =>
      obtain rfl : fs' = fs₁ := congrArg Prod.fst hv
      exact spares_of_replace_error ht hr

/-- A payload that has been written is read again. -/
theorem FileSystem.readFramed_replaceFramed {fs fs' : FileSystem} {magic : Magic} {path : Path}
    {payload : Bytes} (h : fs.replaceFramed magic path payload = (fs', .ok ())) :
    payload.length < 2 ^ 32 ∧ fs'.readFramed magic path = .ok (some payload) := by
  rcases fs.replaceFramed_cases magic path payload with ⟨e, -, hv⟩ | ⟨frame, hw, hv⟩
  · cases h.symm.trans hv
  · cases hr : fs.replace path frame with
    | mk fs₁ outcome =>
    rw [h, hr] at hv
    cases outcome with
    | error e => cases hv
    | ok u =>
      obtain rfl : fs' = fs₁ := congrArg Prod.fst hv
      refine ⟨(Frame.wrap_eq_ok hw).1, bind_eq_ok.mpr ⟨some frame, ?_, ?_⟩⟩
      · rw [readOptional, read_replace hr]
        rfl
      · refine bind_eq_ok.mpr ⟨payload, ?_, rfl⟩
        rw [Frame.unwrap_wrap hw]
        rfl

theorem notMem_repr {c : Char} (hd : c.isDigit = false) (n : Nat) : c ∉ n.repr.toList := by
  intro h
  rw [Nat.repr_eq_ofList_toDigits, String.toList_ofList] at h
  cases hd.symm.trans (Nat.isDigit_of_mem_toDigits (by decide) (by decide) h)

/-- A number is written in digits, and with a sign if it is negative. -/
theorem notMem_toString {c : Char} (hd : c.isDigit = false) (hs : c ≠ '-') (v : Int32) :
    c ∉ (toString v).toList := by
  change c ∉ (v.toInt.repr).toList
  rw [Int.repr_eq_if]
  split
  · exact notMem_repr hd _
  · rw [String.toList_append, List.mem_append]
    rintro (h | h)
    · exact hs (List.mem_singleton.mp h)
    · exact notMem_repr hd _ h

theorem toString_inj {v v' : Int32} (h : (toString v).toList = (toString v').toList) : v = v' := by
  have hr : v.toInt.repr = v'.toInt.repr := String.toList_inj.mp h
  exact Int32.toInt_inj.mp (Int.repr_inj.mp hr)

/-- The first of two strings without a character ends where the character stands. -/
theorem append_cons_inj {c : Char} {l l' rest rest' : List Char} (hl : c ∉ l) (hl' : c ∉ l')
    (h : l ++ c :: rest = l' ++ c :: rest') : l = l' ∧ rest = rest' := by
  induction l generalizing l' with
  | nil =>
    cases l' with
    | nil => exact ⟨rfl, (List.cons.inj h).2⟩
    | cons a l' => exact absurd ((List.cons.inj h).1 ▸ List.mem_cons_self) hl'
  | cons a l ih =>
    cases l' with
    | nil => exact absurd ((List.cons.inj h).1 ▸ List.mem_cons_self) hl
    | cons a' l' =>
      rw [List.cons_append, List.cons_append] at h
      obtain ⟨rfl, htail⟩ := List.cons.inj h
      obtain ⟨rfl, hrest⟩ := ih (List.not_mem_of_not_mem_cons hl)
        (List.not_mem_of_not_mem_cons hl') htail
      exact ⟨rfl, hrest⟩

namespace PartitionFiles

variable {p : PartitionFiles} {fs fs' : FileSystem} {partition partition' : Partition}
  {path path' : Path} {entries : List (String × Bytes)}

theorem toList_fileName (chunk : ChunkPos) : (fileName chunk).toList = ['c', '.'] ++
    ((toString chunk.x).toList ++ '.' :: (toString chunk.z).toList) ++
      ['.', 'm', 'd', 'a', 't'] := by
  change ("c." ++ toString chunk.x ++ "." ++ toString chunk.z ++ ".mdat").toList = _
  simp

theorem fileName_inj {chunk chunk' : ChunkPos} (h : fileName chunk = fileName chunk') :
    chunk = chunk' := by
  have hl := congrArg String.toList h
  rw [toList_fileName, toList_fileName] at hl
  have hl := List.append_cancel_left (List.append_cancel_right hl)
  obtain ⟨hx, hz⟩ := append_cons_inj (notMem_toString rfl (by decide) _)
    (notMem_toString rfl (by decide) _) hl
  cases chunk
  cases chunk'
  cases toString_inj hx
  cases toString_inj hz
  rfl

/-- The place of a partition's file. -/
def place (p : PartitionFiles) (partition : Partition) : Place :=
  Path.destination p.root ++ [partition.world, fileName partition.chunk]

theorem place_inj (h : p.place partition = p.place partition') : partition = partition' := by
  obtain ⟨hworld, hname⟩ := List.cons.inj (List.append_cancel_left h)
  have hchunk := fileName_inj (List.cons.inj hname).1
  cases partition
  cases partition'
  cases hworld
  cases hchunk
  rfl

theorem ne_of_isUsable {world : String} (h : isUsable world = true) :
    Path.isIdle world = false ∧ world ≠ ".." := by
  simp only [isUsable, Bool.and_eq_true, decide_eq_true_eq] at h
  obtain ⟨⟨⟨hempty, hpoint⟩, hpoints⟩, -⟩ := h
  exact ⟨by simp [Path.isIdle, hempty, hpoint], hpoints⟩

/-- A world that can be used has its own directory, and a name in it is that of a file. -/
theorem target?_of_isUsable {world name : String} (hu : isUsable world = true)
    (hi : Path.isIdle name = false) (hd : name ≠ "..") (root : Path) :
    (root ++ [world, name]).target? = some (Path.destination root ++ [world, name]) := by
  obtain ⟨hidle, hpoints⟩ := ne_of_isUsable hu
  have hworld : Path.destination (root ++ [world]) = Path.destination root ++ [world] := by
    rw [Path.destination, List.foldl_append, List.foldl_cons, List.foldl_nil, Path.advance,
      if_neg (by simp [hidle]), if_neg hpoints, Path.destination]
  rw [List.append_cons, Path.target?_snoc, hworld, if_neg (by simp [hi, hd]), List.append_assoc]
  rfl

theorem target?_path (h : p.path partition = .ok path) :
    path.target? = some (p.place partition) := by
  unfold PartitionFiles.path at h
  split at h
  · rename_i hu
    cases h
    have hname {name : String} (hn : name.toList.length ≤ 2) :
        fileName partition.chunk ≠ name := by
      rintro rfl
      rw [toList_fileName] at hn
      simp at hn
    exact target?_of_isUsable hu (by simp [Path.isIdle, hname]) (hname (by decide)) p.root
  · cases h

/-- No temporary file is the file of a partition. -/
theorem target?_temporary_ne (path : Path) :
    path.temporary.target? ≠ some (p.place partition) := by
  intro h
  obtain ⟨above, stem, hplace⟩ := Path.target?_temporary h
  rw [place, List.append_cons] at hplace
  have hname := congrArg String.toList (List.singleton_inj.mp (List.append_inj_right' hplace rfl))
  rw [toList_fileName, String.toList_ofList] at hname
  have hlast := congrArg (fun name => name.reverse.head?) hname
  simp at hlast

/-- What a file reads as depends on the file alone. -/
theorem sections_of_contents {place : Place} {bytes : Bytes}
    (hc : fs.contents path = .ok (place, bytes)) : sections fs path =
      (Frame.unwrap partitionMagic bytes).mapError (.persistence ∘ .frame) >>= fun payload =>
        (Sections.decode payload).mapError .format := by
  have hread : fs.readOptional path = .ok (some bytes) := by
    rw [FileSystem.readOptional, FileSystem.read, hc]
    rfl
  rw [sections, FileSystem.readFramed, hread]
  change ((Frame.unwrap partitionMagic bytes).mapError (Error.persistence ∘ PersistenceError.frame)
    >>= fun payload => pure (some payload)) >>= _ = _
  cases Frame.unwrap partitionMagic bytes <;> rfl

/-- The ways in which a commit goes: it finds that it cannot be made, or it replaces the file. -/
theorem commit_cases (p : PartitionFiles) (fs : FileSystem) (partition : Partition)
    (entries : List (String × Bytes)) :
    (∃ e, p.change fs partition entries = .error e ∧
      (p.commit fs partition entries).value = (fs, .error e)) ∨
    ∃ path payload, p.path partition = .ok path ∧
      p.change fs partition entries = .ok (path, payload) ∧
      (p.commit fs partition entries).value = fs.replaceFramed partitionMagic path payload := by
  unfold commit
  cases hc : p.change fs partition entries with
  | error e => exact .inl ⟨e, rfl, rfl⟩
  | ok changed =>
    obtain ⟨path, payload⟩ := changed
    obtain ⟨_, hpath, h⟩ := bind_eq_ok.mp hc
    obtain ⟨_, -, h⟩ := bind_eq_ok.mp h
    obtain ⟨_, -, h⟩ := bind_eq_ok.mp h
    cases h
    refine .inr ⟨path, payload, hpath, rfl, ?_⟩
    dsimp only
    split <;> simp_all

/-- A commit that goes through has read the sections of the file, and the entries are in place. -/
theorem sections_commit (h : (p.commit fs partition entries).value = (fs', .ok ())) :
    ∃ path old, p.path partition = .ok path ∧ sections fs path = .ok old ∧
      sections fs' path = .ok (old.insertAll entries) := by
  rcases p.commit_cases fs partition entries with ⟨e, -, hv⟩ | ⟨path, payload, hpath, hc, hv⟩
  · cases h.symm.trans hv
  · rw [h] at hv
    have hread := (FileSystem.readFramed_replaceFramed hv.symm).2
    obtain ⟨_, hpath', hc⟩ := bind_eq_ok.mp hc
    obtain ⟨old, hold, hc⟩ := bind_eq_ok.mp hc
    obtain ⟨_, hencode, hc⟩ := bind_eq_ok.mp hc
    cases hc
    refine ⟨path, old, hpath, hold, bind_eq_ok.mpr ⟨_, hread, ?_⟩⟩
    cases he : (old.insertAll entries).encode with
    | error e =>
      rw [he] at hencode
      cases hencode
    | ok written =>
      rw [he] at hencode
      cases hencode
      dsimp only
      rw [Sections.decode_encode he]
      rfl

/-- A partition that cannot be read cannot be written either. -/
theorem commit_of_get_error {tag : String} {e : Error} (h : p.get fs partition tag = .error e) :
    (p.commit fs partition entries).value = (fs, .error e) := by
  have hc : p.change fs partition entries = .error e := by
    rcases bind_eq_error.mp h with hpath | ⟨path, hpath, h⟩
    · exact bind_eq_error.mpr (.inl hpath)
    · rcases bind_eq_error.mp h with hold | ⟨_, _, h⟩
      · exact bind_eq_error.mpr (.inr ⟨path, hpath, bind_eq_error.mpr (.inl hold)⟩)
      · cases h
  unfold commit
  rw [hc]
  rfl

/-- Apart from that only a length and the operating system keep it from being written. -/
theorem error_of_commit {e : Error}
    (h : (p.commit fs partition entries).value = (fs', .error e)) :
    (∀ tag, p.get fs partition tag = .error e) ∨ e.Oversize ∨ ∃ cause, e = .file cause := by
  rcases p.commit_cases fs partition entries with ⟨e', hc, hv⟩ | ⟨path, payload, -, -, hv⟩
  · obtain rfl : e = e' := Except.error.inj (congrArg Prod.snd (h.symm.trans hv))
    rcases bind_eq_error.mp hc with hpath | ⟨path, hpath, hc⟩
    · exact .inl fun _ => bind_eq_error.mpr (.inl hpath)
    · rcases bind_eq_error.mp hc with hold | ⟨old, -, hc⟩
      · exact .inl fun _ => bind_eq_error.mpr (.inr ⟨path, hpath, bind_eq_error.mpr (.inl hold)⟩)
      · rcases bind_eq_error.mp hc with hlong | ⟨_, -, hc⟩
        · exact .inr (.inl ((OnlyOversize.sections _).mapError hlong))
        · cases hc
  · rcases fs.replaceFramed_cases partitionMagic path payload with ⟨e', hw, hr⟩ | ⟨frame, -, hr⟩
    · obtain rfl : e = .format e' :=
        Except.error.inj (congrArg Prod.snd (h.symm.trans (hv.trans hr)))
      exact .inr (.inl ⟨e', (OnlyOversize.frame _ _).error hw, rfl⟩)
    · have ho := congrArg Prod.snd (h.symm.trans (hv.trans hr))
      cases hfile : (fs.replace path frame).2 with
      | error cause =>
        rw [hfile] at ho
        exact .inr (.inr ⟨cause, Except.error.inj ho⟩)
      | ok u =>
        rw [hfile] at ho
        cases ho

/-- Writing one partition spares the file of another. -/
theorem spares_commit (hne : partition' ≠ partition) :
    Spares (p.place partition) fs (p.commit fs partition' entries).value.1 := by
  rcases p.commit_cases fs partition' entries with ⟨e, -, hv⟩ | ⟨path, payload, hpath, -, hv⟩
  · rw [hv]
    exact .refl _ fs
  · rw [hv]
    refine FileSystem.spares_replaceFramed (target?_temporary_ne path) ?_
    rw [target?_path hpath]
    exact fun h => hne (place_inj (Option.some.inj h))

/-- A commit that fails spares the file of its own partition. -/
theorem spares_of_commit_error {e : Error}
    (h : (p.commit fs partition entries).value = (fs', .error e)) :
    Spares (p.place partition) fs fs' := by
  rcases p.commit_cases fs partition entries with ⟨e', -, hv⟩ | ⟨path, payload, -, -, hv⟩
  · rw [h] at hv
    cases hv
    exact .refl _ fs
  · rw [h] at hv
    exact FileSystem.spares_of_replaceFramed_error (target?_temporary_ne path) hv.symm

end PartitionFiles

namespace TableFile

variable {t : TableFile} {fs fs' : FileSystem} {table : CacheTable}

theorem value_save (t : TableFile) (fs : FileSystem) (table : CacheTable) :
    (t.save fs table).value = fs.replaceFramed tableMagic t.path table.encode := by
  unfold save
  split <;> simp_all

theorem load_save (h : (t.save fs table).value = (fs', .ok ())) :
    t.load fs' = .ok (some table) := by
  rw [value_save] at h
  obtain ⟨hl, hread⟩ := FileSystem.readFramed_replaceFramed h
  exact bind_eq_ok.mpr ⟨_, hread, bind_eq_ok.mpr ⟨_, CacheTable.decode_encode hl, rfl⟩⟩

/-- Saving a table spares the files of partitions, unless it is kept in one of them. -/
theorem spares_save {p : PartitionFiles} {partition : Partition}
    (h : t.path.target? ≠ some (p.place partition)) :
    Spares (p.place partition) fs (t.save fs table).value.1 := by
  rw [value_save]
  exact FileSystem.spares_replaceFramed (PartitionFiles.target?_temporary_ne t.path) h

end TableFile

end MachineVault
