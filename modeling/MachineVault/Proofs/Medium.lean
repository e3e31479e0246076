import MachineVault.Backing.Medium
import MachineVault.Proofs.Files

/-! What has been committed or saved on a medium, in memory or in files, is read again, and what is
kept for one partition stays when another one is committed or a table is saved. -/

namespace MachineVault

instance : Backing.Recalls Medium where
  recalled {m m' table} h := by
    change (m.saveTable table).value = _ at h
    change m'.loadTable = _
    unfold Medium.saveTable at h
    split at h
    · rename_i t ht
      cases h
      rfl
    · rename_i t ht
      obtain ⟨rfl, ho⟩ := Prod.mk.inj h
      have hload := TableFile.load_save (Prod.ext rfl ho)
      unfold Medium.loadTable
      rw [ht]
      exact hload

namespace Medium

variable {m m' : Medium} {partition partition' : Partition} {tag : String} {bytes : Bytes}
  {entries : List (String × Bytes)} {outcome : Except Error Unit}

/-- The ways in which a commit goes: in memory it always succeeds, in files it is one of theirs. -/
inductive Committed (m : Medium) (partition : Partition) (entries : List (String × Bytes)) :
    Medium → Except Error Unit → Prop
  | memory {partitions : MemoryPartitions} (hp : m.partitions = .memory partitions) :
      Committed m partition entries
        { m with partitions := .memory (partitions.commit partition entries) } (.ok ())
  | files {p : PartitionFiles} {files : FileSystem} {outcome : Except Error Unit}
      (hp : m.partitions = .files p)
      (hf : (p.commit m.files partition entries).value = (files, outcome)) :
      Committed m partition entries { m with files } outcome

theorem committed_of_commit (h : (m.commit partition entries).value = (m', outcome)) :
    m.Committed partition entries m' outcome := by
  unfold commit at h
  cases hp : m.partitions with
  | memory partitions =>
    rw [hp] at h
    cases h
    exact .memory hp
  | files p =>
    rw [hp] at h
    obtain ⟨rfl, ho⟩ := Prod.mk.inj h
    exact .files hp (Prod.ext rfl ho)

end Medium

instance : Backing.Durable Medium where
  kept {m m' partition entries tag bytes} h ht := by
    change m'.get partition tag = _
    cases Medium.committed_of_commit h with
    | @memory partitions hp =>
      exact Backing.Durable.kept (b := (⟨partitions, {}⟩ : Memory)) (Prod.ext rfl rfl) ht
    | files hp hf =>
      obtain ⟨path, old, hpath, -, hnew⟩ := PartitionFiles.sections_commit hf
      unfold Medium.get
      rw [hp]
      refine bind_eq_ok.mpr ⟨path, hpath, bind_eq_ok.mpr ⟨_, hnew, ?_⟩⟩
      rw [Sections.getElem?_insertAll, ht]
      rfl

/-- All that is kept for one partition: its sections in memory, or its file. -/
inductive PartitionImage
  | sections (sections : Option Sections)
  | file (bytes : Option Bytes)

namespace Medium

variable {m m' : Medium} {partition partition' : Partition} {tag : String} {bytes : Bytes}
  {entries : List (String × Bytes)} {outcome : Except Error Unit}

def image (m : Medium) (partition : Partition) : PartitionImage :=
  match m.partitions with
  | .memory partitions => .sections partitions.sections[partition]?
  | .files p => .file (m.files.fileAt? (p.place partition))

/-- The table is not kept in the file of the partition. -/
def Aside (m : Medium) (partition : Partition) : Prop :=
  ∀ p t, m.partitions = .files p → m.table = .file t → t.path.target? ≠ some (p.place partition)

/-- Where partitions are files, this one has a file. -/
def HasFile (m : Medium) (partition : Partition) : Prop :=
  ∀ p path, m.partitions = .files p → p.path partition = .ok path →
    ∃ bytes, m.files.contents path = .ok (p.place partition, bytes)

/-- What is kept for a partition is left alone. -/
structure Spares (partition : Partition) (m m' : Medium) : Prop where
  memory : ∀ partitions, m.partitions = .memory partitions → ∃ partitions',
    m'.partitions = .memory partitions' ∧
      partitions'.sections[partition]? = partitions.sections[partition]?
  files : ∀ p, m.partitions = .files p →
    m'.partitions = .files p ∧ FileSystem.Spares (p.place partition) m.files m'.files
  table : ∀ t, m'.table = .file t → m.table = .file t

theorem Spares.refl (partition : Partition) (m : Medium) : Spares partition m m :=
  ⟨fun partitions h => ⟨partitions, h, rfl⟩, fun _ h => ⟨h, .refl _ _⟩, fun _ h => h⟩

theorem Spares.trans {m'' : Medium} (h : Spares partition m m') (h' : Spares partition m' m'') :
    Spares partition m m'' where
  memory partitions hp := by
    obtain ⟨partitions', hp', hs⟩ := h.memory partitions hp
    obtain ⟨partitions'', hp'', hs'⟩ := h'.memory partitions' hp'
    exact ⟨partitions'', hp'', hs'.trans hs⟩
  files p hp := by
    obtain ⟨hp', hs⟩ := h.files p hp
    obtain ⟨hp'', hs'⟩ := h'.files p hp'
    exact ⟨hp'', hs.trans hs'⟩
  table t ht := h.table t (h'.table t ht)

theorem Spares.image (h : Spares partition m m') : m'.image partition = m.image partition := by
  unfold Medium.image
  cases hp : m.partitions with
  | memory partitions =>
    obtain ⟨partitions', hp', hs⟩ := h.memory partitions hp
    rw [hp']
    exact congrArg PartitionImage.sections hs
  | files p =>
    obtain ⟨hp', hs⟩ := h.files p hp
    rw [hp']
    exact congrArg PartitionImage.file hs.file

theorem Spares.aside (h : Spares partition m m') (ha : m.Aside partition) :
    m'.Aside partition := by
  intro p t hp ht
  cases hm : m.partitions with
  | memory partitions =>
    obtain ⟨_, hp', -⟩ := h.memory partitions hm
    cases hp.symm.trans hp'
  | files p' =>
    cases hp.symm.trans (h.files p' hm).1
    exact ha p t hm (h.table t ht)

/-- As long as a partition has its file it reads the same. -/
theorem Spares.get (h : Spares partition m m') (hf : m.HasFile partition) (tag : String) :
    m'.get partition tag = m.get partition tag := by
  unfold Medium.get
  cases hp : m.partitions with
  | memory partitions =>
    obtain ⟨partitions', hp', hs⟩ := h.memory partitions hp
    rw [hp']
    exact congrArg (fun s => Except.ok (s.bind fun sections : Sections => sections[tag]?)) hs
  | files p =>
    obtain ⟨hp', hs⟩ := h.files p hp
    rw [hp']
    dsimp only
    unfold PartitionFiles.get
    cases hpath : p.path partition with
    | error e => rfl
    | ok path =>
      obtain ⟨bytes, hc⟩ := hf p path hp hpath
      change (do return (← PartitionFiles.sections m'.files path)[tag]?) = _
      rw [PartitionFiles.sections_of_contents (hs.contents hc),
        ← PartitionFiles.sections_of_contents hc]
      rfl

/-- Whatever a partition reads as but nothing, and but an error of the operating system, is in its
file. -/
theorem hasFile_of_get {outcome : Except Error (Option Bytes)}
    (h : m.get partition tag = outcome) (hn : outcome ≠ .ok none)
    (hos : ∀ cause, outcome ≠ .error (.file cause)) : m.HasFile partition := by
  intro p path hp hpath
  have hget : m.get partition tag = do return (← PartitionFiles.sections m.files path)[tag]? := by
    unfold Medium.get PartitionFiles.get
    rw [hp]
    dsimp only
    rw [hpath]
    rfl
  rw [← h, hget] at hn hos
  unfold PartitionFiles.sections FileSystem.readFramed FileSystem.readOptional FileSystem.read
    at hn hos
  cases hc : m.files.contents path with
  | ok found =>
    obtain ⟨place, bytes⟩ := found
    have htarget := (FileSystem.names_of_contents hc).1.target?
    rw [PartitionFiles.target?_path hpath] at htarget
    cases htarget
    exact ⟨bytes, rfl⟩
  | error cause =>
    rw [hc] at hn hos
    cases cause with
    | notFound => exact absurd rfl hn
    | _ => exact absurd rfl (hos _)

theorem Spares.of_files {files : FileSystem}
    (h : ∀ p, m.partitions = .files p → FileSystem.Spares (p.place partition) m.files files) :
    Spares partition m { m with files } :=
  ⟨fun partitions hp => ⟨partitions, hp, rfl⟩, fun p hp => ⟨hp, h p hp⟩, fun _ h => h⟩

/-- Committing one partition leaves alone what is kept for another. -/
theorem spares_of_commit (hne : partition' ≠ partition)
    (h : (m.commit partition' entries).value = (m', outcome)) : Spares partition m m' := by
  cases committed_of_commit h with
  | memory hp =>
    refine ⟨fun partitions' hp' => ⟨_, rfl, ?_⟩, fun p hp' => ?_, fun _ h => h⟩
    · cases hp.symm.trans hp'
      exact (getElem?_insert ..).trans (if_neg (Ne.symm hne))
    · cases hp.symm.trans hp'
  | @files p _ _ hp hf =>
    refine Spares.of_files fun p' hp' => ?_
    cases hp.symm.trans hp'
    obtain rfl := congrArg Prod.fst hf
    exact PartitionFiles.spares_commit hne

/-- So does a commit of the partition itself that fails. -/
theorem spares_of_commit_error {e : Error}
    (h : (m.commit partition entries).value = (m', .error e)) : Spares partition m m' := by
  cases committed_of_commit h with
  | files hp hf =>
    refine Spares.of_files fun p' hp' => ?_
    cases hp.symm.trans hp'
    exact PartitionFiles.spares_of_commit_error hf

/-- A commit moves neither the partitions nor the table. -/
theorem aside_of_commit (ha : m.Aside partition)
    (h : (m.commit partition' entries).value = (m', outcome)) : m'.Aside partition := by
  cases committed_of_commit h with
  | memory => exact nofun
  | files => exact fun p t hp ht => ha p t hp ht

/-- What cannot be read for a partition cannot be replaced. -/
theorem commit_of_get_error {e : Error} (h : m.get partition tag = .error e) :
    (m.commit partition entries).value = (m, .error e) := by
  cases hc : (m.commit partition entries).value with
  | mk m' outcome =>
  cases committed_of_commit hc with
  | memory hp =>
    rw [get, hp] at h
    cases h
  | files hp hf =>
    rw [get, hp] at h
    cases hf.symm.trans (PartitionFiles.commit_of_get_error h)
    rfl

theorem error_of_commit {e : Error} (h : (m.commit partition entries).value = (m', .error e)) :
    (∀ tag, m.get partition tag = .error e) ∨ e.Oversize ∨ ∃ cause, e = .file cause := by
  cases committed_of_commit h with
  | files hp hf =>
    unfold get
    rw [hp]
    exact PartitionFiles.error_of_commit hf

/-- Saving a table in a file replaces the framed file. -/
theorem value_saveTable {t : TableFile} (ht : m.table = .file t) (table : CacheTable) :
    (m.saveTable table).value = Prod.map (fun files => { m with files }) id
      (m.files.replaceFramed tableMagic t.path table.encode) := by
  rw [← TableFile.value_save]
  unfold saveTable
  split
  · rename_i h
    cases ht.symm.trans h
  · rename_i h
    cases ht.symm.trans h
    rfl

theorem spares_saveTable (ha : m.Aside partition) (table : CacheTable) :
    Spares partition m (m.saveTable table).value.1 := by
  unfold saveTable
  cases ht : m.table with
  | memory t =>
    exact ⟨fun partitions hp => ⟨partitions, hp, rfl⟩, fun p hp => ⟨hp, .refl _ _⟩, nofun⟩
  | file t =>
    exact Spares.of_files fun p hp => TableFile.spares_save (ha p t hp ht)

end Medium

namespace Faulty

variable {b b' : Faulty Medium} {partition partition' : Partition}

/-- With the same outages as before, what is kept for a partition is left alone. -/
structure Spares (partition : Partition) (b b' : Faulty Medium) : Prop where
  outages : b'.outages = b.outages
  inner : Medium.Spares partition b.inner b'.inner

theorem Spares.refl (partition : Partition) (b : Faulty Medium) : Spares partition b b :=
  ⟨rfl, .refl _ _⟩

theorem Spares.trans {b'' : Faulty Medium} (h : Spares partition b b')
    (h' : Spares partition b' b'') : Spares partition b b'' :=
  ⟨h'.outages.trans h.outages, h.inner.trans h'.inner⟩

/-- During an outage a partition reads the same too, file or not. -/
theorem Spares.get (h : Spares partition b b')
    (hf : b.outages.get = false → b.inner.HasFile partition) (tag : String) :
    Backing.get b' partition tag = Backing.get b partition tag := by
  simp only [Backing.get, h.outages]
  split
  · rfl
  · rename_i ho
    exact h.inner.get (hf (Bool.eq_false_iff.mpr ho)) tag

theorem spares_of_commit {entries : List (String × Bytes)} {outcome : Except Error Unit}
    (hne : partition' ≠ partition)
    (h : (Backing.commit b partition' entries).value = (b', outcome)) : Spares partition b b' := by
  obtain rfl : (Backing.commit b partition' entries).value.1 = b' := congrArg Prod.fst h
  rcases b.commit_eq_or partition' entries with hb | hb
  · rw [hb]
    exact .refl partition b
  · rw [hb]
    exact ⟨rfl, Medium.spares_of_commit hne rfl⟩

theorem spares_saveTable (ha : b.inner.Aside partition) (table : CacheTable) :
    Spares partition b (Backing.saveTable b table).value.1 := by
  rcases b.saveTable_eq_or table with hb | hb
  · rw [hb]
    exact .refl partition b
  · rw [hb]
    exact ⟨rfl, Medium.spares_saveTable ha table⟩

end Faulty

end MachineVault
