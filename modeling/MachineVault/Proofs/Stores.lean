import MachineVault.Proofs.FileNames
import MachineVault.Proofs.Medium

/-! A store in files answers as a store in memory does, call for call, where its directory was empty
at first and the operating system has room for its names. The relation between the two is that every
partition's file holds what memory has for it. -/

namespace MachineVault

open FileSystem (IsName Place)

namespace PartitionFiles

variable {p : PartitionFiles} {fs fs' : FileSystem} {partition : Partition}
  {entries : List (String × Bytes)} {held : Sections}

/-- The world of a partition can be used, and the operating system has room for its name and for the
path of the file. -/
structure Fits (p : PartitionFiles) (partition : Partition) : Prop where
  usable : isUsable partition.world = true
  short : partition.world.utf8ByteSize ≤ FileSystem.nameLimit
  valid : FileSystem.validate (p.root ++ [partition.world, fileName partition.chunk]) = .ok ()

theorem Fits.isName (h : p.Fits partition) : IsName partition.world := by
  obtain ⟨hidle, hpoints⟩ := ne_of_isUsable h.usable
  exact ⟨hidle, hpoints, h.short⟩

theorem Fits.path (h : p.Fits partition) :
    p.path partition = .ok (p.root ++ [partition.world, fileName partition.chunk]) :=
  if_pos h.usable

/-- The directory of a store is there or can be made. Below it there are only directories of worlds,
and in those only files. -/
inductive Ready (fs : FileSystem) : PartitionFiles → Prop
  | intro {front : Path} {names : List String} {base : Place}
      (hnames : ∀ name ∈ names, IsName name)
      (hclear : fs.Clear front base (names.length + 1)) : Ready fs ⟨front ++ names⟩

/-- What the file of a partition holds, if it has one. -/
inductive Keeps (p : PartitionFiles) (fs : FileSystem) (partition : Partition) : Sections → Prop
  | missing (hn : fs.fileAt? (p.place partition) = none) : Keeps p fs partition ∅
  | file {path : Path} {bytes : Bytes} {held : Sections} (hpath : p.path partition = .ok path)
      (hc : fs.contents path = .ok (p.place partition, bytes))
      (hs : PartitionFiles.sections fs path = .ok held) : Keeps p fs partition held

theorem Keeps.of_spares (h : p.Keeps fs partition held)
    (hs : FileSystem.Spares (p.place partition) fs fs') : p.Keeps fs' partition held := by
  cases h with
  | missing hn => exact .missing (hs.file.trans hn)
  | file hpath hc hheld =>
    refine .file hpath (hs.contents hc) ?_
    rw [sections_of_contents (hs.contents hc), ← sections_of_contents hc, hheld]

theorem Keeps.of_read {path : Path} {bytes : Bytes} (hpath : p.path partition = .ok path)
    (hread : fs.read path = .ok bytes) (hs : PartitionFiles.sections fs path = .ok held) :
    p.Keeps fs partition held := by
  rw [FileSystem.read] at hread
  cases hc : fs.contents path with
  | error e =>
    rw [hc] at hread
    cases hread
  | ok found =>
    obtain ⟨goal, bytes⟩ := found
    have hgoal := (FileSystem.names_of_contents hc).1.target?
    obtain rfl := Option.some.inj ((target?_path hpath).symm.trans hgoal)
    exact .file hpath hc hs

/-- It is what a partition reads as. -/
theorem Keeps.sections (h : p.Keeps fs partition held) (hr : Ready fs p) (hf : p.Fits partition) :
    ∃ path, p.path partition = .ok path ∧ PartitionFiles.sections fs path = .ok held := by
  refine ⟨_, hf.path, ?_⟩
  cases h with
  | file hpath hc hs =>
    cases hf.path.symm.trans hpath
    exact hs
  | missing hn =>
    obtain @⟨front, names, base, hnames, hclear⟩ := hr
    have hworld := FileSystem.isName_of_mem_snoc hnames hf.isName
    rw [place, hclear.destination_append hnames] at hn
    have hfind : fs.find (front ++ names ++ [partition.world, fileName partition.chunk]) =
        .error .notFound := by
      have := hclear.find_of_fileAt?_eq_none hworld (by simp) (isName_fileName partition.chunk)
        (by simpa using hf.valid) (by simpa using hn)
      simpa using this
    rw [PartitionFiles.sections, FileSystem.readFramed, FileSystem.readOptional, FileSystem.read,
      FileSystem.contents, hfind]
    rfl

theorem validate_temporary (h : p.Fits partition) : FileSystem.validate
    (p.root ++ [partition.world] ++ [temporaryName partition.chunk]) = .ok () := by
  have hv := h.valid
  rw [List.append_cons] at hv
  exact FileSystem.validate_beside hv (nul_notMem_temporaryName _) (utf8ByteSize_temporaryName_le _)

/-- A file can be replaced where there is room for it. -/
theorem exists_replace (hr : Ready fs p) (hf : p.Fits partition) (bytes : Bytes) :
    ∃ fs', fs.replace (p.root ++ [partition.world, fileName partition.chunk]) bytes =
      (fs', .ok ()) ∧ Ready fs' p := by
  obtain @⟨front, names, base, hnames, hclear⟩ := hr
  have htemporary := validate_temporary hf
  have hv := hf.valid
  rw [List.append_cons] at hv ⊢
  dsimp only at hv htemporary ⊢
  rw [List.append_assoc front] at hv htemporary ⊢
  obtain ⟨fs', hreplace, hclear'⟩ := hclear.replace (FileSystem.isName_of_mem_snoc hnames hf.isName)
    (by simp) (isName_fileName _) (isName_temporaryName _) (temporary_fileName _ _) hv htemporary
    bytes
  exact ⟨fs', hreplace, hnames, hclear'⟩

/-- A commit goes through unless the sections get too long, and the file holds them afterwards. -/
theorem Keeps.commit (h : p.Keeps fs partition held) (hr : Ready fs p) (hf : p.Fits partition)
    (hl : (held.insertAll entries).storedLength < 2 ^ 32) :
    ∃ fs', (p.commit fs partition entries).value = (fs', .ok ()) ∧ Ready fs' p ∧
      p.Keeps fs' partition (held.insertAll entries) := by
  obtain ⟨path, hpath, hheld⟩ := h.sections hr hf
  obtain ⟨payload, hencode, hlength⟩ := Sections.exists_encode hl
  obtain ⟨frame, hframe⟩ := Frame.exists_wrap partitionMagic (hlength ▸ hl)
  have hchange : p.change fs partition entries = .ok (path, payload) := by
    refine bind_eq_ok.mpr ⟨path, hpath, bind_eq_ok.mpr ⟨held, hheld, ?_⟩⟩
    rw [hencode]
    rfl
  obtain ⟨fs', hreplace, hready⟩ := exists_replace hr hf frame
  cases hf.path.symm.trans hpath
  have hcommit : (p.commit fs partition entries).value = (fs', .ok ()) := by
    rcases p.commit_cases fs partition entries with ⟨e, he, -⟩ | ⟨_, _, -, hc, hv⟩
    · cases he.symm.trans hchange
    · cases hc.symm.trans hchange
      rw [hv, FileSystem.replaceFramed, hframe]
      dsimp only
      rw [hreplace]
      rfl
  obtain ⟨_, _, hpath', hold, hnew⟩ := sections_commit hcommit
  cases hpath.symm.trans hpath'
  cases hheld.symm.trans hold
  exact ⟨fs', hcommit, hready, .of_read hpath (FileSystem.read_replace hreplace) hnew⟩

end PartitionFiles

/-- Calls on the partitions of a medium. Between two of them the handles to it may be made anew. -/
inductive PartitionCall
  | set (partition : Partition) (tag : String) (bytes : Bytes)
  | commit (partition : Partition) (entries : List (String × Bytes))
  | get (partition : Partition) (tag : String)
  | reopen

inductive PartitionReply
  | done (outcome : Except Error Unit)
  | found (outcome : Except Error (Option Bytes))

def PartitionCall.partition? : PartitionCall → Option Partition
  | set partition _ _ | commit partition _ | get partition _ => some partition
  | reopen => none

def PartitionReply.isOk : PartitionReply → Bool
  | done outcome => outcome.isOk
  | found outcome => outcome.isOk

/-- A path leads to an empty directory, or to one that can be made in an empty directory. -/
def FileSystem.Vacant (fs : FileSystem) (root : Path) : Prop :=
  ∃ (front : Path) (names : List String) (base : Place), root = front ++ names ∧
    (∀ name ∈ names, IsName name) ∧ fs.find front = .ok (base, .directory) ∧
    ∀ below, below ≠ [] → (∀ name ∈ below, IsName name) → fs.nodes[base ++ below]? = none

theorem MemoryPartitions.getElem?_update (m : MemoryPartitions) (partition : Partition)
    (entries : List (String × Bytes)) (partition' : Partition) :
    (m.update partition entries).sections[partition']? =
      if partition' = partition then some ((m.sections[partition]?.getD ∅).insertAll entries)
      else m.sections[partition']? :=
  getElem?_insert ..

namespace Medium

variable {p : PartitionFiles} {m n : Medium} {partition : Partition}
  {entries : List (String × Bytes)}

/-- The same medium by new handles. A handle to files is the path of their directory. -/
def reopened (m : Medium) : Medium :=
  match m.partitions with
  | .memory _ => m
  | .files p => { m with partitions := .files ⟨p.root⟩ }

def call (m : Medium) : PartitionCall → Medium × PartitionReply
  | .set partition tag bytes => (m.set partition tag bytes).value.map id .done
  | .commit partition entries => (m.commit partition entries).value.map id .done
  | .get partition tag => (m, .found (m.get partition tag))
  | .reopen => (m.reopened, .done (.ok ()))

/-- Where a run of calls leads. -/
def afterCalls (m : Medium) : List PartitionCall → Medium
  | [] => m
  | call :: rest => (m.call call).1.afterCalls rest

/-- What a run of calls is answered. -/
def replies (m : Medium) : List PartitionCall → List PartitionReply
  | [] => []
  | call :: rest => (m.call call).2 :: (m.call call).1.replies rest

theorem afterCalls_append (m : Medium) (calls rest : List PartitionCall) :
    m.afterCalls (calls ++ rest) = (m.afterCalls calls).afterCalls rest := by
  induction calls generalizing m with
  | nil => rfl
  | cons call calls ih => exact ih (m.call call).1

/-- No partition in memory would be too long for a file. A frame says in one word how long everything
in it is, so the sections of a partition have to be short enough all together. -/
def Short (n : Medium) : Prop :=
  ∀ partition sections, n.image partition = .sections (some sections) →
    sections.storedLength < 2 ^ 32

/-- A medium in files holds what one in memory does. -/
structure Matches (p : PartitionFiles) (m n : Medium) : Prop where
  files : m.partitions = .files p
  ready : PartitionFiles.Ready m.files p
  memory : ∃ partitions, n.partitions = .memory partitions ∧ ∀ partition, p.Fits partition →
    p.Keeps m.files partition (partitions.sections[partition]?.getD ∅)

/-- Entries are put beside the others on both sides. -/
theorem Matches.update {partitions : MemoryPartitions} (h : Matches p m n)
    (hn : n.partitions = .memory partitions) (hf : p.Fits partition)
    (partitions' : MemoryPartitions)
    (hs : partitions'.sections = (partitions.update partition entries).sections)
    (hl : Short { n with partitions := .memory partitions' }) :
    ∃ m', (m.withFiles (p.commit m.files partition entries)).value = (m', .ok ()) ∧
      Matches p m' { n with partitions := .memory partitions' } := by
  obtain ⟨_, hn', hkeeps⟩ := h.memory
  cases hn.symm.trans hn'
  have hself : partitions'.sections[partition]? =
      some ((partitions.sections[partition]?.getD ∅).insertAll entries) := by
    rw [hs, partitions.getElem?_update, if_pos rfl]
  obtain ⟨files, hcommit, hready, hnew⟩ := (hkeeps partition hf).commit h.ready hf
    (hl partition _ (congrArg PartitionImage.sections hself))
  have hm' : (m.withFiles (p.commit m.files partition entries)).value =
      ({ m with files }, .ok ()) := by
    rw [withFiles, Logged.value_map, hcommit]
  refine ⟨_, hm', h.files, hready, partitions', rfl, fun partition' hf' => ?_⟩
  by_cases hp : partition' = partition
  · subst hp
    rw [hself]
    exact hnew
  -- another partition has a file of its own, and that is spared
  · have hother : partitions'.sections[partition']? = partitions.sections[partition']? := by
      rw [hs, partitions.getElem?_update, if_neg hp]
    have hspares : FileSystem.Spares (p.place partition') m.files
        (p.commit m.files partition entries).value.1 :=
      PartitionFiles.spares_commit (Ne.symm hp)
    rw [hcommit] at hspares
    rw [hother]
    exact (hkeeps partition' hf').of_spares hspares

theorem Matches.get (h : Matches p m n) (hf : p.Fits partition) (tag : String) :
    m.get partition tag = n.get partition tag := by
  obtain ⟨partitions, hn, hkeeps⟩ := h.memory
  obtain ⟨path, hpath, hheld⟩ := (hkeeps partition hf).sections h.ready hf
  have hfiles : m.get partition tag =
      .ok (partitions.sections[partition]?.getD ∅)[tag]? := by
    unfold Medium.get
    rw [h.files]
    exact bind_eq_ok.mpr ⟨path, hpath, bind_eq_ok.mpr ⟨_, hheld, rfl⟩⟩
  rw [hfiles]
  unfold Medium.get
  rw [hn]
  cases hsections : partitions.sections[partition]? with
  | none => simp [MemoryPartitions.get?, hsections]
  | some sections => simp [MemoryPartitions.get?, hsections]

/-- A call that writes is answered alike, and without an error. -/
theorem Matches.write {partitions partitions' : MemoryPartitions} {call : PartitionCall}
    (h : Matches p m n) (hn : n.partitions = .memory partitions) (hf : p.Fits partition)
    (hl : Short (n.call call).1)
    (hmemory : n.call call = ({ n with partitions := .memory partitions' }, .done (.ok ())))
    (hfiles : m.call call =
      (m.withFiles (p.commit m.files partition entries)).value.map id .done)
    (hs : partitions'.sections = (partitions.update partition entries).sections) :
    (m.call call).2 = (n.call call).2 ∧ (n.call call).2.isOk ∧
      Matches p (m.call call).1 (n.call call).1 := by
  rw [hmemory] at hl
  obtain ⟨m', hm', hmatches⟩ := h.update hn hf partitions' hs hl
  rw [hmemory, hfiles, hm']
  exact ⟨rfl, rfl, hmatches⟩

/-- So is every call. -/
theorem Matches.call {call : PartitionCall} (h : Matches p m n)
    (hf : ∀ partition ∈ call.partition?, p.Fits partition) (hl : Short (n.call call).1) :
    (m.call call).2 = (n.call call).2 ∧ (n.call call).2.isOk ∧
      Matches p (m.call call).1 (n.call call).1 := by
  obtain ⟨partitions, hn, -⟩ := h.memory
  cases call with
  | set partition tag bytes =>
    have hmemory : n.call (.set partition tag bytes) = ({ n with
        partitions := .memory (partitions.set partition tag bytes) }, .done (.ok ())) := by
      rw [Medium.call, Medium.set, hn]
      rfl
    have hfiles : m.call (.set partition tag bytes) =
        (m.withFiles (p.commit m.files partition [(tag, bytes)])).value.map id .done := by
      rw [Medium.call, Medium.set, h.files]
    exact h.write hn (hf _ rfl) hl hmemory hfiles rfl
  | commit partition entries =>
    have hmemory : n.call (.commit partition entries) = ({ n with
        partitions := .memory (partitions.commit partition entries) }, .done (.ok ())) := by
      rw [Medium.call, Medium.commit, hn]
      rfl
    have hfiles : m.call (.commit partition entries) =
        (m.withFiles (p.commit m.files partition entries)).value.map id .done := by
      rw [Medium.call, Medium.commit, h.files]
    exact h.write hn (hf _ rfl) hl hmemory hfiles rfl
  | get partition tag =>
    refine ⟨congrArg PartitionReply.found (h.get (hf _ rfl) tag), ?_, h⟩
    rw [Medium.call, Medium.get, hn]
    rfl
  | reopen =>
    have hfiles : m.reopened = m := by
      rw [Medium.reopened, h.files]
      cases m
      cases h.files
      rfl
    have hmemory : n.reopened = n := by
      rw [Medium.reopened, hn]
    refine ⟨rfl, rfl, ?_⟩
    rw [Medium.call, Medium.call, hfiles, hmemory]
    exact h

theorem Matches.run {calls : List PartitionCall} (h : Matches p m n)
    (hf : ∀ call ∈ calls, ∀ partition ∈ call.partition?, p.Fits partition)
    (hl : ∀ done, done <+: calls → Short (n.afterCalls done)) :
    m.replies calls = n.replies calls ∧ (∀ reply ∈ n.replies calls, reply.isOk) ∧
      Matches p (m.afterCalls calls) (n.afterCalls calls) := by
  induction calls generalizing m n with
  | nil => exact ⟨rfl, nofun, h⟩
  | cons call rest ih =>
    obtain ⟨hreply, hok, hmatches⟩ := h.call (hf call List.mem_cons_self)
      (hl [call] (List.prefix_append [call] rest))
    obtain ⟨hreplies, hoks, hafter⟩ := ih hmatches
      (fun call' hm => hf call' (List.mem_cons_of_mem _ hm))
      (fun done hd => hl (call :: done) ((List.prefix_cons_inj call).mpr hd))
    refine ⟨congrArg₂ List.cons hreply hreplies, fun reply hm => ?_, hafter⟩
    rcases List.mem_cons.mp hm with rfl | hm
    · exact hok
    · exact hoks reply hm

theorem matches_start {root : Path} (hm : m.partitions = .files ⟨root⟩)
    (hroot : m.files.Vacant root) : Matches ⟨root⟩ m {} := by
  obtain ⟨front, names, base, rfl, hnames, hfind, hnone⟩ := hroot
  obtain ⟨⟨⟩, -, hwalk⟩ := bind_eq_ok.mp hfind
  have hclear : m.files.Clear front base (names.length + 1) :=
    ⟨hwalk, fun hne hn hnode => by cases (hnone _ hne hn).symm.trans hnode⟩
  refine ⟨hm, ⟨hnames, hclear⟩, {}, rfl, fun partition hf => ?_⟩
  rw [Std.ExtTreeMap.getElem?_empty]
  refine .missing ?_
  have hplace : PartitionFiles.place ⟨front ++ names⟩ partition = base ++
      (names ++ [partition.world] ++ [PartitionFiles.fileName partition.chunk]) := by
    rw [PartitionFiles.place, hclear.destination_append hnames]
    simp
  have hnode := hnone (names ++ [partition.world] ++ [PartitionFiles.fileName partition.chunk])
    (by simp) (FileSystem.isName_of_mem_snoc (FileSystem.isName_of_mem_snoc hnames hf.isName)
      (PartitionFiles.isName_fileName _))
  rw [hplace, FileSystem.fileAt?, hnode]

/-- A commit to memory leaves the other tags as they were. -/
theorem get_commit_of_notMem {tag : String} {partitions : MemoryPartitions}
    (hn : n.partitions = .memory partitions) (ht : tag ∉ entries.map Prod.fst) :
    (n.call (.commit partition entries)).1.get partition tag = n.get partition tag := by
  have hself : (partitions.commit partition entries).sections[partition]? =
      some ((partitions.sections[partition]?.getD ∅).insertAll entries) :=
    (partitions.getElem?_update ..).trans (if_pos rfl)
  rw [Medium.call, Medium.commit, hn]
  change Except.ok ((partitions.commit partition entries).get? partition tag) = _
  rw [MemoryPartitions.get?, hself, Option.bind_some, Sections.getElem?_insertAll,
    lastBytes?_eq_none ht, Option.none_or, Medium.get, hn]
  dsimp only
  rw [MemoryPartitions.get?]
  cases partitions.sections[partition]? <;> simp

/-- From an empty directory, where there is room for all names and no partition gets too long, a
store in files answers as one in memory does, whatever is called and however often it is opened
anew. No call fails, different partitions share neither a file nor a temporary file, and the tags
that a commit does not name read as before. -/
theorem replies_eq_memory {root : Path} {calls : List PartitionCall}
    (hm : m.partitions = .files ⟨root⟩) (hroot : m.files.Vacant root)
    (hfits : ∀ call ∈ calls, ∀ partition ∈ call.partition?, PartitionFiles.Fits ⟨root⟩ partition)
    (hshort : ∀ done, done <+: calls → Short (({} : Medium).afterCalls done)) :
    m.replies calls = ({} : Medium).replies calls ∧
    (∀ reply ∈ m.replies calls, reply.isOk) ∧
    (∀ partition partition' : Partition, PartitionFiles.isUsable partition.world →
      PartitionFiles.isUsable partition'.world → partition ≠ partition' →
      ∃ path path', PartitionFiles.path ⟨root⟩ partition = .ok path ∧
        PartitionFiles.path ⟨root⟩ partition' = .ok path' ∧ path.Apart path') ∧
    ∀ done partition entries, done ++ [.commit partition entries] <+: calls →
      ∀ tag, tag ∉ entries.map Prod.fst →
        (m.afterCalls (done ++ [.commit partition entries])).get partition tag =
          (m.afterCalls done).get partition tag := by
  have hstart := matches_start hm hroot
  obtain ⟨hreplies, hok, -⟩ := hstart.run hfits hshort
  refine ⟨hreplies, hreplies ▸ hok, fun _ _ hu hu' hne => PartitionFiles.apart hu hu' hne, ?_⟩
  intro done partition entries hdone tag ht
  have hall := fun call hc => hfits call (hdone.subset hc)
  have hpartition : PartitionFiles.Fits ⟨root⟩ partition :=
    hall (.commit partition entries) (by simp) partition rfl
  obtain ⟨-, -, hbefore⟩ := hstart.run (fun call hc => hall call (List.mem_append_left _ hc))
    fun done' hd => hshort done' (hd.trans ((List.prefix_append _ _).trans hdone))
  obtain ⟨-, -, hafter⟩ := hstart.run hall fun done' hd => hshort done' (hd.trans hdone)
  obtain ⟨partitions, hmemory, -⟩ := hbefore.memory
  rw [hafter.get hpartition, hbefore.get hpartition, afterCalls_append]
  exact get_commit_of_notMem hmemory ht

/-- Two partitions, one of them with a repeated tag and a commit of nothing. -/
def sampleCalls : List PartitionCall :=
  [.set ⟨"nether", ⟨-1, 0⟩⟩ "machines" [1], .commit ⟨"nether", ⟨0, 0⟩⟩ [("machines", [2])], .reopen,
    .commit ⟨"nether", ⟨0, 0⟩⟩ [("index", [3]), ("index", [4])], .commit ⟨"nether", ⟨0, 0⟩⟩ [],
    .get ⟨"nether", ⟨0, 0⟩⟩ "index"]

theorem vacant_empty : ({} : FileSystem).Vacant ["vault"] := by
  have hroot : ({} : FileSystem).find [] = .ok ([], .directory) := by
    rw [FileSystem.find, FileSystem.validate_eq_ok (by decide) (by decide)]
    rfl
  refine ⟨[], ["vault"], [], rfl, ?_, hroot, fun _ _ _ => Std.ExtTreeMap.getElem?_empty⟩
  intro name hn
  obtain rfl := List.mem_singleton.mp hn
  exact ⟨rfl, by decide, by decide⟩

theorem fits_sampleCalls : ∀ call ∈ sampleCalls, ∀ partition ∈ call.partition?,
    PartitionFiles.Fits ⟨["vault"]⟩ partition := by
  have hfits {partition : Partition} (hw : partition.world = "nether")
      (hv : FileSystem.validate ["vault", partition.world,
        PartitionFiles.fileName partition.chunk] = .ok ()) :
      PartitionFiles.Fits ⟨["vault"]⟩ partition :=
    ⟨hw ▸ by decide, hw ▸ by decide, hv⟩
  intro call hc partition hp
  simp only [sampleCalls, List.mem_cons, List.not_mem_nil, or_false] at hc
  rcases hc with rfl | rfl | rfl | rfl | rfl | rfl <;> cases hp <;>
    exact hfits rfl (FileSystem.validate_eq_ok (by decide +kernel) (by decide +kernel))

theorem short_of_memory {partitions : MemoryPartitions} (hn : n.partitions = .memory partitions)
    (h : ∀ entry ∈ partitions.sections.toList, entry.2.storedLength < 2 ^ 32) : Short n := by
  intro partition sections hs
  rw [image, hn] at hs
  exact h _ (Std.ExtTreeMap.mem_toList_iff_getElem?_eq_some.mpr (PartitionImage.sections.inj hs))

theorem short_sampleCalls : ∀ done, done <+: sampleCalls →
    Short (({} : Medium).afterCalls done) := by
  intro done hd
  have hm := (List.mem_inits _ _).mpr hd
  simp only [sampleCalls, List.inits, List.map_cons, List.map_nil, List.mem_cons, List.not_mem_nil,
    or_false] at hm
  rcases hm with rfl | rfl | rfl | rfl | rfl | rfl | rfl <;>
    exact short_of_memory rfl (by decide +kernel)

theorem replies_eq_memory_sampleCalls :
    (Medium.inFiles ["vault"] ["table"]).partitions = .files ⟨["vault"]⟩ ∧
    (Medium.inFiles ["vault"] ["table"]).files.Vacant ["vault"] ∧
    (Medium.inFiles ["vault"] ["table"]).replies sampleCalls =
      ({} : Medium).replies sampleCalls ∧
    (({} : Medium).replies sampleCalls).getLast? = some (.found (.ok (some [4]))) :=
  ⟨rfl, vacant_empty,
    (replies_eq_memory rfl vacant_empty fits_sampleCalls short_sampleCalls).1, by rfl⟩

end Medium

end MachineVault
