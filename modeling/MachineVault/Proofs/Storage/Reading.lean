import MachineVault.Proofs.Loading
import MachineVault.Proofs.Storage.Backed
import MachineVault.Proofs.Storage.Forgetting

/-! What a load makes of any stored bytes, and what it costs the identifier cache. A machine that
the chunk holds keeps its entry, and a machine of another partition loses it to a record that lies
outside its chunk. Two losses are slips, since nobody looks whether the machine is still there: to a
second record for a block, and to an index that lists a block of another partition. -/

namespace MachineVault

/-- A record of a machine for a block can be read. -/
def NamedIn (records : List Bytes) (id : MachineId) (block : Block) : Prop :=
  ∃ bytes ∈ records, ∃ record, Machine.decode bytes = .ok record ∧ record.id = id ∧
    record.location = block

/-- A record of a machine for a block can be read behind another one for that block. -/
def RepeatedIn (records : List Bytes) (id : MachineId) (block : Block) : Prop :=
  ∃ before bytes after record, records = before ++ bytes :: after ∧
    Machine.decode bytes = .ok record ∧ record.id = id ∧ record.location = block ∧
      (recordFor? before block).isSome

/-- A machine or a raw record of this identifier is on the block. -/
def LoadedChunk.Carries (c : LoadedChunk) (id : MachineId) (block : Block) : Prop :=
  ∃ slot, c.slot? block = some slot ∧ slot.id = id

namespace LoadedChunk.Brought

variable {partition : Partition} {generation : Nat} {index : ChunkIndex} {records : List Bytes}
  {registry : Registry} {preserve : Bool} {outcome : LoadedChunk × LoadReport} {id : MachineId}
  {block : Block}

/-- What is carried was not dropped, unless a record of it comes second on its block. -/
theorem not_dropped (h : Brought partition generation index records registry preserve outcome)
    (hc : outcome.1.Carries id block) (hr : ¬ RepeatedIn records id block) :
    (id, block) ∉ outcome.2.dropped := by
  intro hm
  obtain ⟨slot, hs, -⟩ := hc
  obtain ⟨before, bytes, after, record, heq, hd, hi, hb, hlost⟩ := h.mem_dropped.mp hm
  rw [h.slot] at hs
  split at hs
  · rename_i hp
    rcases hlost with hne | hrep | hnone
    · exact hne hp
    · exact hr ⟨before, bytes, after, record, heq, hd, hi, hb, hrep⟩
    · -- nothing comes before the record, so it is the one that would have filled the block
      have hf : recordFor? before block = none :=
        Option.not_isSome_iff_eq_none.mp fun hrep =>
          hr ⟨before, bytes, after, record, heq, hd, hi, hb, hrep⟩
      have hfirst := recordFor?_eq_some.mpr ⟨before, after, heq, hd, hb, hf⟩
      rw [slotFor?_of_recordFor? hfirst, hnone] at hs
      cases hs
  · cases hs

/-- Outside its partition a load drops exactly what its records name. -/
theorem mem_dropped_outside
    (h : Brought partition generation index records registry preserve outcome)
    (hp : block.partition ≠ partition) :
    (id, block) ∈ outcome.2.dropped ↔ NamedIn records id block := by
  rw [h.mem_dropped]
  constructor
  · intro hx
    obtain ⟨before, bytes, after, record, rfl, hd, hi, hb, -⟩ := hx
    exact ⟨bytes, List.mem_append_right _ List.mem_cons_self, record, hd, hi, hb⟩
  · intro hx
    obtain ⟨bytes, hm, record, hd, hi, hb⟩ := hx
    obtain ⟨before, after, rfl⟩ := List.append_of_mem hm
    exact ⟨before, bytes, after, record, rfl, hd, hi, hb, .inl hp⟩

end LoadedChunk.Brought

/-- What is stored for a partition under two tags reads as this index and these records. -/
def Backing.ReadsAs {σ : Type} [Backing σ] (b : σ) (indexTag dataTag : String)
    (partition : Partition) (index : ChunkIndex) (records : List Bytes) : Prop :=
  ∃ indexBytes dataBytes, Backing.get b partition indexTag = .ok indexBytes ∧
    Backing.get b partition dataTag = .ok dataBytes ∧
    (Storage.readIndex partition indexBytes).value = .ok index ∧
    (Storage.readRecords partition dataBytes).value = .ok records

theorem Backing.ReadsAs.unique {σ : Type} [Backing σ] {b : σ} {indexTag dataTag : String}
    {partition : Partition} {index index' : ChunkIndex} {records records' : List Bytes}
    (h : Backing.ReadsAs b indexTag dataTag partition index records)
    (h' : Backing.ReadsAs b indexTag dataTag partition index' records') :
    index = index' ∧ records = records' := by
  obtain ⟨_, _, hi, hd, hri, hrd⟩ := h
  obtain ⟨_, _, hi', hd', hri', hrd'⟩ := h'
  cases hi.symm.trans hi'
  cases hd.symm.trans hd'
  exact ⟨Except.ok.inj (hri.symm.trans hri'), Except.ok.inj (hrd.symm.trans hrd')⟩

namespace Storage

theorem exists_ok_of_isOk {α β : Type} {outcome : α × Except Error β} (h : outcome.2.isOk) :
    ∃ b, outcome = (outcome.1, .ok b) := by
  obtain ⟨b, h⟩ := exists_of_isOk h
  exact ⟨b, Prod.ext rfl h⟩

variable {σ : Type} [Backing σ] {s s' : Storage σ} {partition : Partition} {c : LoadedChunk}

/-- What is stored for a partition reads as this index and these records. -/
def ReadsAs (s : Storage σ) (partition : Partition) (index : ChunkIndex) (records : List Bytes) :
    Prop :=
  ∃ indexBytes dataBytes, Backing.get s.backing partition s.config.indexTag = .ok indexBytes ∧
    Backing.get s.backing partition s.config.dataTag = .ok dataBytes ∧
    (readIndex partition indexBytes).value = .ok index ∧
    (readRecords partition dataBytes).value = .ok records

/-- What a partition reads as is brought into memory. Where nothing is stored this is an empty
chunk. -/
theorem brought_of_readChunk {outcome : LoadedChunk × LoadReport}
    (h : (s.readChunk partition).value = .ok outcome) :
    ∃ index records, s.ReadsAs partition index records ∧
      LoadedChunk.Brought partition s.nextGeneration index records s.registry
        s.config.preserveUnknown outcome := by
  unfold readChunk at h
  split at h
  · cases h
  · cases h
  · rename_i indexBytes dataBytes hi hd
    unfold buildChunk at h
    split at h
    · cases h
      refine ⟨_, _, ⟨_, _, hi, hd, rfl, rfl⟩, ⟨rfl, rfl⟩, fun block => ?_, rfl, fun block => ?_⟩
      · simp [slotFor?, recordFor?, LoadedChunk.slot?]
      · simp [ChunkIndex.get?]
    · simp only [Logged.value_bind] at h
      cases hri : (readIndex partition indexBytes).value with
      | error e =>
        rw [hri] at h
        cases h
      | ok index =>
        rw [hri] at h
        simp only [Logged.value_bind] at h
        cases hrd : (readRecords partition dataBytes).value with
        | error e =>
          rw [hrd] at h
          cases h
        | ok records =>
          rw [hrd] at h
          cases h
          exact ⟨index, records, ⟨_, _, hi, hd, hri, hrd⟩, LoadedChunk.brought_load ..⟩

/-- The ways in which a partition is at hand after a load: it was in memory, or it has been read. -/
inductive Fetched (s : Storage σ) (partition : Partition) : Storage σ → LoadedChunk → Prop
  | present {c : LoadedChunk} (hc : s.chunk? partition = some c) : Fetched s partition s c
  | read {index : ChunkIndex} {records : List Bytes} {outcome : LoadedChunk × LoadReport}
      (hc : s.chunk? partition = none) (hr : s.ReadsAs partition index records)
      (hb : LoadedChunk.Brought partition s.nextGeneration index records s.registry
        s.config.preserveUnknown outcome) :
      Fetched s partition
        { s.putChunk partition outcome.1 with
          cache := (forgetLost s.cache outcome.1 outcome.2).value,
          nextGeneration := s.nextGeneration + 1 } outcome.1

/-- A load fetches the partition, or fails and changes nothing. -/
theorem fetched_or_error (s : Storage σ) (partition : Partition) :
    (∃ s' c report, (s.load partition).value = (s', .ok (c, report)) ∧ s.Fetched partition s' c) ∨
      ∃ e, (s.load partition).value = (s, .error e) := by
  cases hc : s.chunk? partition with
  | some c => exact .inl ⟨s, c, _, load_of_chunk hc, .present hc⟩
  | none =>
    cases hr : (s.readChunk partition).value with
    | error e =>
      refine .inr ⟨e, ?_⟩
      unfold load
      rw [hc]
      simp only [Logged.value_bind, hr]
      rfl
    | ok outcome =>
      obtain ⟨index, records, hreads, hb⟩ := brought_of_readChunk hr
      obtain ⟨report, hl⟩ := load_of_read hc hr
      rw [show outcome.2.partition = partition by rw [hb.report]; rfl] at hl
      exact .inl ⟨_, _, report, hl, .read hc hreads hb⟩

theorem fetched_of_load {report : LoadReport}
    (h : (s.load partition).value = (s', .ok (c, report))) : s.Fetched partition s' c := by
  rcases fetched_or_error s partition with ⟨s₁, c₁, report₁, hl, hf⟩ | ⟨e, hl⟩
  · rw [h] at hl
    cases hl
    exact hf
  · rw [h] at hl
    cases hl

/-- A partition that has to be read leaves those pairs in the cache that are neither dropped nor
missing. -/
theorem brought_of_load {report : LoadReport} (hc : s.chunk? partition = none)
    (h : (s.load partition).value = (s', .ok (c, report))) :
    ∃ index records found, s.ReadsAs partition index records ∧
      LoadedChunk.Brought partition s.nextGeneration index records s.registry
        s.config.preserveUnknown (c, found) ∧
      ∀ id block, s'.locationOf? id = some block ↔ s.locationOf? id = some block ∧
        (id, block) ∉ found.dropped ∧
          ¬(block ∈ found.missingRecords ∧ c.holds block = false) := by
  cases fetched_of_load h with
  | present hc' =>
    rw [hc] at hc'
    cases hc'
  | @read index records outcome _ hr hb =>
    exact ⟨index, records, outcome.2, hr, hb, fun _ _ => locationOf?_forgetLost outcome.1 outcome.2⟩

/-- What a load does to the pairs of the cache. It adds none. A machine that the chunk carries keeps
its entry if its record is not repeated. A machine of another partition keeps it exactly if no
record names it, where the index lists nothing. The slips behind the two provisos are
`forgotten_of_repeated` and `forgotten_of_indexed`. -/
structure Spares (s : Storage σ) (partition : Partition) (index : ChunkIndex)
    (records : List Bytes) (s' : Storage σ) (c : LoadedChunk) : Prop where
  known : ∀ {id block}, s'.locationOf? id = some block → s.locationOf? id = some block
  carried : ∀ {id block}, s.locationOf? id = some block → block.partition = partition →
    c.Carries id block → ¬ RepeatedIn records id block → s'.locationOf? id = some block
  elsewhere : ∀ {id block}, s.locationOf? id = some block → block.partition ≠ partition →
    index.get? block = none → (s'.locationOf? id = some block ↔ ¬ NamedIn records id block)

/-- Reading a partition spares the machines that it carries, and those of other partitions that none
of its records names. -/
theorem spares_of_load {report : LoadReport} (hc : s.chunk? partition = none)
    (h : (s.load partition).value = (s', .ok (c, report))) :
    ∃ index records, s.ReadsAs partition index records ∧
      s.Spares partition index records s' c := by
  obtain ⟨index, records, found, hr, hb, hkept⟩ := brought_of_load hc h
  refine ⟨index, records, hr, fun hl => ((hkept _ _).mp hl).1, ?_, ?_⟩
  · intro id block hl hp hcarries hrep
    apply (hkept _ _).mpr
    refine ⟨hl, hb.not_dropped hcarries hrep, fun hm => ?_⟩
    obtain ⟨slot, hs, -⟩ := hcarries
    rw [LoadedChunk.holds_eq, hs] at hm
    cases hm.2
  · intro id block hl hp hi
    refine (hkept _ _).trans ?_
    rw [hb.mem_dropped_outside hp, hb.missing, hi]
    simp only [Option.isSome_none, Bool.false_eq_true, false_and, not_false_eq_true, and_true]
    exact and_iff_right hl

/-- The sample machine has been flushed with its partition, and a record of it is stored in another
partition as well. -/
def strayStorage : Storage (Refusing Memory) :=
  let s := sampleStorage.after sampleRun
  { s with backing := (Backing.commit s.backing ⟨"world", ⟨2, 2⟩⟩ [(s.config.dataTag,
      (RecordList.encode [sampleMachine.encode]).toOption.getD [])]).value.1 }

theorem spares_of_load_stray : ∃ s' c report, strayStorage.chunk? ⟨"world", ⟨2, 2⟩⟩ = none ∧
    (strayStorage.load ⟨"world", ⟨2, 2⟩⟩).value = (s', .ok (c, report)) ∧
      ∃ index records, strayStorage.ReadsAs ⟨"world", ⟨2, 2⟩⟩ index records ∧
        strayStorage.Spares ⟨"world", ⟨2, 2⟩⟩ index records s' c := by
  have hc : strayStorage.chunk? ⟨"world", ⟨2, 2⟩⟩ = none := by decide +kernel
  obtain ⟨⟨c, report⟩, hl⟩ := exists_ok_of_isOk
    (show (strayStorage.load ⟨"world", ⟨2, 2⟩⟩).value.2.isOk by decide +kernel)
  exact ⟨_, c, report, hc, hl, spares_of_load hc hl⟩

/-- A slip: a second record for a block costs the machine it names its entry there, though the first
record for the block may be of that machine and the chunk carries it. -/
theorem forgotten_of_repeated {report : LoadReport} {index : ChunkIndex} {records : List Bytes}
    {id : MachineId} {block : Block} (hc : s.chunk? partition = none)
    (h : (s.load partition).value = (s', .ok (c, report)))
    (hr : s.ReadsAs partition index records) (hrep : RepeatedIn records id block) :
    s'.locationOf? id ≠ some block := by
  obtain ⟨_, _, found, hr', hb, hkept⟩ := brought_of_load hc h
  obtain ⟨rfl, rfl⟩ := Backing.ReadsAs.unique hr hr'
  have hdropped : (id, block) ∈ found.dropped := by
    obtain ⟨before, bytes, after, record, heq, hd, hi, hl, hs⟩ := hrep
    exact hb.mem_dropped.mpr ⟨before, bytes, after, record, heq, hd, hi, hl, .inr (.inl hs)⟩
  exact fun hl => ((hkept id block).mp hl).2.1 hdropped

/-- A slip: an index that lists a block of another partition costs the machine there its entry. The
block counts as missing whatever the records are, and it is looked for in the chunk just read and
not in its own. -/
theorem forgotten_of_indexed {report : LoadReport} {index : ChunkIndex} {records : List Bytes}
    {block : Block} (hc : s.chunk? partition = none)
    (h : (s.load partition).value = (s', .ok (c, report)))
    (hr : s.ReadsAs partition index records) (hp : block.partition ≠ partition)
    (hi : (index.get? block).isSome) (id : MachineId) : s'.locationOf? id ≠ some block := by
  obtain ⟨_, _, found, hr', hb, hkept⟩ := brought_of_load hc h
  obtain ⟨rfl, rfl⟩ := Backing.ReadsAs.unique hr hr'
  have hmissing : block ∈ found.missingRecords := (hb.missing block).mpr ⟨hi, fun hx => hp hx.1⟩
  have hfree : c.holds block = false := by
    rw [LoadedChunk.holds_eq, hb.slot, if_neg hp]
    rfl
  exact fun hl => ((hkept id block).mp hl).2.2 ⟨hmissing, hfree⟩

/-- The sample machine has been flushed, and an index of the same chunk of another world lists its
block. -/
def listedStorage : Storage (Refusing Memory) :=
  let s := sampleStorage.after sampleRun
  let block := sampleMachine.location
  { s with backing := (Backing.commit s.backing ⟨"nether", block.chunk⟩ [(s.config.indexTag,
      (ChunkIndex.encode ⟨block.chunk, .ofList [(block, "furnace")]⟩).toOption.getD [])]).value.1 }

example : listedStorage.locationOf? sampleMachine.id = some sampleMachine.location ∧
    (listedStorage.load ⟨"nether", sampleMachine.location.chunk⟩).value.2.isOk ∧
    (listedStorage.load ⟨"nether", sampleMachine.location.chunk⟩).value.1.locationOf?
      sampleMachine.id = none := by
  decide +kernel

/-- Reading a partition has cost a cached pair its entry. -/
structure Forgets (s : Storage σ) (partition : Partition) (s' : Storage σ) (c : LoadedChunk)
    (id : MachineId) (block : Block) : Prop where
  unloaded : s.chunk? partition = none
  loaded : ∃ report, (s.load partition).value = (s', .ok (c, report))
  cached : s.locationOf? id = some block
  forgotten : s'.locationOf? id ≠ some block

/-- The sample machine has been flushed, and its record is stored twice in its partition. -/
def repeatedStorage : Storage (Refusing Memory) :=
  let s := sampleStorage.after sampleRun
  { s with backing := (Backing.commit s.backing sampleMachine.location.partition [(s.config.dataTag,
      (RecordList.encode [sampleMachine.encode, sampleMachine.encode]).toOption.getD [])]).value.1 }

/-- A record outside its chunk costs a machine of another partition its entry, and by a slip a
record that is stored twice costs its own machine its entry, though either machine is still there. -/
theorem forgotten_by_stray :
    (¬ ∀ (s s' : Storage (Refusing Memory)) (partition : Partition) (c : LoadedChunk)
      (id : MachineId) (block : Block), s.Forgets partition s' c id block →
        block.partition = partition ∧ ¬ c.Carries id block) ∧
    ¬ ∀ (s s' : Storage (Refusing Memory)) (partition : Partition) (c : LoadedChunk)
      (id : MachineId) (block : Block), s.Forgets partition s' c id block →
        block.partition = partition → ¬ c.Carries id block := by
  constructor
  · intro h
    obtain ⟨⟨c, report⟩, hl⟩ := exists_ok_of_isOk
      (show (strayStorage.load ⟨"world", ⟨2, 2⟩⟩).value.2.isOk by decide +kernel)
    have hf : strayStorage.Forgets ⟨"world", ⟨2, 2⟩⟩
        (strayStorage.load ⟨"world", ⟨2, 2⟩⟩).value.1 c sampleMachine.id sampleMachine.location :=
      ⟨by decide +kernel, ⟨report, hl⟩, by decide +kernel, by decide +kernel⟩
    have hp := (h _ _ _ _ _ _ hf).1
    revert hp
    decide
  · intro h
    obtain ⟨⟨c, report⟩, hl⟩ := exists_ok_of_isOk
      (show (repeatedStorage.load sampleMachine.location.partition).value.2.isOk by decide +kernel)
    have hf : repeatedStorage.Forgets sampleMachine.location.partition
        (repeatedStorage.load sampleMachine.location.partition).value.1 c sampleMachine.id
        sampleMachine.location :=
      ⟨by decide +kernel, ⟨report, hl⟩, by decide +kernel, by decide +kernel⟩
    have hheld : (repeatedStorage.load sampleMachine.location.partition).value.2.toOption.bind
        (·.1.machine? sampleMachine.location) = some sampleMachine := by decide +kernel
    rw [hl] at hheld
    exact h _ _ _ _ _ _ hf rfl ⟨_, LoadedChunk.machine?_eq_some.mp hheld, rfl⟩

end Storage

end MachineVault
