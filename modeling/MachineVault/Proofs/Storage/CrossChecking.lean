import MachineVault.Proofs.Storage.Reading

/-! What a load without a problem says. Every record has become a machine, and the cache places each
machine where it stands. The cross-check goes by the machines, so an entry that is left over on a
block for which nothing is stored passes it unseen. -/

namespace MachineVault

namespace LoadedChunk.Brought

variable {partition : Partition} {generation : Nat} {index : ChunkIndex} {records : List Bytes}
  {registry : Registry} {preserve : Bool} {outcome : LoadedChunk × LoadReport} {block : Block}

/-- Where every record has become a machine, nothing is dropped. -/
theorem notMem_dropped (h : Brought partition generation index records registry preserve outcome)
    (hf : outcome.2.failedRecords = 0) (hu : outcome.2.unresolved = [])
    (pair : MachineId × Block) : pair ∉ outcome.2.dropped := by
  obtain ⟨id, block⟩ := pair
  intro hm
  obtain ⟨before, bytes, after, record, heq, hd, -, rfl, hlost⟩ := h.mem_dropped.mp hm
  obtain ⟨record', machine, hd', hp, hfirst, hr⟩ := h.exists_rebuilt hf hu heq
  cases hd.symm.trans hd'
  rcases hlost with hout | hrep | hnone
  · exact hout hp
  · rw [hfirst] at hrep
    cases hrep
  · rw [Slot.ofRecord?, hr] at hnone
    cases hnone

/-- The records fill each block that one of them names with a machine, and no other. -/
theorem slot?_cases (h : Brought partition generation index records registry preserve outcome)
    (hf : outcome.2.failedRecords = 0) (hu : outcome.2.unresolved = [])
    (hp : block.partition = partition) :
    (∃ m, outcome.1.slot? block = some (.live m)) ∨
      (outcome.1.slot? block = none ∧ recordFor? records block = none) := by
  rw [h.slot, if_pos hp]
  cases hrec : recordFor? records block with
  | none =>
    refine .inr ⟨?_, rfl⟩
    rw [slotFor?, hrec]
    rfl
  | some found =>
    obtain ⟨bytes, record⟩ := found
    obtain ⟨before, after, heq, hd, -, -⟩ := recordFor?_eq_some.mp hrec
    obtain ⟨record', machine, hd', -, -, hr⟩ := h.exists_rebuilt hf hu heq
    cases hd.symm.trans hd'
    refine .inl ⟨machine, ?_⟩
    rw [slotFor?_of_recordFor? hrec, Slot.ofRecord?, hr]

end LoadedChunk.Brought

namespace Storage

/-- The cross-check finds nothing if the cache places every machine of the chunk where it stands. -/
theorem mismatches_eq_nil {cache : IdentifierCache} {c : LoadedChunk} :
    mismatches cache c = [] ↔
      ∀ block m, c.machine? block = some m → cache.locationOf? m.id = some block := by
  have hentry {block : Block} {m : Machine} :
      mismatch? cache (block, m) = none ↔ cache.locationOf? m.id = some block := by
    unfold mismatch?
    dsimp only
    cases cache.locationOf? m.id with
    | none => simp
    | some cached => simp
  rw [mismatches, List.filterMap_eq_nil_iff]
  constructor
  · intro h block m hm
    exact hentry.mp (h _ (LoadedChunk.mem_machines.mpr (LoadedChunk.machine?_eq_some.mp hm)))
  · rintro h ⟨block, m⟩ hm
    exact hentry.mpr (h block m (LoadedChunk.machine?_eq_some.mpr (LoadedChunk.mem_machines.mp hm)))

variable {σ : Type}

/-- The cache has a machine on the block of a location, by the location and by the machine. -/
def Seats (s : Storage σ) (id : MachineId) (location : Location) : Prop :=
  s.idOf? location = some id ∧ s.locationOf? id = some location.block

theorem seats_iff {s : Storage σ} {id : MachineId} {location : Location} :
    s.Seats id location ↔ s.locationOf? id = some location.block :=
  and_iff_right_of_imp IdentifierCache.idAt?_eq_some.mpr

/-- A machine is cached on a block for which there is nothing: the chunk holds nothing there, the
index does not list the block, and no record names it. -/
structure LeftOver (s : Storage σ) (index : ChunkIndex) (records : List Bytes) (c : LoadedChunk)
    (id : MachineId) (block : Block) : Prop where
  cached : s.locationOf? id = some block
  vacant : c.holds block = false
  unlisted : index.get? block = none
  unrecorded : recordFor? records block = none

variable [Backing σ] {s s' : Storage σ} {partition : Partition}

/-- What a partition that is activated has been read from, and how the report came about. -/
theorem brought_of_activate {report : LoadReport} (hc : s.chunk? partition = none)
    (ha : (s.activate partition).value = (s', .ok report)) : ∃ index records outcome,
    s.ReadsAs partition index records ∧
    LoadedChunk.Brought partition s.nextGeneration index records s.registry
      s.config.preserveUnknown outcome ∧
    s' = { s.putChunk partition outcome.1 with
      cache := (forgetLost s.cache outcome.1 outcome.2).value
      nextGeneration := s.nextGeneration + 1 } ∧
    report = { outcome.2 with cacheMismatches := (if s.config.verifyOnLoad then
      mismatches (forgetLost s.cache outcome.1 outcome.2).value outcome.1 else []).length } := by
  unfold activate load at ha
  rw [hc] at ha
  simp only [Logged.value_bind] at ha
  cases hr : (s.readChunk partition).value with
  | error e =>
    rw [hr] at ha
    cases ha
  | ok outcome =>
    rw [hr] at ha
    obtain ⟨index, records, hreads, hb⟩ := brought_of_readChunk hr
    have hp : outcome.2.partition = partition := by rw [hb.report]; rfl
    obtain ⟨rfl, ho⟩ := Prod.mk.inj ha
    cases ho
    refine ⟨index, records, outcome, hreads, hb, ?_, rfl⟩
    simp only [← hp]
    rfl

/-- Where a checked load reports no problem, the cache has a machine on a block of the partition
exactly if the chunk holds it there, except for entries that were left over where nothing is
stored. -/
theorem seats_iff_of_clean {report : LoadReport} (hv : s.config.verifyOnLoad = true)
    (hc : s.chunk? partition = none) (ha : (s.activate partition).value = (s', .ok report))
    (hclean : report.isClean = true) : ∃ c index records, s'.chunk? partition = some c ∧
      s.ReadsAs partition index records ∧ ∀ location id, partition.contains location.block →
        (s'.Seats id location ↔ (∃ m, c.machine? location.block = some m ∧ m.id = id) ∨
          s.LeftOver index records c id location.block) := by
  obtain ⟨index, records, outcome, hreads, hb, rfl, rfl⟩ := brought_of_activate hc ha
  obtain ⟨hu, hf, hmissing, -, hmismatches⟩ := LoadReport.isClean_iff.mp hclean
  dsimp only at hu hf hmissing hmismatches
  rw [if_pos hv, List.length_eq_zero_iff, mismatches_eq_nil] at hmismatches
  -- a clean load takes nothing out of the cache
  have hkept {id : MachineId} {block : Block} :
      (forgetLost s.cache outcome.1 outcome.2).value.locationOf? id = some block ↔
        s.locationOf? id = some block := by
    rw [locationOf?_forgetLost, hmissing]
    simp [hb.notMem_dropped hf hu, locationOf?]
  refine ⟨outcome.1, index, records, (chunk?_putChunk ..).trans (if_pos rfl), hreads, ?_⟩
  intro location id hp
  have hp : location.block.partition = partition := of_decide_eq_true hp
  rw [seats_iff]
  constructor
  · intro hl
    change (forgetLost s.cache outcome.1 outcome.2).value.locationOf? id = _ at hl
    rcases hb.slot?_cases hf hu hp with ⟨m, hs⟩ | ⟨hs, hrecord⟩
    · have hm := LoadedChunk.machine?_eq_some.mpr hs
      exact .inl ⟨m, hm, (IdentifierCache.block_eq_iff (hmismatches _ m hm) hl).mp rfl⟩
    · refine .inr ⟨hkept.mp hl, ?_, ?_, hrecord⟩
      · rw [LoadedChunk.holds_eq, hs]
        rfl
      · have hnot := mt (hb.missing location.block).mpr (hmissing ▸ List.not_mem_nil)
        rw [hrecord] at hnot
        simpa using hnot
  · rintro (⟨m, hm, rfl⟩ | hleft)
    · exact hmismatches _ m hm
    · exact hkept.mpr hleft.cached

/-- A block of the sample machine's partition where nothing has ever stood. -/
def bareBlock : Block := ⟨"world", 0, 5, 0⟩

/-- The sample machine has been flushed with its partition, and another one is cached on the bare
block beside it. -/
def unsweptStorage : Storage (Refusing Memory) :=
  let s := sampleStorage.after sampleRun
  { s with cache := s.cache.insert (.ofRandom 2) bareBlock }

theorem activate_unsweptStorage : ∃ s' report c,
    (unsweptStorage.activate sampleMachine.location.partition).value = (s', .ok report) ∧
    report.isClean = true ∧ s'.chunk? sampleMachine.location.partition = some c ∧
    s'.locationOf? (.ofRandom 2) = some bareBlock ∧ c.machine? bareBlock = none := by
  have hreport : ((unsweptStorage.activate sampleMachine.location.partition).value.2.map
      LoadReport.isClean).toOption = some true := by decide +kernel
  have hchunk : ((unsweptStorage.activate sampleMachine.location.partition).value.1.chunk?
      sampleMachine.location.partition).map (·.machine? bareBlock) = some none := by decide +kernel
  have hcached : (unsweptStorage.activate sampleMachine.location.partition).value.1.locationOf?
      (.ofRandom 2) = some bareBlock := by decide +kernel
  obtain ⟨c, hc, hm⟩ := Option.map_eq_some_iff.mp hchunk
  cases ha : (unsweptStorage.activate sampleMachine.location.partition).value with
  | mk s' outcome =>
  rw [ha] at hreport hc hcached
  cases outcome with
  | error e => cases hreport
  | ok report => exact ⟨s', report, c, rfl, Option.some.inj hreport, hc, hcached, hm⟩

theorem seats_iff_unsweptStorage : ∃ s' report,
    unsweptStorage.config.verifyOnLoad = true ∧
    unsweptStorage.chunk? sampleMachine.location.partition = none ∧
    (unsweptStorage.activate sampleMachine.location.partition).value = (s', .ok report) ∧
    report.isClean = true ∧ ∃ c index records,
      s'.chunk? sampleMachine.location.partition = some c ∧
      unsweptStorage.ReadsAs sampleMachine.location.partition index records ∧
      ∀ location id, sampleMachine.location.partition.contains location.block →
        (s'.Seats id location ↔ (∃ m, c.machine? location.block = some m ∧ m.id = id) ∨
          unsweptStorage.LeftOver index records c id location.block) := by
  obtain ⟨s', report, -, ha, hclean, -⟩ := activate_unsweptStorage
  have hc : unsweptStorage.chunk? sampleMachine.location.partition = none := by decide +kernel
  exact ⟨s', report, rfl, hc, ha, hclean, seats_iff_of_clean rfl hc ha hclean⟩

/-- A load can report no problem although the cache has a machine on a block where the chunk holds
nothing. -/
theorem seated_on_bareBlock : ¬ ∀ (s s' : Storage (Refusing Memory)) (partition : Partition)
    (report : LoadReport) (c : LoadedChunk), s.config.verifyOnLoad = true →
      s.chunk? partition = none → (s.activate partition).value = (s', .ok report) →
      report.isClean = true → s'.chunk? partition = some c →
      ∀ location id, partition.contains location.block →
        (s'.Seats id location ↔ ∃ m, c.machine? location.block = some m ∧ m.id = id) := by
  intro h
  obtain ⟨s', report, c, ha, hclean, hc', hcached, hbare⟩ := activate_unsweptStorage
  have hc : unsweptStorage.chunk? sampleMachine.location.partition = none := by decide +kernel
  have hblock : bareBlock.corner.block = bareBlock := by decide +kernel
  have hseats := h _ s' _ report c rfl hc ha hclean hc' bareBlock.corner (.ofRandom 2)
    (by decide +kernel)
  rw [seats_iff, hblock] at hseats
  obtain ⟨m, hm, -⟩ := hseats.mp hcached
  cases hbare.symm.trans hm

end Storage

end MachineVault
