import MachineVault.Proofs.Storage.Guarding
import MachineVault.Proofs.Storage.Retrieving

/-! Records that no factory can rebuild are carried along. However often their partition is read and
flushed, whatever goes on around them and whichever commits are refused, they are written back byte
for byte, until a factory turns up that can rebuild them. -/

namespace MachineVault

/-- A call that neither fills nor clears a block, nor serves its partition as empty. -/
def Operation.Avoids (block : Block) : Operation → Prop
  | .save location _ | .remove location => location.block ≠ block
  | .activateEmpty partition => partition ≠ block.partition
  | _ => True

variable {indexTag dataTag : String} {bytes : Bytes} {record : Machine}

/-- The entries of a commit hold the bytes as the only record for the block of the machine, and an
index of the chunk that lists its tag there. -/
def Rewrites (indexTag dataTag : String) (bytes : Bytes) (record : Machine)
    (entries : List (String × Bytes)) : Prop :=
  ∃ index indexBytes dataBytes before after,
    entries = [(indexTag, indexBytes), (dataTag, dataBytes)] ∧
    ChunkIndex.decode indexBytes = .ok index ∧ index.chunk = record.location.chunk ∧
    index.get? record.location = some record.typeTag ∧
    RecordList.decode dataBytes = .ok (before ++ bytes :: after) ∧
    recordFor? before record.location = none ∧ recordFor? after record.location = none

namespace LoadedChunk

/-- Behind the record for a block there is none for it. -/
theorem recordFor?_after {c : LoadedChunk} (hs : c.Sound)
    (hl : ∀ {block slot}, c.slot? block = some slot → (slot.encode block).length < 2 ^ 32)
    {before after : List Bytes}
    (h : (c.contents.toList.map fun e => e.2.encode e.1) = before ++ bytes :: after)
    (hd : Machine.decode bytes = .ok record) : recordFor? after record.location = none := by
  refine recordFor?_eq_none.mpr fun other hm record' hd' hloc => ?_
  obtain ⟨front, back, rfl⟩ := List.append_of_mem hm
  rw [← List.cons_append, ← List.append_assoc] at h
  obtain ⟨block, slot, hslot, rfl, hnone⟩ := slot_of_records hs hl h
  obtain ⟨rfl, -, -⟩ := (hs.genuine hslot).of_stored (hl hslot) (Slot.stored?_eq_some.mpr hd')
  exact recordFor?_eq_none.mp hnone bytes
    (List.mem_append_right _ List.mem_cons_self) record hd hloc.symm

theorem rewrites_of_encode {c : LoadedChunk} {index data : Bytes} (hs : c.Sound)
    (hp : c.partition = record.location.partition) (he : c.encode = .ok (index, data))
    (hslot : c.slot? record.location = some (.raw ⟨record.id, record.typeTag, bytes⟩))
    (hd : Machine.decode bytes = .ok record) :
    Rewrites indexTag dataTag bytes record [(indexTag, index), (dataTag, data)] := by
  obtain ⟨hdi, hdd⟩ := decode_encode he
  have hst : (Slot.raw ⟨record.id, record.typeTag, bytes⟩).stored? record.location = some record :=
    Slot.stored?_eq_some.mpr hd
  have hrecord := recordFor?_records hs (fun h => length_lt_of_encode he h) record.location
  rw [hslot, Option.bind_some, hst] at hrecord
  obtain ⟨before, after, hsplit, -, -, hbefore⟩ := recordFor?_eq_some.mp hrecord
  have hafter := recordFor?_after hs (fun h => length_lt_of_encode he h) hsplit hd
  refine ⟨c.index, index, data, before, after, rfl, hdi, ?_, ?_, hsplit ▸ hdd, hbefore, hafter⟩
  · rw [LoadedChunk.index, hp]
    rfl
  · rw [get?_index, hslot]
    rfl

end LoadedChunk

/-- Once a commit has rewritten them, the bytes are stored as the first record for the block. -/
theorem readsAs_of_rewrites {σ : Type} [Backing σ] [Backing.Durable σ] {b b' : σ}
    {entries : List (String × Bytes)} (ht : indexTag ≠ dataTag)
    (hw : Rewrites indexTag dataTag bytes record entries) (hd : Machine.decode bytes = .ok record)
    (hb : (Backing.commit b record.location.partition entries).value = (b', .ok ())) :
    ∃ index records,
      Backing.ReadsAs b' indexTag dataTag record.location.partition index records ∧
        recordFor? records record.location = some (bytes, record) := by
  obtain ⟨index, indexBytes, dataBytes, before, after, rfl, hi, hchunk, -, hr, hbefore, -⟩ := hw
  refine ⟨index, before ++ bytes :: after, ⟨some indexBytes, some dataBytes,
    Backing.Durable.kept hb (lastBytes?_pair ht).1, Backing.Durable.kept hb (lastBytes?_pair ht).2,
    ?_, ?_⟩, recordFor?_eq_some.mpr ⟨before, after, rfl, hd, rfl, hbefore⟩⟩
  · rw [Storage.readIndex, hi]
    dsimp only
    rw [if_pos (show index.chunk = record.location.partition.chunk from hchunk)]
    rfl
  · rw [Storage.readRecords, hr]
    rfl

/-- What is stored for the partition holds the bytes as the first record for the block, and every
commit so far has rewritten them. -/
structure Journal.Carries (indexTag dataTag : String) (bytes : Bytes) (record : Machine)
    (b : Journal (Refusing Medium)) : Prop where
  aside : b.inner.inner.Aside record.location.partition
  stored : ∃ index records,
    Backing.ReadsAs b indexTag dataTag record.location.partition index records ∧
      recordFor? records record.location = some (bytes, record)
  written : ∀ entries, (record.location.partition, entries) ∈ b.commits →
    Rewrites indexTag dataTag bytes record entries

namespace Journal.Carries

variable {b b' : Journal (Refusing Medium)} {partition : Partition}
  {entries : List (String × Bytes)} {outcome : Except Error Unit}

theorem decode (h : b.Carries indexTag dataTag bytes record) :
    Machine.decode bytes = .ok record := by
  obtain ⟨_, _, -, hrecord⟩ := h.stored
  obtain ⟨_, _, -, hd, -⟩ := recordFor?_eq_some.mp hrecord
  exact hd

theorem hasFile (h : b.Carries indexTag dataTag bytes record) :
    b.inner.inner.HasFile record.location.partition := by
  obtain ⟨_, _, ⟨_, dataBytes, -, hd, -, hr⟩, hrecord⟩ := h.stored
  cases dataBytes with
  | none =>
    cases hr
    cases hrecord
  | some data => exact Medium.hasFile_of_get hd nofun nofun

/-- Where the partition is left alone its bytes stay stored. -/
theorem of_spares (h : b.Carries indexTag dataTag bytes record)
    (hs : Medium.Spares record.location.partition b.inner.inner b'.inner.inner)
    (hw : ∀ entries, (record.location.partition, entries) ∈ b'.commits →
      Rewrites indexTag dataTag bytes record entries) :
    b'.Carries indexTag dataTag bytes record := by
  obtain ⟨index, records, ⟨indexBytes, dataBytes, hi, hd, hr⟩, hrecord⟩ := h.stored
  have hget (tag : String) : Backing.get b' record.location.partition tag =
      Backing.get b record.location.partition tag := hs.get h.hasFile tag
  exact ⟨hs.aside h.aside, ⟨index, records, ⟨indexBytes, dataBytes, (hget _).trans hi,
    (hget _).trans hd, hr⟩, hrecord⟩, hw⟩

theorem commit (h : b.Carries indexTag dataTag bytes record) (ht : indexTag ≠ dataTag)
    (hw : partition = record.location.partition → Rewrites indexTag dataTag bytes record entries)
    (hb : (Backing.commit b partition entries).value = (b', outcome)) :
    b'.Carries indexTag dataTag bytes record := by
  obtain ⟨hinner, hcommits⟩ := inner_of_commit hb
  have hwritten : ∀ entries', (record.location.partition, entries') ∈ b'.commits →
      Rewrites indexTag dataTag bytes record entries' := by
    intro entries' hm
    rw [hcommits] at hm
    rcases List.mem_append.mp hm with hm | hm
    · exact h.written entries' hm
    · obtain ⟨hp, rfl⟩ := Prod.mk.inj (List.mem_singleton.mp hm)
      exact hw hp.symm
  rcases b.inner.commit_cases partition entries with ⟨e, hv⟩ | hv
  · -- the plan has refused it
    obtain ⟨hmedium, -⟩ := Prod.mk.inj (hinner.symm.trans hv)
    refine h.of_spares ?_ hwritten
    rw [hmedium]
    exact .refl _ _
  obtain ⟨hmedium, ho⟩ := Prod.mk.inj (hinner.symm.trans hv)
  have hmedium : (Backing.commit b.inner.inner partition entries).value =
      (b'.inner.inner, outcome) := Prod.ext (congrArg Refusing.inner hmedium).symm ho.symm
  by_cases hp : partition = record.location.partition
  · subst hp
    cases outcome with
    | error e => exact h.of_spares (Medium.spares_of_commit_error hmedium) hwritten
    | ok u =>
      exact ⟨Medium.aside_of_commit h.aside hmedium, readsAs_of_rewrites ht (hw rfl) h.decode hb,
        hwritten⟩
  · exact h.of_spares (Medium.spares_of_commit hp hmedium) hwritten

theorem saveTable (h : b.Carries indexTag dataTag bytes record) (table : CacheTable) :
    (Backing.saveTable b table).value.1.Carries indexTag dataTag bytes record :=
  h.of_spares (Medium.spares_saveTable h.aside table) h.written

end Journal.Carries

/-- Settings and factories that keep what cannot be rebuilt, and cannot rebuild this record. -/
structure Shelters (indexTag dataTag : String) (record : Machine) (config : Config)
    (registry : Registry) : Prop where
  tags : config.indexTag = indexTag ∧ config.dataTag = dataTag
  preserve : config.preserveUnknown = true
  unresolved : ∀ m, registry.rebuild record ≠ .ok m

namespace Storage

variable {s s' : Storage (Journal (Refusing Medium))} {operation : Operation}
  {partition : Partition} {c : LoadedChunk}

/-- The record is carried along: in memory as a raw record where its partition is loaded, and in
what is stored. -/
structure Carried (indexTag dataTag : String) (bytes : Bytes) (record : Machine)
    (s : Storage (Journal (Refusing Medium))) : Prop where
  shelters : Shelters indexTag dataTag record s.config s.registry
  distinct : indexTag ≠ dataTag
  sound : s.Sound
  backing : s.backing.Carries indexTag dataTag bytes record
  loaded : ∀ {c}, s.chunk? record.location.partition = some c →
    c.slot? record.location = some (.raw ⟨record.id, record.typeTag, bytes⟩)

namespace Carried

theorem recache (h : s.Carried indexTag dataTag bytes record) (cache : IdentifierCache) (n : Nat) :
    Carried indexTag dataTag bytes record { s with cache, nextGeneration := n } :=
  ⟨h.shelters, h.distinct, h.sound, h.backing, h.loaded⟩

theorem putChunk (h : s.Carried indexTag dataTag bytes record)
    (hsound : (s.putChunk partition c).Sound)
    (hc : partition = record.location.partition →
      c.slot? record.location = some (.raw ⟨record.id, record.typeTag, bytes⟩)) :
    Carried indexTag dataTag bytes record (s.putChunk partition c) := by
  refine ⟨h.shelters, h.distinct, hsound, h.backing, fun hc' => ?_⟩
  rw [chunk?_putChunk] at hc'
  split at hc'
  · rename_i hp
    cases hc'
    exact hc hp.symm
  · exact h.loaded hc'

/-- A chunk in memory may change off the block of the record. -/
theorem amend {c' : LoadedChunk} (h : s.Carried indexTag dataTag bytes record)
    (hsound : (s.putChunk partition c').Sound) (hc : s.chunk? partition = some c)
    (heq : c'.slot? record.location = c.slot? record.location) :
    Carried indexTag dataTag bytes record (s.putChunk partition c') :=
  h.putChunk hsound fun hp => heq.trans (h.loaded (hp ▸ hc))

/-- No machine stands where the record is kept. -/
theorem ne_of_machine? (h : s.Carried indexTag dataTag bytes record) {block : Block} {m : Machine}
    (hc : s.chunk? block.partition = some c) (hm : c.machine? block = some m) :
    block ≠ record.location := by
  rintro rfl
  cases (h.loaded hc).symm.trans (LoadedChunk.machine?_eq_some.mp hm)

end Carried

theorem Entered.carried (he : s.Entered operation s') (ho : operation.Avoids record.location)
    (h : s.Carried indexTag dataTag bytes record) : s'.Carried indexTag dataTag bytes record := by
  have hsound := he.sound h.sound
  cases he with
  | same => exact h
  | fetched hf =>
    cases hf with
    | present => exact h
    | @read index records outcome _ hr hb =>
      refine (h.putChunk hsound fun hp => ?_).recache _ _
      obtain ⟨_, records', hr', hrecord⟩ := h.backing.stored
      obtain ⟨rfl, rfl⟩ := h.shelters.tags
      subst hp
      obtain ⟨-, rfl⟩ := hr'.unique hr
      rw [hb.slot, if_pos rfl, slotFor?_of_recordFor? hrecord, Slot.ofRecord?]
      cases hrebuild : s.registry.rebuild record with
      | ok m => exact absurd hrebuild (h.shelters.unresolved m)
      | error e =>
        dsimp only
        rw [if_pos h.shelters.preserve]
  | emptied ho' =>
    rw [ho'] at ho
    exact (h.putChunk hsound fun hp => absurd hp ho).recache _ _

theorem Step.carried (hs : s.Step operation s') (ho : operation.Avoids record.location)
    (h : s.Carried indexTag dataTag bytes record) : s'.Carried indexTag dataTag bytes record := by
  have hsound := hs.sound h.sound
  cases hs with
  | recached cache => exact h.recache cache _
  | placed ho' _ hc =>
    rw [ho'] at ho
    exact h.amend hsound hc ((LoadedChunk.slot?_place ..).trans (if_neg (Ne.symm ho)))
  | cleared ho' hc =>
    rw [ho'] at ho
    exact h.amend hsound hc ((LoadedChunk.slot?_remove ..).trans (if_neg (Ne.symm ho)))
  | evicted hc hm =>
    have hne := h.ne_of_machine? hc hm
    exact h.amend hsound hc ((LoadedChunk.slot?_remove ..).trans (if_neg (Ne.symm hne)))
  | @edited location _ c _ hc =>
    refine h.amend hsound hc ?_
    unfold LoadedChunk.edit
    cases hm : c.machine? location.block with
    | none => rfl
    | some m =>
      have hne := h.ne_of_machine? hc hm
      exact (LoadedChunk.slot?_place ..).trans (if_neg (Ne.symm hne))
  | flushed _ d =>
    refine ⟨?_, h.distinct, hsound, ?_, fun hc => h.loaded (d.chunk_eq_some hc)⟩
    · rw [d.config, d.registry]
      exact h.shelters
    · cases d with
      | unloaded | dropped | unencodable => exact h.backing
      | refused hc he hb | committed hc he hb =>
        obtain ⟨rfl, rfl⟩ := h.shelters.tags
        refine h.backing.commit h.distinct (fun hp => ?_) hb
        subst hp
        obtain ⟨hserves, hcs⟩ := h.sound _ _ hc
        exact LoadedChunk.rewrites_of_encode hcs hserves he (h.loaded hc) h.backing.decode
  | tableSaved _ table =>
    exact ⟨h.shelters, h.distinct, hsound, h.backing.saveTable table, h.loaded⟩

/-- A storage that starts over such a backing carries the record. -/
theorem carried_start {config : Config} {registry : Registry} {backing : Journal (Refusing Medium)}
    (hb : backing.Carries indexTag dataTag bytes record)
    (hc : Shelters indexTag dataTag record config registry)
    (hs : (start config registry backing).value = .ok s) :
    s.Carried indexTag dataTag bytes record := by
  have hsound := sound_start hs
  obtain ⟨hv, table, -, rfl⟩ := start_eq_ok.mp hs
  refine ⟨hc, ?_, hsound, hb, fun hc => ?_⟩
  · obtain ⟨rfl, rfl⟩ := hc.tags
    exact tags_of_validate hv
  · rw [chunk?, Std.ExtTreeMap.getElem?_empty] at hc
    cases hc

/-- The storages of a history over one backing: runs of calls that avoid the block of a record, and
restarts over what they have left, at any time. No registry can rebuild the record. -/
inductive Sheltered (indexTag dataTag : String) (record : Machine)
    (backing : Journal (Refusing Medium)) : Storage (Journal (Refusing Medium)) → Prop
  | started {config : Config} {registry : Registry} {s : Storage (Journal (Refusing Medium))}
      (hc : Shelters indexTag dataTag record config registry)
      (hs : (start config registry backing).value = .ok s) :
      Sheltered indexTag dataTag record backing s
  | performed {s : Storage (Journal (Refusing Medium))} {operation : Operation}
      (h : Sheltered indexTag dataTag record backing s) (ho : operation.Avoids record.location) :
      Sheltered indexTag dataTag record backing (s.after [operation])
  | restarted {config : Config} {registry : Registry} {s s' : Storage (Journal (Refusing Medium))}
      (h : Sheltered indexTag dataTag record backing s)
      (hc : Shelters indexTag dataTag record config registry)
      (hs : (start config registry s.backing).value = .ok s') :
      Sheltered indexTag dataTag record backing s'

theorem Sheltered.carried {backing : Journal (Refusing Medium)}
    (h : Sheltered indexTag dataTag record backing s)
    (hb : backing.Carries indexTag dataTag bytes record) :
    s.Carried indexTag dataTag bytes record := by
  induction h with
  | started hc hs => exact carried_start hb hc hs
  | performed _ ho ih =>
    exact after_invariant (fun he => he.carried ho) (fun hs => hs.carried ho) ih
  | restarted _ hc hs ih => exact carried_start ih.backing hc hs

/-- What reads as some records is brought into memory. -/
theorem fetched_of_readsAs {index : ChunkIndex} {records : List Bytes}
    (h : s.ReadsAs partition index records) (hn : s.chunk? partition = none) :
    ∃ s' c report, (s.load partition).value = (s', .ok (c, report)) ∧
      s.Fetched partition s' c := by
  rcases fetched_or_error s partition with hf | ⟨e, hl⟩
  · exact hf
  · exact absurd h (unreadable_of_load hn hl).not_readsAs

/-- Once its factory is there, the record is a machine again. -/
theorem get_of_carries {config : Config} {registry : Registry} {backing : Journal (Refusing Medium)}
    {location : Location} (hb : backing.Carries config.indexTag config.dataTag bytes record)
    (hs : (start config registry backing).value = .ok s)
    (hv : registry.RebuildsVerbatim record.typeTag) (hl : location.block = record.location) :
    ∃ s', (s.get location).value = (s', .ok (some record)) := by
  obtain ⟨-, table, -, rfl⟩ := start_eq_ok.mp hs
  obtain ⟨_, records, hr, hrecord⟩ := hb.stored
  obtain ⟨s', c, report, hload, hf⟩ := fetched_of_readsAs
    (s := ⟨config, registry, backing, (IdentifierCache.ofStored table).value, ∅, 1⟩) hr
    Std.ExtTreeMap.getElem?_empty
  have hmachine : c.machine? record.location = some record := by
    cases hf with
    | present hc => cases Std.ExtTreeMap.getElem?_empty.symm.trans hc
    | read _ hr' hb' =>
      obtain ⟨-, rfl⟩ := hr.unique hr'
      rw [LoadedChunk.machine?, hb'.slot, if_pos rfl, slotFor?_of_recordFor? hrecord,
        Slot.ofRecord?, hv.rebuild]
      rfl
  refine ⟨s', ?_⟩
  rw [get, hl, value_withChunk hload, hmachine]
  rfl

/-- A record that no factory can rebuild is carried along through all runs and restarts: every
commit of its partition writes it back byte for byte, as the only record for its block, and lists its
tag. Once a factory can rebuild it, it is a machine again. -/
theorem carried_along {backing : Journal (Refusing Medium)} {index : ChunkIndex}
    {records : List Bytes}
    (hr : Backing.ReadsAs backing indexTag dataTag record.location.partition index records)
    (hb : recordFor? records record.location = some (bytes, record))
    (ha : backing.inner.inner.Aside record.location.partition) (hn : backing.commits = [])
    (h : Sheltered indexTag dataTag record backing s) :
    (∀ entries, (record.location.partition, entries) ∈ s.backing.commits →
      Rewrites indexTag dataTag bytes record entries) ∧
    ∀ {config registry s₁} {location : Location}, config.indexTag = indexTag →
      config.dataTag = dataTag → registry.RebuildsVerbatim record.typeTag →
      (start config registry s.backing).value = .ok s₁ → location.block = record.location →
        ∃ s₂, (s₁.get location).value = (s₂, .ok (some record)) := by
  have hcarries : backing.Carries indexTag dataTag bytes record := by
    refine ⟨ha, ⟨index, records, hr, hb⟩, fun entries hm => ?_⟩
    rw [hn] at hm
    cases hm
  have hcarried := (h.carried hcarries).backing
  refine ⟨hcarried.written, ?_⟩
  rintro config registry s₁ location rfl rfl hv hs hl
  exact get_of_carries hcarried hs hv hl

/-- A storage without factories, over memory with a record of the sample machine. -/
def factorylessStorage : Storage (Journal (Refusing Medium)) where
  config := {}
  registry := ⟨∅⟩
  backing := ⟨⟨(Backing.commit ({} : Medium) sampleMachine.location.partition
    [("machine_data_tag",
      (RecordList.encode [sampleMachine.encode]).toOption.getD [])]).value.1, []⟩, []⟩
  cache := .empty

/-- The storage after its record has been read and written back. -/
def carryingStorage : Storage (Journal (Refusing Medium)) :=
  (factorylessStorage.after [.activate sampleMachine.location.partition]).after
    [.deactivate sampleMachine.location.partition]

theorem sheltered_carryingStorage : Sheltered "machine_index_tag" "machine_data_tag" sampleMachine
    factorylessStorage.backing carryingStorage := by
  have hc : Shelters "machine_index_tag" "machine_data_tag" sampleMachine {} ⟨∅⟩ := by
    refine ⟨⟨rfl, rfl⟩, rfl, fun m h => ?_⟩
    rw [Registry.rebuild, Registry.resolve?, Std.ExtTreeMap.getElem?_empty] at h
    cases h
  exact .performed (.performed (.started hc rfl) trivial) trivial

theorem carried_along_carryingStorage : ∃ entries s₁ s₂,
    (sampleMachine.location.partition, entries) ∈ carryingStorage.backing.commits ∧
    Rewrites "machine_index_tag" "machine_data_tag" sampleMachine.encode sampleMachine entries ∧
    (start {} sampleRegistry carryingStorage.backing).value = .ok s₁ ∧
      (s₁.get sampleMachine.location.corner).value = (s₂, .ok (some sampleMachine)) := by
  have hr : Backing.ReadsAs factorylessStorage.backing "machine_index_tag" "machine_data_tag"
      sampleMachine.location.partition ⟨sampleMachine.location.chunk, ∅⟩ [sampleMachine.encode] :=
    ⟨none, some ((RecordList.encode [sampleMachine.encode]).toOption.getD []),
      by decide +kernel, by decide +kernel, rfl, by decide +kernel⟩
  have hb : recordFor? [sampleMachine.encode] sampleMachine.location =
      some (sampleMachine.encode, sampleMachine) := by decide +kernel
  obtain ⟨hwritten, hget⟩ := carried_along hr hb nofun rfl sheltered_carryingStorage
  have hcommits : carryingStorage.backing.commits.map Prod.fst =
      [sampleMachine.location.partition] := by decide +kernel
  obtain ⟨⟨_, entries⟩, hm, rfl⟩ := List.mem_map.mp (hcommits ▸ List.mem_singleton_self _)
  have hload : Backing.loadTable carryingStorage.backing = .ok none := by decide +kernel
  have hs : (start {} sampleRegistry carryingStorage.backing).value =
      .ok ⟨{}, sampleRegistry, carryingStorage.backing, .empty, ∅, 1⟩ :=
    start_eq_ok.mpr ⟨rfl, none, hload, rfl⟩
  have hv : sampleRegistry.RebuildsVerbatim sampleMachine.typeTag := rfl
  obtain ⟨s₂, hs₂⟩ := hget rfl rfl hv hs
    (show sampleMachine.location.corner.block = sampleMachine.location by decide +kernel)
  exact ⟨entries, _, s₂, hm, hwritten entries hm, hs, hs₂⟩

end Storage

end MachineVault
