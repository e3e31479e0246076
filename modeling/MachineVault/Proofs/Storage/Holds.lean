import MachineVault.Proofs.Backing
import MachineVault.Proofs.Reload
import MachineVault.Proofs.Storage.Forgetting

/-! What a storage holds, in memory and in its backing together: one slot for each block. Whatever is
stored has been written by a storage, so that loading a partition never fails. -/

namespace MachineVault

/-- A chunk shows what is held in its partition. -/
structure LoadedChunk.Shows (c : LoadedChunk) (partition : Partition) (held : Block → Option Slot) :
    Prop where
  serves : c.partition = partition
  slot : ∀ block, c.slot? block = if block.partition = partition then held block else none

theorem LoadedChunk.Shows.slot_of_mem {c : LoadedChunk} {partition : Partition}
    {held : Block → Option Slot} (h : c.Shows partition held) {block : Block}
    (hb : block.partition = partition) : c.slot? block = held block := by
  rw [h.slot, if_pos hb]

theorem LoadedChunk.Shows.slot_eq_some {c : LoadedChunk} {partition : Partition}
    {held : Block → Option Slot} (h : c.Shows partition held) {block : Block} {slot : Slot} :
    c.slot? block = some slot ↔ block.partition = partition ∧ held block = some slot := by
  rw [h.slot]
  split
  · rename_i hb
    simp [hb]
  · rename_i hb
    simp [hb]

theorem LoadedChunk.Shows.congr {c : LoadedChunk} {partition : Partition}
    {held held' : Block → Option Slot} (h : c.Shows partition held)
    (heq : ∀ block, block.partition = partition → held' block = held block) :
    c.Shows partition held' where
  serves := h.serves
  slot block := by
    rw [h.slot]
    split
    · rename_i hb
      exact (heq block hb).symm
    · rfl

theorem LoadedChunk.Shows.sound {c : LoadedChunk} {partition : Partition}
    {held : Block → Option Slot} (h : c.Shows partition held)
    (hg : ∀ {block slot}, held block = some slot → slot.Genuine block) : c.Sound where
  partition {block slot} hs := by
    rw [h.slot] at hs
    split at hs
    · rename_i hb
      rw [h.serves, hb]
    · cases hs
  genuine {block slot} hs := by
    rw [h.slot] at hs
    split at hs
    · exact hg hs
    · cases hs

namespace Storage

variable {σ : Type} {s : Storage σ} {held : Block → Option Slot}

theorem chunk?_putChunk (s : Storage σ) (partition partition' : Partition) (c : LoadedChunk) :
    (s.putChunk partition c).chunk? partition' =
      if partition' = partition then some c else s.chunk? partition' :=
  getElem?_insert s.chunks partition partition' c

/-- What a storage holds once a partition is loaded. -/
def reloaded (s : Storage σ) (partition : Partition) (held : Block → Option Slot) :
    Block → Option Slot := fun block =>
  if block.partition = partition ∧ s.chunk? partition = none then
    (held block).bind (Slot.reload s.registry s.config.preserveUnknown block)
  else held block

/-- Loading a partition costs the cache this pair: no slot comes back on the block, and its record
cannot be read or is of this machine. -/
def Loses (s : Storage σ) (partition : Partition) (held : Block → Option Slot) (id : MachineId)
    (block : Block) : Prop :=
  block.partition = partition ∧ s.chunk? partition = none ∧
    ∃ slot, held block = some slot ∧
      slot.reload s.registry s.config.preserveUnknown block = none ∧
      (slot.stored? block = none ∨ slot.id = id)

theorem reloaded_of_chunk {partition : Partition} {c : LoadedChunk}
    (h : s.chunk? partition = some c) (held : Block → Option Slot) :
    s.reloaded partition held = held := by
  funext block
  rw [reloaded, h]
  simp

theorem reloaded_of_ne {partition : Partition} {block : Block} (h : block.partition ≠ partition) :
    s.reloaded partition held block = held block := by
  rw [reloaded, if_neg fun hb => h hb.1]

theorem reloaded_of_unloaded {partition : Partition} (h : s.chunk? partition = none) {block : Block}
    (hb : block.partition = partition) : s.reloaded partition held block =
      (held block).bind (Slot.reload s.registry s.config.preserveUnknown block) := by
  rw [reloaded, if_pos ⟨hb, h⟩]

/-- What comes back of a stored chunk shows what the storage then holds. -/
theorem shows_reloaded {partition : Partition} {c : LoadedChunk} {generation : Nat}
    {outcome : LoadedChunk × LoadReport} (hc : s.chunk? partition = none)
    (hs : c.Shows partition held)
    (r : c.Reloaded generation s.registry s.config.preserveUnknown outcome) :
    outcome.1.Shows partition (s.reloaded partition held) where
  serves := r.identity.1.trans hs.serves
  slot block := by
    rw [r.slot, hs.slot]
    split
    · rename_i hb
      rw [reloaded_of_unloaded hc hb]
    · rfl

/-- The report on a stored chunk names the pairs that are lost. -/
theorem loses_iff_reported {partition : Partition} {c : LoadedChunk} {generation : Nat}
    {outcome : LoadedChunk × LoadReport} {id : MachineId} {block : Block}
    (hc : s.chunk? partition = none) (hs : c.Shows partition held)
    (r : c.Reloaded generation s.registry s.config.preserveUnknown outcome) :
    s.Loses partition held id block ↔ (id, block) ∈ outcome.2.dropped ∨
      (block ∈ outcome.2.missingRecords ∧ outcome.1.holds block = false) := by
  rw [r.dropped, r.missing, LoadedChunk.holds_eq, r.slot]
  constructor
  · intro h
    rcases h with ⟨hb, -, slot, hslot, hreload, hcause⟩
    have hslot := hs.slot_eq_some.mpr ⟨hb, hslot⟩
    cases hstored : slot.stored? block with
    | none =>
      refine .inr ⟨⟨slot, hslot, hstored⟩, ?_⟩
      rw [hslot, Option.bind_some, hreload]
      rfl
    | some record =>
      have hi := hcause.resolve_left (by simp [hstored])
      exact .inl ⟨slot, hslot, hi, by simp [hstored], hreload⟩
  · intro h
    rcases h with ⟨slot, hslot, hi, -, hreload⟩ | ⟨⟨slot, hslot, hstored⟩, -⟩
    · obtain ⟨hb, hslot⟩ := hs.slot_eq_some.mp hslot
      exact ⟨hb, hc, slot, hslot, hreload, .inr hi⟩
    · obtain ⟨hb, hslot⟩ := hs.slot_eq_some.mp hslot
      exact ⟨hb, hc, slot, hslot, Slot.reload_eq_none_of_stored hstored, .inl hstored⟩

variable [Backing σ]

/-- Nothing is stored for a partition. -/
def Unstored (s : Storage σ) (partition : Partition) : Prop :=
  Backing.get s.backing partition s.config.indexTag = .ok none ∧
    Backing.get s.backing partition s.config.dataTag = .ok none

/-- A chunk is what is stored for a partition. -/
def Stored (s : Storage σ) (partition : Partition) (c : LoadedChunk) : Prop :=
  ∃ index data, c.encode = .ok (index, data) ∧
    Backing.get s.backing partition s.config.indexTag = .ok (some index) ∧
    Backing.get s.backing partition s.config.dataTag = .ok (some data)

/-- A storage holds these slots: what is loaded shows them, and the rest is stored. -/
structure Holds (s : Storage σ) (held : Block → Option Slot) : Prop where
  tags : s.config.indexTag ≠ s.config.dataTag
  loaded : ∀ {partition c}, s.chunk? partition = some c → c.Shows partition held
  unstored : ∀ {partition c}, s.chunk? partition = some c → c.persisted = false →
    s.Unstored partition
  unloaded : ∀ {partition}, s.chunk? partition = none →
    s.Unstored partition ∧ (∀ block, block.partition = partition → held block = none) ∨
      ∃ c : LoadedChunk, c.Shows partition held ∧ s.Stored partition c
  genuine : ∀ {block slot}, held block = some slot → slot.Genuine block

/-- What is known of a storage in which a partition has just been called for. -/
structure Called (s : Storage σ) (partition : Partition) (held : Block → Option Slot)
    (s' : Storage σ) (c : LoadedChunk) : Prop where
  holds : s'.Holds (s.reloaded partition held)
  chunk : s'.chunk? partition = some c
  others : ∀ partition', partition' ≠ partition → s'.chunk? partition' = s.chunk? partition'
  config : s'.config = s.config
  registry : s'.registry = s.registry
  backing : s'.backing = s.backing
  cached : ∀ id block, s'.locationOf? id = some block ↔
    s.locationOf? id = some block ∧ ¬ s.Loses partition held id block

/-- Holding is a matter of tags, stored bytes and chunks. -/
theorem Holds.congr {s' : Storage σ} (h : s.Holds held)
    (htags : s'.config.indexTag = s.config.indexTag ∧ s'.config.dataTag = s.config.dataTag)
    (hget : Backing.get s'.backing = Backing.get s.backing)
    (hchunk : ∀ partition, s'.chunk? partition = s.chunk? partition) : s'.Holds held where
  tags := by
    rw [htags.1, htags.2]
    exact h.tags
  loaded hc := h.loaded ((hchunk _).symm.trans hc)
  unstored hc hp := by
    rw [Unstored, hget, htags.1, htags.2]
    exact h.unstored ((hchunk _).symm.trans hc) hp
  unloaded hc := by
    simp only [Unstored, Stored, hget, htags.1, htags.2]
    exact h.unloaded ((hchunk _).symm.trans hc)
  genuine := h.genuine

/-- Puts a chunk in the place of what was held in its partition. -/
theorem Holds.put {held' : Block → Option Slot} {partition : Partition} {c : LoadedChunk}
    (h : s.Holds held) (hs : c.Shows partition held')
    (hp : c.persisted = false → s.Unstored partition)
    (hoff : ∀ block, block.partition ≠ partition → held' block = held block)
    (hg : ∀ {block slot}, held' block = some slot → slot.Genuine block) :
    (s.putChunk partition c).Holds held' where
  tags := h.tags
  loaded {partition' c'} hc := by
    rw [chunk?_putChunk] at hc
    split at hc
    · rename_i heq
      cases hc
      rw [heq]
      exact hs
    · rename_i hne
      exact (h.loaded hc).congr fun block hb => hoff block (hb ▸ hne)
  unstored {partition' c'} hc hp' := by
    rw [chunk?_putChunk] at hc
    split at hc
    · rename_i heq
      cases hc
      rw [heq]
      exact hp hp'
    · exact h.unstored hc hp'
  unloaded {partition'} hc := by
    rw [chunk?_putChunk] at hc
    split at hc
    · cases hc
    · rename_i hne
      have heq : ∀ block, block.partition = partition' → held' block = held block :=
        fun block hb => hoff block (hb ▸ hne)
      rcases h.unloaded hc with ⟨hu, hn⟩ | ⟨c', hs', hst⟩
      · exact .inl ⟨hu, fun block hb => (heq block hb).trans (hn block hb)⟩
      · exact .inr ⟨c', hs'.congr heq, hst⟩
  genuine := hg

/-- What lies in a partition that is not in memory has been written. -/
theorem Holds.stored (h : s.Holds held) {block : Block} {slot : Slot}
    (hc : s.chunk? block.partition = none)
    (hs : held block = some slot) : ∃ c : LoadedChunk, c.Shows block.partition held ∧
      s.Stored block.partition c ∧ c.slot? block = some slot := by
  rcases h.unloaded hc with ⟨-, hn⟩ | ⟨c, hshows, hst⟩
  · rw [hn block rfl] at hs
    cases hs
  · exact ⟨c, hshows, hst, hshows.slot_eq_some.mpr ⟨rfl, hs⟩⟩

theorem Holds.length_lt (h : s.Holds held) {block : Block} {slot : Slot}
    (hc : s.chunk? block.partition = none)
    (hs : held block = some slot) : (slot.encode block).length < 2 ^ 32 := by
  obtain ⟨c, -, ⟨index, data, he, -, -⟩, hslot⟩ := h.stored hc hs
  exact LoadedChunk.length_lt_of_encode he hslot

theorem load_of_chunk {partition : Partition} {c : LoadedChunk} (h : s.chunk? partition = some c) :
    (s.load partition).value = (s, .ok (c, c.reportLoaded)) := by
  unfold load
  rw [h]
  rfl

theorem load_of_read {partition : Partition} {outcome : LoadedChunk × LoadReport}
    (h : s.chunk? partition = none) (hr : (s.readChunk partition).value = .ok outcome) :
    ∃ report, (s.load partition).value =
      ({ s.putChunk outcome.2.partition outcome.1 with
        cache := (forgetLost s.cache outcome.1 outcome.2).value,
        nextGeneration := s.nextGeneration + 1 }, .ok (outcome.1, report)) := by
  unfold load
  rw [h]
  simp only [Logged.value_bind, hr]
  exact ⟨_, rfl⟩

theorem readChunk_of_unstored {partition : Partition} (h : s.Unstored partition) :
    (s.readChunk partition).value = .ok ({ partition, generation := s.nextGeneration },
      { partition, generation := s.nextGeneration }) := by
  unfold readChunk
  rw [h.1, h.2]
  rfl

theorem readChunk_of_stored {partition : Partition} {c : LoadedChunk} (hp : c.partition = partition)
    (h : s.Stored partition c) :
    (s.readChunk partition).value = .ok (LoadedChunk.load c.partition s.nextGeneration c.index
      (c.contents.toList.map fun e => e.2.encode e.1) s.registry
        s.config.preserveUnknown).value := by
  obtain ⟨index, data, he, hi, hd⟩ := h
  obtain ⟨hdi, hdd⟩ := LoadedChunk.decode_encode he
  subst hp
  unfold readChunk
  rw [hi, hd]
  have hri : (readIndex c.partition (some index)).value = .ok c.index := by
    simp only [readIndex, hdi]
    rw [if_pos (show c.index.chunk = c.partition.chunk from rfl)]
    rfl
  have hrd : (readRecords c.partition (some data)).value =
      .ok (c.contents.toList.map fun e => e.2.encode e.1) := by
    simp only [readRecords, hdd]
    rfl
  simp only [buildChunk, Logged.value_bind, hri, hrd]
  rfl

/-- Takes up what was read, if it is what comes back of the partition and the report names the pairs
that are lost. -/
theorem Holds.called_of_read {partition : Partition} {outcome : LoadedChunk × LoadReport}
    (h : s.Holds held) (hc : s.chunk? partition = none)
    (hr : (s.readChunk partition).value = .ok outcome) (hrep : outcome.2.partition = partition)
    (hs : outcome.1.Shows partition (s.reloaded partition held))
    (hp : outcome.1.persisted = false → s.Unstored partition)
    (hg : ∀ {block slot}, s.reloaded partition held block = some slot → slot.Genuine block)
    (hl : ∀ id block, s.Loses partition held id block ↔ (id, block) ∈ outcome.2.dropped ∨
      (block ∈ outcome.2.missingRecords ∧ outcome.1.holds block = false)) :
    ∃ s' c report, (s.load partition).value = (s', .ok (c, report)) ∧
      s.Called partition held s' c := by
  obtain ⟨report, hload⟩ := load_of_read hc hr
  rw [hrep] at hload
  refine ⟨_, _, _, hload, ?_, ?_, ?_, rfl, rfl, rfl, ?_⟩
  · exact (h.put hs hp (fun _ => reloaded_of_ne) hg).congr ⟨rfl, rfl⟩ rfl fun _ => rfl
  · exact (chunk?_putChunk ..).trans (if_pos rfl)
  · exact fun partition' hne => (chunk?_putChunk ..).trans (if_neg hne)
  · intro id block
    rw [hl, not_or]
    exact locationOf?_forgetLost outcome.1 outcome.2

/-- A partition of which nothing is stored is called for. -/
theorem Holds.call_of_unstored (h : s.Holds held) (hc : s.chunk? partition = none)
    (hu : s.Unstored partition) (hn : ∀ block, block.partition = partition → held block = none) :
    ∃ s' c report, (s.load partition).value = (s', .ok (c, report)) ∧
      s.Called partition held s' c := by
  have hnone : ∀ block, block.partition = partition → s.reloaded partition held block = none := by
    intro block hb
    rw [reloaded_of_unloaded hc hb, hn block hb, Option.bind_none]
  refine h.called_of_read hc (readChunk_of_unstored hu) rfl ⟨rfl, fun block => ?_⟩
    (fun _ => hu) (fun {block slot} hb => ?_) (fun id block => ?_)
  · rw [LoadedChunk.slot?, Std.ExtTreeMap.getElem?_empty]
    split
    · rename_i hb
      exact (hnone block hb).symm
    · rfl
  · by_cases hp : block.partition = partition
    · rw [hnone block hp] at hb
      cases hb
    · exact h.genuine ((reloaded_of_ne hp).symm.trans hb)
  · simp only [List.not_mem_nil, false_and, or_false, iff_false]
    intro hx
    rcases hx with ⟨hb, -, slot, hs, -⟩
    rw [hn block hb] at hs
    cases hs

/-- A partition that is stored as a chunk encodes it is called for. -/
theorem Holds.call_of_stored {c : LoadedChunk} (h : s.Holds held) (hc : s.chunk? partition = none)
    (hs : c.Shows partition held) (hst : s.Stored partition c) :
    ∃ s' c report, (s.load partition).value = (s', .ok (c, report)) ∧
      s.Called partition held s' c := by
  have hread := readChunk_of_stored hs.serves hst
  obtain ⟨index, data, he, -⟩ := hst
  have r := LoadedChunk.load_encode (hs.sound h.genuine) he s.nextGeneration s.registry
    s.config.preserveUnknown
  refine h.called_of_read hc hread (r.identity.2.2.2.1.trans hs.serves) (shows_reloaded hc hs r)
    (fun hp => ?_) (fun {block slot} hb => ?_) (fun id block => loses_iff_reported hc hs r)
  · rw [r.identity.2.2.1] at hp
    cases hp
  · by_cases hp : block.partition = partition
    · rw [reloaded_of_unloaded hc hp] at hb
      obtain ⟨slot', hslot, hreload⟩ := Option.bind_eq_some_iff.mp hb
      have hl := LoadedChunk.length_lt_of_encode he (hs.slot_eq_some.mpr ⟨hp, hslot⟩)
      exact (h.genuine hslot).of_reload hl hreload
    · exact h.genuine ((reloaded_of_ne hp).symm.trans hb)

/-- A partition can always be called for, whether it is loaded, stored, or neither. -/
theorem Holds.call (h : s.Holds held) (partition : Partition) :
    ∃ s' c report, (s.load partition).value = (s', .ok (c, report)) ∧
      s.Called partition held s' c := by
  cases hc : s.chunk? partition with
  | some c =>
    refine ⟨s, c, _, load_of_chunk hc, ?_, hc, fun _ _ => rfl, rfl, rfl, rfl, ?_⟩
    · rw [reloaded_of_chunk hc]
      exact h
    · intro id block
      simp [Loses, hc]
  | none =>
    rcases h.unloaded hc with ⟨hu, hn⟩ | ⟨c, hs, hst⟩
    · exact h.call_of_unstored hc hu hn
    · exact h.call_of_stored hc hs hst

end Storage

end MachineVault
