import MachineVault.Proofs.Encoding
import MachineVault.Proofs.Storage.Succession

/-! When a chunk in memory can be flushed. What calls put there can always be written, but a record
that was read at a height beyond the format's keeps its partition in memory. -/

namespace MachineVault

theorem forM_eq_error {ε α : Type} {f : α → Except ε Unit} {as : List α} {a : α} (ha : a ∈ as)
    (hf : f a ≠ .ok ()) : ∃ b ∈ as, ∃ e, f b = .error e ∧ as.forM f = .error e := by
  induction as with
  | nil => cases ha
  | cons b as ih =>
    have hcons : (b :: as).forM f = f b >>= fun _ => as.forM f := rfl
    cases hb : f b with
    | error e => exact ⟨b, List.mem_cons_self, e, hb, by rw [hcons, hb]; rfl⟩
    | ok u =>
      have hmem : a ∈ as := by
        apply List.mem_of_ne_of_mem _ ha
        rintro rfl
        exact hf hb
      obtain ⟨b', hm, e, he, hrest⟩ := ih hmem
      exact ⟨b', List.mem_cons_of_mem _ hm, e, he, by rw [hcons, hb, ← hrest]; rfl⟩

/-- No length of a slot exceeds a word. -/
structure Slot.Fits (block : Block) (slot : Slot) : Prop where
  world : (Text.encode block.world).length < 2 ^ 32
  tag : (Text.encode slot.typeTag).length < 2 ^ 32
  record : (slot.encode block).length < 2 ^ 32

/-- The error for a block that is too high or too low to be written. -/
def Block.heightError (b : Block) : FormatError := .outOfRange .relY b.y.toInt

theorem ChunkIndex.checkEncodable_eq_error {chunk : ChunkPos} {block : Block}
    (hc : block.chunk = chunk) (hy : ¬ block.HeightFits) :
    checkEncodable chunk block = .error block.heightError := by
  have hy : ¬(0 ≤ block.y ∧ block.y ≤ maxHeight) := hy
  simp only [checkEncodable, hc, hy, if_true, if_false]
  rfl

namespace LoadedChunk

variable {c : LoadedChunk} {partition : Partition}

/-- A chunk of fitting slots can be written exactly if their heights fit. -/
theorem exists_encode_of_heightFits (h : c.LiesIn partition)
    (hl : ∀ block slot, c.slot? block = some slot → slot.Fits block)
    (hy : ∀ block slot, c.slot? block = some slot → block.HeightFits) :
    ∃ index data, c.encode = .ok (index, data) := by
  apply exists_encode
  intro block slot hs
  obtain ⟨hworld, htag, hrecord⟩ := hl _ _ hs
  exact ⟨(h.inside hs).trans h.serves.symm, hy _ _ hs, hworld, htag, hrecord⟩

theorem encode_eq_heightError (h : c.LiesIn partition) {block : Block} {slot : Slot}
    (hs : c.slot? block = some slot) (hy : ¬ block.HeightFits) :
    ∃ block slot, c.slot? block = some slot ∧ ¬ block.HeightFits ∧
      c.encode = .error block.heightError := by
  have hcheck {block slot} (hs : c.slot? block = some slot) (hy : ¬ block.HeightFits) :
      ChunkIndex.checkEncodable c.index.chunk block = .error block.heightError :=
    ChunkIndex.checkEncodable_eq_error
      (congrArg Partition.chunk ((h.inside hs).trans h.serves.symm)) hy
  have hkey {block} : block ∈ c.index.entries.keys ↔ ∃ slot, c.slot? block = some slot := by
    rw [index, Std.ExtTreeMap.keys_map, Std.ExtTreeMap.mem_keys,
      Std.ExtTreeMap.mem_iff_isSome_getElem?, Option.isSome_iff_exists]
    rfl
  have hbad : ChunkIndex.checkEncodable c.index.chunk block ≠ .ok () := by
    simp [hcheck hs hy]
  obtain ⟨block', hm, e, he, hforM⟩ := forM_eq_error (hkey.mpr ⟨slot, hs⟩) hbad
  obtain ⟨slot', hs'⟩ := hkey.mp hm
  have hy' : ¬ block'.HeightFits := by
    intro hy'
    have hok := ChunkIndex.checkEncodable_eq_ok.mpr
      ⟨congrArg Partition.chunk ((h.inside hs').trans h.serves.symm), hy'⟩
    cases hok.symm.trans he
  refine ⟨block', slot', hs', hy', ?_⟩
  rw [hcheck hs' hy'] at he
  cases he
  unfold encode ChunkIndex.encode
  rw [hforM]
  rfl

end LoadedChunk

namespace Storage

variable {σ : Type} [Backing σ] {s s' s₀ s₁ : Storage σ} {partition : Partition} {c : LoadedChunk}
  {outcome : Except Error (Option FlushReport)}

theorem Deactivated.ok_of_heightFits (d : s.Deactivated partition s' outcome)
    (hc : s.chunk? partition = some c) (h : c.LiesIn partition)
    (hl : ∀ block slot, c.slot? block = some slot → slot.Fits block)
    (hb : ∀ entries, (Backing.commit s.backing partition entries).value.2 = .ok ())
    (hy : ∀ block slot, c.slot? block = some slot → block.HeightFits) :
    ∃ flush, outcome = .ok flush := by
  obtain ⟨index, data, he⟩ := c.exists_encode_of_heightFits h hl hy
  cases d with
  | unloaded | dropped | committed => exact ⟨_, rfl⟩
  | unencodable hc' he' =>
    rw [hc] at hc'
    cases hc'
    cases he.symm.trans he'
  | refused hc' he' hb' =>
    have hok := congrArg Prod.snd hb'
    rw [hb] at hok
    cases hok

/-- A chunk with a block of no fitting height fails to be flushed and stays in memory. -/
theorem Deactivated.stuck (d : s.Deactivated partition s' outcome)
    (hc : s.chunk? partition = some c) (h : c.LiesIn partition) {block : Block} {slot : Slot}
    (hs : c.slot? block = some slot) (hy : ¬ block.HeightFits) :
    s'.chunk? partition = some c ∧ ∃ block slot, c.slot? block = some slot ∧ ¬ block.HeightFits ∧
      outcome = .error (.format block.heightError) := by
  obtain ⟨block', slot', hs', hy', he⟩ := c.encode_eq_heightError h hs hy
  cases d with
  | unloaded hc' => cases hc.symm.trans hc'
  | dropped hc' hempty =>
    cases hc.symm.trans hc'
    rw [LoadedChunk.isEmpty_iff.mp hempty block] at hs
    cases hs
  | unencodable hc' he' =>
    cases hc.symm.trans hc'
    cases he.symm.trans he'
    exact ⟨hc, block', slot', hs', hy', rfl⟩
  | refused hc' he' =>
    cases hc.symm.trans hc'
    cases he.symm.trans he'
  | committed hc' he' =>
    cases hc.symm.trans hc'
    cases he.symm.trans he'

/-- What stands in a chunk that has been read, and was not there before, stems from a stored
record. -/
theorem Fetched.recorded (h : s.Fetched partition s' c) (hn : s.chunk? partition = none)
    {block : Block} {slot : Slot} (hs : c.slot? block = some slot) :
    ∃ index records bytes record, s.ReadsAs partition index records ∧
      recordFor? records block = some (bytes, record) := by
  cases h with
  | present hc => cases hn.symm.trans hc
  | @read index records outcome hc hr hb =>
    rw [hb.slot] at hs
    split at hs
    · obtain ⟨⟨bytes, record⟩, hrecord, -⟩ := Option.bind_eq_some_iff.mp hs
      exact ⟨index, records, bytes, record, hr, hrecord⟩
    · cases hs

theorem fetched_of_activate {report : LoadReport}
    (h : (s.activate partition).value = (s', .ok report)) : ∃ c, s.Fetched partition s' c := by
  rw [activate, Logged.value_bind] at h
  rcases fetched_or_error s partition with ⟨s₁, c, report', hl, hf⟩ | ⟨e, hl⟩
  · rw [hl] at h
    cases h
    exact ⟨c, hf⟩
  · rw [hl] at h
    cases h

/-- A partition that stays in memory after it was activated can be flushed exactly as long as all
that it holds is at a fitting height. Where it is not, the partition stays in memory, and the machine
was there when the partition was activated: no call has put it there, and if the activation has read
the partition, then out of a stored record. -/
theorem deactivate_after_activate {config : Config} {registry : Registry} {backing : σ}
    {before window : List Operation} {report : LoadReport}
    (hs : (start config registry backing).value = .ok s₀)
    (ha : ((s₀.after before).activate partition).value = (s₁, .ok report))
    (hw : ∀ done, done <+: window → ((s₁.after done).chunk? partition).isSome)
    (hc : (s₁.after window).chunk? partition = some c)
    (hl : ∀ block slot, c.slot? block = some slot → slot.Fits block)
    (hb : ∀ entries, (Backing.commit (s₁.after window).backing partition entries).value.2 = .ok ()) :
    ((∃ flush, ((s₁.after window).deactivate partition).value.2 = .ok flush) ↔
      ∀ block slot, c.slot? block = some slot → block.HeightFits) ∧
    ∀ block slot, c.slot? block = some slot → ¬ block.HeightFits →
      ((s₁.after window).deactivate partition).value.1.chunk? partition = some c ∧
      (∃ block slot, c.slot? block = some slot ∧ ¬ block.HeightFits ∧
        ((s₁.after window).deactivate partition).value.2 =
          .error (.format block.heightError)) ∧
      (∃ c₁ slot₁, s₁.chunk? partition = some c₁ ∧ c₁.slot? block = some slot₁) ∧
      ((s₀.after before).chunk? partition = none → ∃ index records bytes record,
        (s₀.after before).ReadsAs partition index records ∧
          recordFor? records block = some (bytes, record)) := by
  obtain ⟨c₁, hf⟩ := fetched_of_activate ha
  obtain ⟨c', hc', hstems⟩ := stemsFrom_after hf.chunk hw
  cases hc.symm.trans hc'
  have hlies : c.LiesIn partition :=
    ((((housed_start hs).after before).succeeds hf.succeeds).after window) _ _ hc
  have d := (s₁.after window).deactivated partition
  refine ⟨⟨?_, fun hy => d.ok_of_heightFits hc hlies hl hb hy⟩, fun block slot hslot hy => ?_⟩
  · intro hx block slot hslot
    obtain ⟨flush, hflush⟩ := hx
    by_contra hy
    obtain ⟨-, _, _, -, -, he⟩ := d.stuck hc hlies hslot hy
    cases hflush.symm.trans he
  · obtain ⟨hstays, hstuck⟩ := d.stuck hc hlies hslot hy
    have hold : ∃ slot₁, c₁.slot? block = some slot₁ :=
      (hstems.slot hslot).resolve_right fun h => hy h.2
    obtain ⟨slot₁, hslot₁⟩ := hold
    exact ⟨hstays, hstuck, ⟨c₁, slot₁, hf.chunk, hslot₁⟩, fun hn => hf.recorded hn hslot₁⟩

/-- The sample machine above the greatest height that can be written. -/
def tallMachine : Machine := { sampleMachine with location := ⟨"world", 1, 300, 1⟩ }

/-- A storage over a record of the tall machine in its partition. -/
def tallStorage : Storage (Refusing Memory) :=
  startedOver (Backing.commit sampleStorage.backing tallMachine.location.partition
    [(sampleStorage.config.dataTag,
      (RecordList.encode [tallMachine.encode]).toOption.getD [])]).value.1

/-- The chunk that is read of it. -/
def tallChunk : LoadedChunk :=
  (LoadedChunk.superseding tallMachine.location.partition 1).place tallMachine.location
    (.live tallMachine)

theorem slot?_tallChunk {block : Block} {slot : Slot} (h : tallChunk.slot? block = some slot) :
    block = tallMachine.location ∧ slot = .live tallMachine :=
  LoadedChunk.eq_of_slot?_place (fun _ => Std.ExtTreeMap.getElem?_empty) h

theorem stuck_after_tallStorage : ∃ s₁ report,
    (tallStorage.activate tallMachine.location.partition).value = (s₁, .ok report) ∧
      ¬ ∃ flush, (s₁.deactivate tallMachine.location.partition).value.2 = .ok flush := by
  obtain ⟨report, ha⟩ := exists_ok_of_isOk
    (show (tallStorage.activate tallMachine.location.partition).value.2.isOk by decide +kernel)
  have hc : (tallStorage.activate tallMachine.location.partition).value.1.chunk?
      tallMachine.location.partition = some tallChunk := by decide +kernel
  have hfits : (Slot.live tallMachine).Fits tallMachine.location :=
    ⟨by decide, by decide, by decide +kernel⟩
  have hactivated : ((tallStorage.after []).activate tallMachine.location.partition).value =
      ((tallStorage.activate tallMachine.location.partition).value.1, .ok report) := ha
  have hstays : ∀ done, done <+: ([] : List Operation) →
      (((tallStorage.activate tallMachine.location.partition).value.1.after done).chunk?
        tallMachine.location.partition).isSome := by
    intro done hd
    rw [List.prefix_nil.mp hd, after_nil, hc]
    rfl
  have h := (deactivate_after_activate (start_startedOver _) hactivated hstays hc
    (fun block slot hslot => by
      obtain ⟨rfl, rfl⟩ := slot?_tallChunk hslot
      exact hfits)
    (fun entries => rfl)).1
  refine ⟨_, report, ha, fun hok => ?_⟩
  have hy := h.mp hok tallMachine.location (.live tallMachine) (by decide +kernel)
  revert hy
  decide

end Storage

end MachineVault
