import MachineVault.Proofs.Storage.Guarding
import MachineVault.Proofs.Storage.Retrieving

/-! What becomes of an unreadable partition that has been activated as empty. Its next flush
replaces the index and the records, however damaged, and the machines saved since are read again.
Where the file itself cannot be read, though, nothing can be put beside its other sections, so no
flush gets through. -/

namespace MachineVault

/-- A call that saves or removes inside a partition. What is saved can be read again as it was. -/
def Operation.Stocks (registry : Registry) (partition : Partition) : Operation → Prop
  | .save location m => location.block.partition = partition ∧
      registry.RebuildsVerbatim m.typeTag ∧ m.state.depth ≤ Machine.depthLimit
  | .remove location => location.block.partition = partition
  | _ => False

/-- A machine that can be written for the block, and read again as it was. -/
def Slot.Lasting (registry : Registry) (block : Block) (slot : Slot) : Prop :=
  block.HeightFits ∧ ∃ m, slot = .live m ∧ registry.RebuildsVerbatim m.typeTag ∧
    m.state.depth ≤ Machine.depthLimit

namespace LoadedChunk

variable {c : LoadedChunk} {registry : Registry} {partition : Partition} {block : Block}
  {slot : Slot}

/-- Only lasting machines are on the blocks of a chunk that stands in for what is stored. -/
structure Stocked (c : LoadedChunk) (registry : Registry) (partition : Partition) : Prop where
  persisted : c.persisted = true
  serves : c.partition = partition
  slot : ∀ {block slot}, c.slot? block = some slot →
    block.partition = partition ∧ slot.Lasting registry block

theorem stocked_superseding (registry : Registry) (partition : Partition) (generation : Nat) :
    (superseding partition generation).Stocked registry partition := by
  refine ⟨rfl, rfl, fun {block slot} hs => ?_⟩
  have hnone : (superseding partition generation).slot? block = none :=
    Std.ExtTreeMap.getElem?_empty
  cases hnone.symm.trans hs

theorem Stocked.place (h : c.Stocked registry partition) (hp : block.partition = partition)
    (hl : slot.Lasting registry block) : (c.place block slot).Stocked registry partition := by
  refine ⟨h.persisted, h.serves, fun hs => ?_⟩
  rw [slot?_place] at hs
  split at hs
  · rename_i hb
    cases hs
    exact hb ▸ ⟨hp, hl⟩
  · exact h.slot hs

theorem Stocked.remove (h : c.Stocked registry partition) :
    (c.remove block).Stocked registry partition := by
  refine ⟨h.persisted, h.serves, fun hs => ?_⟩
  rw [slot?_remove] at hs
  split at hs
  · cases hs
  · exact h.slot hs

theorem Stocked.sound (h : c.Stocked registry partition) : c.Sound where
  partition hs := (h.slot hs).1.trans h.serves.symm
  genuine hs := by
    obtain ⟨-, -, m, rfl, -⟩ := h.slot hs
    trivial

theorem Stocked.onlyOversize (h : c.Stocked registry partition) : OnlyOversize c.encode :=
  .chunk fun _ _ hs => ⟨(h.slot hs).1.trans h.serves.symm, (h.slot hs).2.1⟩

/-- Every machine of a stocked chunk is read again as it was, with the block that it stood on. -/
theorem Stocked.reload (h : c.Stocked registry partition) {index data : Bytes}
    (he : c.encode = .ok (index, data)) (preserve : Bool) (block : Block) :
    (c.slot? block).bind (Slot.reload registry preserve block) =
      (c.machine? block).map fun m => .live { m with location := block } := by
  cases hs : c.slot? block with
  | none => rw [machine?, hs, Option.bind_none, Option.bind_none, Option.map_none]
  | some slot =>
    obtain ⟨-, -, m, rfl, hv, hd⟩ := h.slot hs
    rw [machine?, hs, Option.bind_some, Slot.reload_live hv (length_lt_of_encode he hs), if_pos hd]
    rfl

end LoadedChunk

namespace Storage

section Stocked

variable {σ : Type} {s s' t : Storage σ} {partition : Partition} {operation : Operation}

/-- A stocked chunk serves the partition, and nothing has been written. -/
structure Stocked (partition : Partition) (s t : Storage σ) : Prop where
  settings : s.SameSettings t
  backing : t.backing = s.backing
  chunk : ∃ c, t.chunk? partition = some c ∧ c.Stocked s.registry partition

theorem Stocked.putChunk_of_ne {partition' : Partition} {c : LoadedChunk}
    (h : Stocked partition s t) (hne : partition' ≠ partition) :
    Stocked partition s (t.putChunk partition' c) := by
  refine ⟨h.settings, h.backing, ?_⟩
  rw [chunk?_putChunk, if_neg (Ne.symm hne)]
  exact h.chunk

theorem Stocked.putChunk {c : LoadedChunk} (h : Stocked partition s t)
    (hc : c.Stocked s.registry partition) : Stocked partition s (t.putChunk partition c) := by
  refine ⟨h.settings, h.backing, c, ?_, hc⟩
  rw [chunk?_putChunk, if_pos rfl]

theorem Stocked.recache (h : Stocked partition s t) (cache : IdentifierCache) (n : Nat) :
    Stocked partition s { t with cache, nextGeneration := n } :=
  ⟨h.settings, h.backing, h.chunk⟩

/-- The chunk that serves the partition is the stocked one. -/
theorem Stocked.of_chunk {c : LoadedChunk} (h : Stocked partition s t)
    (hc : t.chunk? partition = some c) : c.Stocked s.registry partition := by
  obtain ⟨c', hc', hstocked⟩ := h.chunk
  cases hc.symm.trans hc'
  exact hstocked

theorem stocked_activateEmpty (hc : s.chunk? partition = none) :
    Stocked partition s (s.activateEmpty partition).value.1 := by
  unfold activateEmpty
  rw [hc]
  refine ⟨⟨rfl, rfl⟩, rfl, _, ?_, LoadedChunk.stocked_superseding _ _ s.nextGeneration⟩
  exact (chunk?_putChunk ..).trans (if_pos rfl)

variable [Backing σ]

theorem Entered.stocked (he : t.Entered operation s') (ho : operation.Stocks s.registry partition)
    (h : Stocked partition s t) : Stocked partition s s' := by
  cases he with
  | same => exact h
  | fetched hf =>
    cases hf with
    | present => exact h
    | read hn =>
      -- what is read is not the partition, which is in memory
      have hne : ∀ {partition'}, t.chunk? partition' = none → partition' ≠ partition := by
        rintro _ hn rfl
        obtain ⟨c, hc, -⟩ := h.chunk
        cases hn.symm.trans hc
      exact (h.putChunk_of_ne (hne hn)).recache _ _
  | emptied ho' =>
    rw [ho'] at ho
    exact ho.elim

theorem Step.stocked (hs : t.Step operation s') (ho : operation.Stocks s.registry partition)
    (h : Stocked partition s t) : Stocked partition s s' := by
  cases hs with
  | recached cache => exact h.recache cache _
  | placed ho' hs hc =>
    rw [ho'] at ho
    obtain ⟨rfl, hv, hd⟩ := ho
    have hl : (Slot.live _).Lasting s.registry _ :=
      ⟨heightFits_of_checkSaveable hs, _, rfl, hv, hd⟩
    exact h.putChunk ((h.of_chunk hc).place rfl hl)
  | cleared ho' hc =>
    rw [ho'] at ho
    obtain rfl := ho
    exact h.putChunk (h.of_chunk hc).remove
  | @evicted block _ _ hc =>
    by_cases hp : block.partition = partition
    · subst hp
      exact h.putChunk (h.of_chunk hc).remove
    · exact h.putChunk_of_ne hp
  | edited ho' =>
    rw [ho'] at ho
    exact ho.elim
  | flushed hf =>
    cases operation with
    | save | remove => exact hf.elim
    | _ => exact ho.elim
  | tableSaved ho' =>
    rcases ho' with rfl | rfl
    · exact ho.elim
    · exact ho.elim

/-- The bytes that were stored have been replaced by a chunk, and activating the partition brings
exactly the machines of the chunk back. -/
structure Replaced (s' : Storage σ) (partition : Partition) (c : LoadedChunk) : Prop where
  stored : s'.Stored partition c
  activated : ∃ s₂ c₂ report, (s'.activate partition).value = (s₂, .ok report) ∧
    s₂.chunk? partition = some c₂ ∧ ∀ block, c₂.slot? block =
      (c.machine? block).map fun m => .live { m with location := block }

theorem Deactivated.replaced [Backing.Durable σ] {c : LoadedChunk} {flush : Option FlushReport}
    (d : s.Deactivated partition s' (.ok flush)) (hv : s.config.validate = .ok ())
    (hc : s.chunk? partition = some c) (hs : c.Stocked s.registry partition) :
    s'.Replaced partition c := by
  have hstored := d.stored (tags_of_validate hv) hc fun _ => hs.persisted
  obtain ⟨s₂, c₂, report, ha, hc₂, hback⟩ :=
    activate_of_stored d.chunk_of_ok hs.sound hs.serves hstored
  have ⟨_, _, he, _⟩ := hstored
  refine ⟨hstored, s₂, c₂, report, ha, hc₂, fun block => ?_⟩
  rw [hback, d.registry, hs.reload he]

end Stocked

section Superseding

variable {s : Storage Medium} {partition : Partition} {operations : List Operation}

/-- The ways in which the flush of a chunk ends that stands in for what a storage has stored. The
bytes are replaced, or they stay: because they could not even be told apart into sections, or for a
length, or for an error of the operating system. -/
inductive Superseded (s : Storage Medium) (partition : Partition) (c : LoadedChunk) :
    Storage Medium → Except Error (Option FlushReport) → Prop
  | replaced {s' : Storage Medium} {report : FlushReport}
      (hg : ∀ tag, ∃ found, Backing.get s.backing partition tag = .ok found)
      (hr : report.committed = true) (hs : s'.Replaced partition c) :
      Superseded s partition c s' (.ok (some report))
  | stuck {s' : Storage Medium} {e : Error}
      (he : (∀ tag, Backing.get s.backing partition tag = .error e) ∨ e.Oversize ∨
        ∃ cause, e = .file cause)
      (hc : s'.chunk? partition = some c)
      (hi : s'.backing.image partition = s.backing.image partition) :
      Superseded s partition c s' (.error e)

theorem Deactivated.superseded {t s' : Storage Medium} {c : LoadedChunk}
    {outcome : Except Error (Option FlushReport)}
    (hd : (t.deactivate partition).value = (s', outcome)) (hv : s.config.validate = .ok ())
    (h : Stocked partition s t) (hc : t.chunk? partition = some c) :
    Superseded s partition c s' outcome := by
  have hs := h.of_chunk hc
  have d := t.deactivated partition
  rw [hd] at d
  cases d with
  | unloaded hn => cases hc.symm.trans hn
  | dropped hc' _ hp =>
    cases hc.symm.trans hc'
    cases hs.persisted.symm.trans hp
  | unencodable hc' he =>
    cases hc.symm.trans hc'
    exact .stuck (.inr (.inl ⟨_, hs.onlyOversize.error he, rfl⟩)) hc
      (congrArg (Medium.image · partition) h.backing)
  | refused hc' _ hb =>
    cases hc.symm.trans hc'
    rw [h.backing] at hb
    exact .stuck (Medium.error_of_commit hb) hc (Medium.spares_of_commit_error hb).image
  | @committed _ _ _ _ report hc' he hb =>
    have d : t.Deactivated partition _ (.ok (some report)) := .committed hc' he hb
    refine .replaced (fun tag => ?_) (committed_of_deactivate hc hs.persisted hd)
      (d.replaced (h.settings.1 ▸ hv) hc (h.settings.2 ▸ hs))
    rw [h.backing] at hb
    cases hget : Backing.get s.backing partition tag with
    | error e => cases (Medium.commit_of_get_error hget).symm.trans hb
    | ok found => exact ⟨found, rfl⟩

/-- After an empty activation and any saves and removals in a partition, a flush replaces what was
stored by the machines held last, unless the file could not be told apart into sections. Then it
fails as reading does, and the file stays as it is. -/
theorem superseded_of_activateEmpty (hv : s.config.validate = .ok ())
    (hc : s.chunk? partition = none)
    (ho : ∀ operation ∈ operations, operation.Stocks s.registry partition) :
    ∃ c s' outcome,
      ((s.activateEmpty partition).value.1.after operations).chunk? partition = some c ∧
      (((s.activateEmpty partition).value.1.after operations).deactivate partition).value =
        (s', outcome) ∧ Superseded s partition c s' outcome := by
  have h : Stocked partition s ((s.activateEmpty partition).value.1.after operations) :=
    run_invariant (fun operation hm _ => after_invariant (fun he => he.stocked (ho operation hm))
      fun hs => hs.stocked (ho operation hm)) (stocked_activateEmpty hc)
  obtain ⟨c, hchunk, -⟩ := h.chunk
  exact ⟨c, _, _, hchunk, rfl, Deactivated.superseded rfl hv h hchunk⟩

/-- A storage over files of which one is damaged. -/
def unreadableVault : Storage Medium where
  config := {}
  registry := sampleRegistry
  backing := damagedMedium
  cache := .empty

/-- The storage with the sample machine in the damaged partition, activated as empty before. -/
def restockedVault : Storage Medium :=
  (unreadableVault.activateEmpty sampleMachine.location.partition).value.1.after
    [.save sampleMachine.location.corner sampleMachine]

theorem stuck_restockedVault : ∃ c s' e,
    (restockedVault.deactivate sampleMachine.location.partition).value = (s', .error e) ∧
    s'.chunk? sampleMachine.location.partition = some c ∧
    s'.backing.image sampleMachine.location.partition =
      damagedMedium.image sampleMachine.location.partition := by
  have hstocks : ∀ operation ∈ [Operation.save sampleMachine.location.corner sampleMachine],
      operation.Stocks unreadableVault.registry sampleMachine.location.partition := by
    intro operation ho
    obtain rfl := List.mem_singleton.mp ho
    exact ⟨by decide +kernel, rfl, Nat.zero_le _⟩
  obtain ⟨c, s', outcome, -, hd, h⟩ :=
    superseded_of_activateEmpty (by decide +kernel) (by decide +kernel) hstocks
  cases h with
  | replaced hg =>
    obtain ⟨found, hfound⟩ := hg unreadableVault.config.indexTag
    cases (get_damagedMedium _).symm.trans hfound
  | stuck _ hc hi => exact ⟨c, s', _, hd, hc, hi⟩

end Superseding

end Storage

end MachineVault
