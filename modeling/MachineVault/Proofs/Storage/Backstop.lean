import MachineVault.Proofs.Storage.Succession

/-! Which machines a flush of everything leaves without an entry in the identifier cache. A machine
loses its entry where the cache places it on a block that another machine stands on, and gets it back
only from a later partition that holds it. In a storage whose table was never outdated this does not
happen. -/

namespace MachineVault.Storage

variable {σ : Type} {s s' s₀ : Storage σ} {partition : Partition} {id : MachineId}

/-- The loaded chunk of a partition holds a machine or a raw record of this identifier. -/
def Carries (s : Storage σ) (id : MachineId) (partition : Partition) : Prop :=
  ∃ c block, s.chunk? partition = some c ∧ c.Carries id block

/-- A flush of the partition costs a machine its entry: the partition does not hold it, but the cache
places it on a block there that holds another machine, and does not place that one elsewhere. -/
def Unseats (s : Storage σ) (partition : Partition) (id : MachineId) : Prop :=
  ¬ s.Carries id partition ∧ ∃ c block id', s.chunk? partition = some c ∧
    s.locationOf? id = some block ∧ c.Carries id' block ∧
      ∀ block', s.locationOf? id' = some block' → block'.partition = partition

theorem nodup_loadedPartitions (s : Storage σ) : s.loadedPartitions.Nodup :=
  Std.ExtTreeMap.nodup_keys

theorem Carries.loaded (h : s.Carries id partition) : partition ∈ s.loadedPartitions := by
  obtain ⟨c, block, hc, -⟩ := h
  rw [mem_loadedPartitions, hc]
  rfl

theorem carries_iff {c : LoadedChunk} (hc : s.chunk? partition = some c) :
    s.Carries id partition ↔ ∃ block, (id, block) ∈ holdings c := by
  constructor
  · intro h
    obtain ⟨c', block, hc', hcarries⟩ := h
    cases hc.symm.trans hc'
    exact ⟨block, LoadedChunk.mem_holdings.mpr hcarries⟩
  · intro h
    obtain ⟨block, hm⟩ := h
    exact ⟨c, block, hc, LoadedChunk.mem_holdings.mp hm⟩

theorem not_carries_of_unloaded (hn : s.chunk? partition = none) : ¬ s.Carries id partition := by
  intro h
  obtain ⟨c, block, hc, -⟩ := h
  cases hn.symm.trans hc

/-- What has no entry after a chunk was compared with the cache had none and is not held, or is
unseated. -/
theorem locationOf?_refreshed_eq_none {c : LoadedChunk} (hc : s.chunk? partition = some c)
    (h : c.LiesIn partition) : (refreshed s.cache c).locationOf? id = none ↔
      (s.locationOf? id = none ∧ ¬ s.Carries id partition) ∨ s.Unseats partition id := by
  have hp := h.holdings
  rw [refreshed_eq]
  by_cases hcarries : s.Carries id partition
  · obtain ⟨block, hm⟩ := (carries_iff hc).mp hcarries
    obtain ⟨block', hl⟩ : ∃ block', (refreshEach s.cache (holdings c)).locationOf? id = some block' :=
      exists_cached_of_refreshEach hp c.pairwise_holdings hm
    simp [hl, hcarries, Unseats]
  · have hn : ∀ e ∈ holdings c, e.1 ≠ id := by
      rintro ⟨id', block⟩ he rfl
      exact hcarries ((carries_iff hc).mpr ⟨block, he⟩)
    rw [refreshEach_eq_none_iff hp c.pairwise_holdings hn]
    refine or_congr ⟨fun hl => ⟨hl, hcarries⟩, And.left⟩ ⟨fun hx => ?_, fun hx => ?_⟩
    · obtain ⟨block, id', hl, hm, hhere⟩ := hx
      exact ⟨hcarries, c, block, id', hc, hl, LoadedChunk.mem_holdings.mp hm, hhere⟩
    · obtain ⟨-, c', block, id', hc', hl, hheld, hhere⟩ := hx
      cases hc.symm.trans hc'
      exact ⟨block, id', hl, LoadedChunk.mem_holdings.mpr hheld, hhere⟩

variable [Backing σ]

theorem Deactivated.locationOf?_eq_none {outcome : Except Error (Option FlushReport)}
    (d : s.Deactivated partition s' outcome) (h : s.Housed) : s'.locationOf? id = none ↔
      (s.locationOf? id = none ∧ ¬ s.Carries id partition) ∨ s.Unseats partition id := by
  rw [locationOf?]
  rcases d.cache with ⟨hn, hcache⟩ | ⟨c, hc, hcache⟩
  · have hunseats : ¬ s.Unseats partition id := by
      intro hx
      obtain ⟨-, c, block, id', hc, -⟩ := hx
      cases hn.symm.trans hc
    simp [hcache, locationOf?, not_carries_of_unloaded hn, hunseats]
  · rw [hcache]
    exact locationOf?_refreshed_eq_none hc (h _ _ hc)

/-- A machine has no entry after several partitions were flushed if it had none and none of them
holds it, or if one of them has unseated it and none of the later ones holds it. -/
theorem locationOf?_flushEach_eq_none {partitions : List Partition} {s : Storage σ}
    (hd : partitions.Nodup) (h : s.Housed) :
    (s.flushEach partitions).value.1.locationOf? id = none ↔
      (s.locationOf? id = none ∧ ∀ partition ∈ partitions, ¬ s.Carries id partition) ∨
      ∃ before partition after, partitions = before ++ partition :: after ∧
        (s.flushEach before).value.1.Unseats partition id ∧
          ∀ later ∈ after, ¬ s.Carries id later := by
  induction partitions generalizing s with
  | nil => simp [flushEach]
  | cons partition rest ih =>
    obtain ⟨hnew, hd⟩ := List.nodup_cons.mp hd
    have d := s.deactivated partition
    -- the flush of one partition leaves the chunks of the others as they are
    have hother {later : Partition} (hl : later ∈ rest) :
        (s.deactivate partition).value.1.Carries id later ↔ s.Carries id later := by
      rw [Carries, Carries, d.chunk_of_ne fun heq => hnew (heq ▸ hl)]
    have hlater {after : List Partition} (hsub : ∀ later ∈ after, later ∈ rest) :
        (∀ later ∈ after, ¬ (s.deactivate partition).value.1.Carries id later) ↔
          ∀ later ∈ after, ¬ s.Carries id later :=
      forall₂_congr fun later hm => not_congr (hother (hsub later hm))
    rw [value_flushEach_cons, ih hd (h.succeeds d.retains.succeeds),
      d.locationOf?_eq_none h, hlater fun _ hm => hm]
    constructor
    · intro hx
      rcases hx with ⟨⟨hl, hc⟩ | hu, hr⟩ | ⟨before, partition', after, rfl, hu, hr⟩
      · exact .inl ⟨hl, List.forall_mem_cons.mpr ⟨hc, hr⟩⟩
      · exact .inr ⟨[], partition, rest, rfl, hu, hr⟩
      · refine .inr ⟨partition :: before, partition', after, rfl, ?_, (hlater fun later hm => ?_).mp hr⟩
        · rw [value_flushEach_cons]
          exact hu
        · exact List.mem_append_right _ (List.mem_cons_of_mem _ hm)
    · intro hx
      rcases hx with ⟨hl, hc⟩ | ⟨before, partition', after, heq, hu, hr⟩
      · obtain ⟨hc, hr⟩ := List.forall_mem_cons.mp hc
        exact .inl ⟨.inl ⟨hl, hc⟩, hr⟩
      · cases before with
        | nil =>
          cases heq
          exact .inl ⟨.inr hu, hr⟩
        | cons partition₀ before =>
          cases heq
          rw [value_flushEach_cons] at hu
          refine .inr ⟨before, partition', after, rfl, hu, (hlater fun later hm => ?_).mpr hr⟩
          exact List.mem_append_right _ (List.mem_cons_of_mem _ hm)

/-- After a flush of everything, a machine that was held has no entry exactly if one of the partitions
has unseated it and none of the later ones holds it. What is saved is this cache. -/
theorem cached_of_flushAll [Backing.Recalls σ] {config : Config} {registry : Registry} {backing : σ}
    {operations : List Operation} (hs : (start config registry backing).value = .ok s₀)
    (hf : (s₀.after operations).flushAll.value = (s', .ok ())) :
    (∀ id partition, (s₀.after operations).Carries id partition →
      (s'.locationOf? id = none ↔ ∃ before partition after,
        (s₀.after operations).loadedPartitions = before ++ partition :: after ∧
          ((s₀.after operations).flushEach before).value.1.Unseats partition id ∧
            ∀ later ∈ after, ¬ (s₀.after operations).Carries id later)) ∧
    ∃ table, Backing.loadTable s'.backing = .ok (some table) ∧
      ∀ id block, ⟨id, block⟩ ∈ table.entries ↔ s'.locationOf? id = some block := by
  have hh := (housed_start hs).after operations
  obtain ⟨-, hsave⟩ := flushAll_ok hf
  rw [value_saveCache] at hsave
  obtain ⟨rfl, ho⟩ := Prod.mk.inj hsave
  refine ⟨fun id partition hc => ?_, _, Backing.Recalls.recalled (Prod.ext rfl ho),
    fun id block => IdentifierCache.mem_toTable⟩
  refine (locationOf?_flushEach_eq_none (nodup_loadedPartitions _) hh).trans ?_
  exact or_iff_right fun hx => hx.2 partition hc.loaded hc

theorem Holds.housed {held : Block → Option Slot} (h : s.Holds held) : s.Housed := by
  intro partition c hc
  exact ⟨(h.loaded hc).serves, fun hs => ((h.loaded hc).slot_eq_some.mp hs).1⟩

/-- In a storage that accounts for its cache no flush unseats a machine. -/
theorem Accounts.not_unseats {held : Block → Option Slot} (h : s.Accounts held) :
    ¬ s.Unseats partition id := by
  intro hx
  obtain ⟨hn, c, block, id', hc, hl, ⟨slot', hs', -⟩, -⟩ := hx
  obtain ⟨slot, hs, hi⟩ := h.cached hl
  have hb := (h.holds.housed _ _ hc).inside hs'
  exact hn ⟨c, block, hc, slot, (h.holds.loaded hc).slot_eq_some.mpr ⟨hb, hs⟩, hi⟩

/-- In every storage that has grown out of an empty backing, a flush of everything leaves an entry for
each machine that was held. -/
theorem cached_of_flushAll_of_reached [Backing.Atomic σ] [Backing.Recalls σ] (h : s.Reached)
    (hc : s.Carries id partition) : ∃ block, s.flushAll.value.1.locationOf? id = some block := by
  obtain ⟨held, ha⟩ := h.accounts
  apply Option.ne_none_iff_exists'.mp
  intro hn
  rw [value_flushAll] at hn
  rcases (locationOf?_flushEach_eq_none s.nodup_loadedPartitions ha.holds.housed).mp hn with
    ⟨-, hnone⟩ | ⟨before, partition', after, -, hu, -⟩
  · exact hnone partition hc.loaded hc
  · exact (flushEach_invariant (p := (Accounts · held)) (fun d h => h.deactivated d) before s
      ha).not_unseats hu

/-- A block in each of two neighbouring partitions. -/
def nearBlock : Block := ⟨"world", 0, 5, 0⟩

def farBlock : Block := ⟨"world", 16, 5, 0⟩

/-- A second machine. -/
def otherMachine : Machine := { sampleMachine with id := .ofRandom 2 }

/-- The sample machine is saved on the far block and all is flushed. Then it is removed and saved on
the near block, another machine takes its place, and both partitions are flushed, but not the cache. -/
def crashedRun : List Operation :=
  [.save farBlock.corner sampleMachine, .flushAll, .remove farBlock.corner,
    .save nearBlock.corner sampleMachine, .save farBlock.corner otherMachine,
    .deactivate nearBlock.partition, .deactivate farBlock.partition]

/-- The storage that starts again with the outdated table. -/
def crashedStorage : Storage (Refusing Memory) :=
  startedOver (sampleStorage.after crashedRun).backing

/-- Both partitions are activated. -/
def rejoinedRun : List Operation :=
  [.activate nearBlock.partition, .activate farBlock.partition]

/-- After a crash a flush of everything can leave out a machine that is held. -/
theorem unseated_after_crash : ∃ s',
    (crashedStorage.after rejoinedRun).flushAll.value = (s', .ok ()) ∧
    (crashedStorage.after rejoinedRun).Carries sampleMachine.id nearBlock.partition ∧
    s'.locationOf? sampleMachine.id = none ∧ ∃ before partition after,
      (crashedStorage.after rejoinedRun).loadedPartitions = before ++ partition :: after ∧
        ((crashedStorage.after rejoinedRun).flushEach before).value.1.Unseats partition
          sampleMachine.id := by
  have hs := start_startedOver (sampleStorage.after crashedRun).backing
  obtain ⟨⟨⟩, hf⟩ := exists_ok_of_isOk
    (show (crashedStorage.after rejoinedRun).flushAll.value.2.isOk by decide +kernel)
  have hheld : ((crashedStorage.after rejoinedRun).chunk? nearBlock.partition).bind
      (·.machine? nearBlock) = some { sampleMachine with location := nearBlock } := by
    decide +kernel
  obtain ⟨c, hc, hm⟩ := Option.bind_eq_some_iff.mp hheld
  have hcarries : (crashedStorage.after rejoinedRun).Carries sampleMachine.id
      nearBlock.partition := ⟨c, nearBlock, hc, _, LoadedChunk.machine?_eq_some.mp hm, rfl⟩
  have hlost : (crashedStorage.after rejoinedRun).flushAll.value.1.locationOf? sampleMachine.id =
      none := by decide +kernel
  obtain ⟨before, partition, after, heq, hu, -⟩ :=
    ((cached_of_flushAll hs hf).1 _ _ hcarries).mp hlost
  exact ⟨_, hf, hcarries, hlost, before, partition, after, heq, hu⟩

end MachineVault.Storage
