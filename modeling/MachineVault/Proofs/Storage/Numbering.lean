import MachineVault.Proofs.Storage.Retrieving

/-! What holds of a storage whatever is stored, whatever the factories do and whatever is called.
Chunks lie in their partitions, raw records are what their bytes say, and the cache agrees with
itself. Every chunk that comes into memory gets the next number, and no number is left out. -/

namespace MachineVault.Storage

variable {σ : Type}

theorem generationOf?_putChunk (s : Storage σ) (partition partition' : Partition)
    (c : LoadedChunk) : (s.putChunk partition c).generationOf? partition' =
      if partition' = partition then some c.generation else s.generationOf? partition' := by
  rw [generationOf?, chunk?_putChunk]
  split <;> rfl

/-- A chunk may change under its number. -/
theorem generationOf?_putChunk_of_eq {s : Storage σ} {partition : Partition} {c c' : LoadedChunk}
    (hc : s.chunk? partition = some c) (hg : c'.generation = c.generation)
    (partition' : Partition) :
    (s.putChunk partition c').generationOf? partition' = s.generationOf? partition' := by
  rw [generationOf?_putChunk]
  split
  · rename_i hp
    rw [hp, generationOf?, hc, hg]
    rfl
  · rfl

theorem generation_edit (c : LoadedChunk) (block : Block) (change : Machine → Machine) :
    (c.edit block change).generation = c.generation := by
  unfold LoadedChunk.edit
  split <;> rfl

/-- What a call does to the numbers of the chunks in memory. Where it brings one in, it issues the
next number. -/
inductive Numbers (s s' : Storage σ) : Prop
  | kept (hn : s'.nextGeneration = s.nextGeneration)
      (hg : ∀ {partition n}, s'.generationOf? partition = some n →
        s.generationOf? partition = some n) : Numbers s s'
  | issued {partition : Partition} (hn : s'.nextGeneration = s.nextGeneration + 1)
      (hc : s.generationOf? partition = none)
      (hg : ∀ partition', s'.generationOf? partition' =
        if partition' = partition then some s.nextGeneration else s.generationOf? partition') :
      Numbers s s'

/-- No number has been issued, and every chunk is there under its number. -/
def SameNumbers (s s' : Storage σ) : Prop :=
  s'.nextGeneration = s.nextGeneration ∧
    ∀ partition, s'.generationOf? partition = s.generationOf? partition

theorem SameNumbers.trans {s s₁ s' : Storage σ} (h : s.SameNumbers s₁) (h' : s₁.SameNumbers s') :
    s.SameNumbers s' :=
  ⟨h'.1.trans h.1, fun partition => (h'.2 partition).trans (h.2 partition)⟩

theorem Numbers.trans_same {s s₁ s' : Storage σ} (h : s.Numbers s₁) (h' : s₁.SameNumbers s') :
    s.Numbers s' := by
  cases h with
  | kept hn hg =>
    exact .kept (h'.1.trans hn) fun {partition _} hp => hg ((h'.2 partition).symm.trans hp)
  | issued hn hc hg =>
    exact .issued (h'.1.trans hn) hc fun partition => (h'.2 partition).trans (hg partition)

variable {s s' : Storage σ} {partition : Partition}

/-- The chunks in memory have numbers of their own, and all of them have been issued. -/
structure Numbered (s : Storage σ) : Prop where
  below : ∀ {partition n}, s.generationOf? partition = some n → n < s.nextGeneration
  distinct : ∀ {partition partition' n}, s.generationOf? partition = some n →
    s.generationOf? partition' = some n → partition = partition'

theorem Numbered.numbers (h : s.Numbered) (hn : s.Numbers s') : s'.Numbered := by
  cases hn with
  | kept hn hg =>
    exact ⟨fun hp => hn ▸ h.below (hg hp), fun hp hp' => h.distinct (hg hp) (hg hp')⟩
  | @issued partition hn hc hg =>
    constructor
    · intro partition' n hp
      rw [hg] at hp
      split at hp
      · cases hp
        omega
      · have := h.below hp
        omega
    · intro p q n hp hq
      rw [hg] at hp hq
      split at hp <;> split at hq
      · exact ‹p = partition›.trans ‹q = partition›.symm
      · cases hp
        exact absurd (h.below hq) (lt_irrefl _)
      · cases hq
        exact absurd (h.below hp) (lt_irrefl _)
      · exact h.distinct hp hq

/-- The numbers of the partitions that are in memory now and were not before. -/
def newNumbers (s s' : Storage σ) : List Nat :=
  (s'.loadedPartitions.filter fun partition => ¬ s.isLoaded partition).filterMap s'.generationOf?

theorem isLoaded_eq (s : Storage σ) (partition : Partition) :
    s.isLoaded partition = (s.generationOf? partition).isSome := by
  rw [isLoaded, generationOf?, Option.isSome_map, chunk?,
    Std.ExtTreeMap.isSome_getElem?_eq_contains]

theorem mem_newcomers : partition ∈ s'.loadedPartitions.filter (fun p => ¬ s.isLoaded p) ↔
    (s'.generationOf? partition).isSome ∧ s.generationOf? partition = none := by
  rw [List.mem_filter, mem_loadedPartitions, generationOf?, Option.isSome_map, isLoaded_eq]
  simp

theorem newNumbers_of_kept (hg : ∀ {partition n}, s'.generationOf? partition = some n →
    s.generationOf? partition = some n) : s.newNumbers s' = [] := by
  rw [newNumbers, List.filterMap_eq_nil_iff]
  intro partition hm
  obtain ⟨hsome, hnone⟩ := mem_newcomers.mp hm
  obtain ⟨n, hn⟩ := Option.isSome_iff_exists.mp hsome
  cases hnone.symm.trans (hg hn)

theorem newNumbers_of_issued (hc : s.generationOf? partition = none)
    (hg : ∀ partition', s'.generationOf? partition' =
      if partition' = partition then some s.nextGeneration else s.generationOf? partition') :
    s.newNumbers s' = [s.nextGeneration] := by
  have hnew : s'.loadedPartitions.filter (fun p => ¬ s.isLoaded p) = [partition] := by
    refine List.perm_singleton.mp ((List.perm_ext_iff_of_nodup ?_ (List.nodup_singleton _)).mpr ?_)
    · exact Std.ExtTreeMap.nodup_keys.filter _
    · intro p
      rw [mem_newcomers, hg, List.mem_singleton]
      constructor
      · rintro ⟨hsome, hnone⟩
        split at hsome
        · assumption
        · rw [hnone] at hsome
          cases hsome
      · rintro rfl
        exact ⟨by rw [if_pos rfl]; rfl, hc⟩
  rw [newNumbers, hnew, List.filterMap_cons, hg, if_pos rfl]
  rfl

/-- What every storage keeps to. -/
structure WellFormed (s : Storage σ) : Prop where
  serves : ∀ {partition c}, s.chunk? partition = some c → c.partition = partition
  machineInside : ∀ {partition c block m}, s.chunk? partition = some c → (block, m) ∈ c.machines →
    block.partition = partition
  recordInside : ∀ {partition c block record}, s.chunk? partition = some c →
    (block, record) ∈ c.rawRecords → block.partition = partition
  apart : ∀ {partition c block m record}, s.chunk? partition = some c → (block, m) ∈ c.machines →
    (block, record) ∉ c.rawRecords
  genuine : ∀ {partition c block record}, s.chunk? partition = some c →
    (block, record) ∈ c.rawRecords → ∃ m, Machine.decode record.bytes = .ok m ∧
      m.location = block ∧ m.id = record.id ∧ m.typeTag = record.typeTag
  below : ∀ {partition c}, s.chunk? partition = some c → c.generation < s.nextGeneration
  distinct : ∀ {partition partition' c c'}, s.chunk? partition = some c →
    s.chunk? partition' = some c' → c.generation = c'.generation → partition = partition'
  inverse : ∀ id block, s.locationOf? id = some block ↔ s.cache.idAt? block = some id

theorem Numbered.wellFormed (hn : s.Numbered) (hs : s.Sound) : s.WellFormed where
  serves hc := (hs _ _ hc).1
  machineInside hc hm := by
    obtain ⟨hp, hsound⟩ := hs _ _ hc
    exact (hsound.partition (LoadedChunk.mem_machines.mp hm)).trans hp
  recordInside hc hm := by
    obtain ⟨hp, hsound⟩ := hs _ _ hc
    exact (hsound.partition (LoadedChunk.mem_rawRecords.mp hm)).trans hp
  apart _ hm hr := by
    cases (LoadedChunk.mem_machines.mp hm).symm.trans (LoadedChunk.mem_rawRecords.mp hr)
  genuine hc hm := by
    obtain ⟨state, hd⟩ := (hs _ _ hc).2.genuine (LoadedChunk.mem_rawRecords.mp hm)
    exact ⟨_, hd, rfl, rfl, rfl⟩
  below hc := hn.below (Option.map_eq_some_iff.mpr ⟨_, hc, rfl⟩)
  distinct hc hc' heq := hn.distinct (Option.map_eq_some_iff.mpr ⟨_, hc, rfl⟩)
    (Option.map_eq_some_iff.mpr ⟨_, hc', heq.symm⟩)
  inverse _ _ := IdentifierCache.idAt?_eq_some.symm

variable [Backing σ] {operation : Operation}

theorem Fetched.numbers {c : LoadedChunk} (h : s.Fetched partition s' c) : s.Numbers s' := by
  cases h with
  | present => exact .kept rfl id
  | read hc _ hb =>
    refine .issued rfl (by rw [generationOf?, hc]; rfl) fun partition' => ?_
    rw [← hb.identity.2]
    exact generationOf?_putChunk ..

theorem Entered.numbers (h : s.Entered operation s') : s.Numbers s' := by
  cases h with
  | same => exact .kept rfl id
  | fetched hf => exact hf.numbers
  | emptied _ hc =>
    refine .issued rfl (by rw [generationOf?, hc]; rfl) fun partition' => ?_
    exact generationOf?_putChunk ..

/-- Where nothing is flushed, a step changes chunks in place only. -/
theorem Step.sameNumbers (h : s.Step operation s') (hf : ∀ partition, ¬ operation.flushes partition) :
    s.SameNumbers s' := by
  cases h with
  | recached | tableSaved => exact ⟨rfl, fun _ => rfl⟩
  | placed _ _ hc | cleared _ hc | evicted hc =>
    exact ⟨rfl, generationOf?_putChunk_of_eq hc rfl⟩
  | edited _ hc => exact ⟨rfl, generationOf?_putChunk_of_eq hc (generation_edit ..)⟩
  | flushed ho => exact absurd ho (hf _)

theorem Deactivated.numbers {outcome : Except Error (Option FlushReport)}
    (d : s.Deactivated partition s' outcome) : s'.nextGeneration = s.nextGeneration ∧
      ∀ {partition' n}, s'.generationOf? partition' = some n →
        s.generationOf? partition' = some n := by
  constructor
  · cases d <;> rfl
  · intro partition' n hg
    obtain ⟨c, hc, rfl⟩ := Option.map_eq_some_iff.mp hg
    exact Option.map_eq_some_iff.mpr ⟨c, d.chunk_eq_some hc, rfl⟩

theorem numbers_flushAll (s : Storage σ) : s.Numbers s.flushAll.value.1 := by
  rw [value_flushAll]
  obtain ⟨hn, hg⟩ := flushEach_invariant
    (p := fun t => t.nextGeneration = s.nextGeneration ∧ ∀ {partition n},
      t.generationOf? partition = some n → s.generationOf? partition = some n)
    (fun d h => ⟨d.numbers.1.trans h.1, fun hp => h.2 (d.numbers.2 hp)⟩)
    s.loadedPartitions s ⟨rfl, id⟩
  exact .kept hn hg

/-- Every call keeps the numbers or issues the next one. -/
theorem numbers_after (s : Storage σ) (operation : Operation) :
    s.Numbers (s.after [operation]) := by
  by_cases hf : ∃ partition, operation.flushes partition
  · cases operation with
    | deactivate partition =>
      have d := s.deactivated partition
      exact .kept d.numbers.1 d.numbers.2
    | handle notice =>
      cases notice with
      | activated => exact absurd hf nofun
      | deactivated partition =>
        have d := s.deactivated partition
        exact .kept d.numbers.1 d.numbers.2
    | flushAll => exact numbers_flushAll s
    | _ => exact absurd hf nofun
  · obtain ⟨s₁, henter, hsteps⟩ := proceeds_after s operation
    refine henter.numbers.trans_same ?_
    generalize s.after [operation] = s' at hsteps
    induction hsteps with
    | refl => exact ⟨rfl, fun _ => rfl⟩
    | tail _ hstep ih => exact ih.trans (hstep.sameNumbers fun p hp => hf ⟨p, hp⟩)

theorem Numbered.after (h : s.Numbered) (operations : List Operation) :
    (s.after operations).Numbered :=
  run_invariant (fun operation _ s h => h.numbers (numbers_after s operation)) h

/-- The numbers that the calls of a run issue, in their order. -/
def issued (s : Storage σ) : List Operation → List Nat
  | [] => []
  | operation :: rest =>
    s.newNumbers (s.after [operation]) ++ (s.after [operation]).issued rest

/-- The numbers of a run are issued one by one. -/
theorem issued_eq (operations : List Operation) (s : Storage σ) :
    ∃ count, (s.after operations).nextGeneration = s.nextGeneration + count ∧
      s.issued operations = List.range' s.nextGeneration count := by
  induction operations generalizing s with
  | nil => exact ⟨0, rfl, rfl⟩
  | cons operation rest ih =>
    obtain ⟨count, hnext, hissued⟩ := ih (s.after [operation])
    rw [after_cons, issued, hnext, hissued]
    cases numbers_after s operation with
    | kept hn hg =>
      refine ⟨count, by rw [hn], ?_⟩
      rw [newNumbers_of_kept hg, hn, List.nil_append]
    | issued hn hc hg =>
      refine ⟨count + 1, by omega, ?_⟩
      rw [newNumbers_of_issued hc hg, hn, List.range'_succ]
      rfl

/-- At the start nothing is in memory, and the first number is 1. -/
theorem numbered_start {config : Config} {registry : Registry} {backing : σ}
    (hs : (start config registry backing).value = .ok s) :
    s.Numbered ∧ s.nextGeneration = 1 := by
  obtain ⟨-, table, -, rfl⟩ := start_eq_ok.mp hs
  refine ⟨⟨fun {partition _} hg => ?_, fun {partition _ _} hg => ?_⟩, rfl⟩
  · rw [generationOf?, chunk?, Std.ExtTreeMap.getElem?_empty] at hg
    cases hg
  · rw [generationOf?, chunk?, Std.ExtTreeMap.getElem?_empty] at hg
    cases hg

/-- How a partition that is not in memory comes by its number. It gets the next one, which is greater
than those issued earlier, by a load and by an empty activation alike; a load that fails takes
none. -/
structure Issues (s : Storage σ) (earlier : List Nat) : Prop where
  greater : ∀ n ∈ earlier, n < s.nextGeneration
  loaded : ∀ {partition s' c report}, s.chunk? partition = none →
    (s.load partition).value = (s', .ok (c, report)) →
      s'.generationOf? partition = some s.nextGeneration ∧
        s'.nextGeneration = s.nextGeneration + 1
  emptied : ∀ {partition}, s.chunk? partition = none →
    (s.activateEmpty partition).value.1.generationOf? partition = some s.nextGeneration ∧
      (s.activateEmpty partition).value.1.nextGeneration = s.nextGeneration + 1
  failed : ∀ {partition s' e}, (s.load partition).value = (s', .error e) → s' = s

theorem issues_of_lt {earlier : List Nat} (h : ∀ n ∈ earlier, n < s.nextGeneration) :
    s.Issues earlier where
  greater := h
  loaded {partition s' c report} hc hl := by
    cases fetched_of_load hl with
    | present hc' => cases hc.symm.trans hc'
    | read _ _ hb =>
      refine ⟨(generationOf?_putChunk ..).trans ?_, rfl⟩
      rw [if_pos rfl, hb.identity.2]
  emptied {partition} hc := by
    unfold activateEmpty
    rw [hc]
    exact ⟨(generationOf?_putChunk ..).trans (if_pos rfl), rfl⟩
  failed {partition s' e} hl := by
    rcases fetched_or_error s partition with ⟨_, _, _, hl', -⟩ | ⟨_, hl'⟩
    · cases hl.symm.trans hl'
    · exact (Prod.mk.inj (hl.symm.trans hl')).1

/-- Whatever is stored and whatever is called, a storage is well-formed, the chunks that have come in
have got the numbers 1, 2, 3 and so on, and so it goes on. -/
theorem wellFormed_after {config : Config} {registry : Registry} {backing : σ}
    (hs : (start config registry backing).value = .ok s) (operations : List Operation) :
    (s.after operations).WellFormed ∧
    s.issued operations ++ [(s.after operations).nextGeneration] =
      List.range' 1 (s.after operations).nextGeneration ∧
    (s.after operations).Issues (s.issued operations) := by
  obtain ⟨hnumbered, hone⟩ := numbered_start hs
  obtain ⟨count, hnext, hissued⟩ := issued_eq operations s
  rw [hone, Nat.add_comm] at hnext
  rw [hone] at hissued
  refine ⟨?_, ?_, issues_of_lt fun n hn => ?_⟩
  · exact (hnumbered.after operations).wellFormed ((sound_start hs).after operations)
  · rw [hissued, hnext, List.range'_concat, Nat.one_mul, Nat.add_comm 1 count]
  · rw [hissued, List.mem_range'_1, Nat.add_comm, ← hnext] at hn
    exact hn.2

theorem wellFormed_after_sampleRun :
    (start {} sampleRegistry (⟨{}, []⟩ : Refusing Memory)).value = .ok sampleStorage ∧
    (sampleStorage.after sampleRun).WellFormed ∧
    sampleStorage.issued sampleRun ++ [(sampleStorage.after sampleRun).nextGeneration] =
      List.range' 1 (sampleStorage.after sampleRun).nextGeneration ∧
    (sampleStorage.after sampleRun).Issues (sampleStorage.issued sampleRun) := by
  have hs : (start {} sampleRegistry (⟨{}, []⟩ : Refusing Memory)).value = .ok sampleStorage := rfl
  exact ⟨hs, wellFormed_after hs sampleRun⟩

end MachineVault.Storage
