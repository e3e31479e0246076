import MachineVault.Proofs.Storage.Holds
import MachineVault.Storage.Flushing

/-! What flushing does. A deactivation ends in one of five ways, and in none of them does the storage
hold another slot than before. -/

namespace MachineVault.Storage

variable {σ : Type}

/-- The cache once a chunk has been compared with it. -/
def refreshed (cache : IdentifierCache) (c : LoadedChunk) : IdentifierCache :=
  ((holdings c).foldlM refresh cache).value

theorem chunk?_erase (s : Storage σ) (partition partition' : Partition) :
    (s.chunks.erase partition)[partition']? =
      if partition' = partition then none else s.chunk? partition' :=
  getElem?_erase s.chunks partition partition'

variable {s s' : Storage σ} {held : Block → Option Slot} {partition : Partition}

theorem mem_loadedPartitions : partition ∈ s.loadedPartitions ↔ (s.chunk? partition).isSome := by
  rw [loadedPartitions, Std.ExtTreeMap.mem_keys, Std.ExtTreeMap.mem_iff_isSome_getElem?, chunk?]

variable [Backing σ]

/-- The ways in which a deactivation ends. -/
inductive Deactivated (s : Storage σ) (partition : Partition) :
    Storage σ → Except Error (Option FlushReport) → Prop
  | unloaded (hc : s.chunk? partition = none) : Deactivated s partition s (.ok none)
  | dropped {c : LoadedChunk} {report : FlushReport} (hc : s.chunk? partition = some c)
      (he : c.isEmpty = true) (hp : c.persisted = false) : Deactivated s partition
        { s with cache := refreshed s.cache c, chunks := s.chunks.erase partition }
        (.ok (some report))
  | unencodable {c : LoadedChunk} {e : FormatError} (hc : s.chunk? partition = some c)
      (he : c.encode = .error e) : Deactivated s partition
        { s with cache := refreshed s.cache c } (.error (.format e))
  | refused {c : LoadedChunk} {index data : Bytes} {backing : σ} {e : Error}
      (hc : s.chunk? partition = some c) (he : c.encode = .ok (index, data))
      (hb : (Backing.commit s.backing partition
        [(s.config.indexTag, index), (s.config.dataTag, data)]).value = (backing, .error e)) :
      Deactivated s partition { s with cache := refreshed s.cache c, backing } (.error e)
  | committed {c : LoadedChunk} {index data : Bytes} {backing : σ} {report : FlushReport}
      (hc : s.chunk? partition = some c) (he : c.encode = .ok (index, data))
      (hb : (Backing.commit s.backing partition
        [(s.config.indexTag, index), (s.config.dataTag, data)]).value = (backing, .ok ())) :
      Deactivated s partition
        { s with cache := refreshed s.cache c, backing, chunks := s.chunks.erase partition }
        (.ok (some report))

theorem deactivated (s : Storage σ) (partition : Partition) :
    s.Deactivated partition (s.deactivate partition).value.1 (s.deactivate partition).value.2 := by
  unfold deactivate
  cases hc : s.chunk? partition with
  | none => exact .unloaded hc
  | some c =>
    simp only [Logged.value_bind]
    split
    · rename_i he
      obtain ⟨he, hp⟩ := (Bool.and_eq_true _ _).mp he
      exact .dropped hc he (by simpa using hp)
    · cases he : c.encode with
      | error e => exact .unencodable hc he
      | ok bytes =>
        obtain ⟨index, data⟩ := bytes
        unfold commit
        simp only [Logged.value_bind]
        cases hb : (Backing.commit s.backing partition
            [(s.config.indexTag, index), (s.config.dataTag, data)]).value with
        | mk backing outcome =>
          cases outcome with
          | error e => exact .refused hc he hb
          | ok u => exact .committed hc he hb

/-- What supersedes stored bytes is never flushed without a commit. -/
theorem committed_of_deactivate {c : LoadedChunk} {report : FlushReport}
    (hc : s.chunk? partition = some c) (hp : c.persisted = true)
    (h : (s.deactivate partition).value = (s', .ok (some report))) : report.committed = true := by
  unfold deactivate at h
  rw [hc] at h
  simp only [Logged.value_bind, hp, Bool.not_true, Bool.and_false, Bool.false_eq_true,
    if_false] at h
  cases he : c.encode with
  | error e =>
    rw [he] at h
    cases h
  | ok bytes =>
    rw [he] at h
    unfold commit at h
    simp only [Logged.value_bind] at h
    split at h
    · cases h
    · cases h
      rfl

/-- A partition may leave memory once what is stored for it is what it holds. -/
theorem Holds.release (h : s.Holds held) (hconf : s'.config = s.config)
    (hchunk : ∀ partition', s'.chunk? partition' =
      if partition' = partition then none else s.chunk? partition')
    (hget : ∀ partition' tag, partition' ≠ partition →
      Backing.get s'.backing partition' tag = Backing.get s.backing partition' tag)
    (hp : s'.Unstored partition ∧ (∀ block, block.partition = partition → held block = none) ∨
      ∃ c : LoadedChunk, c.Shows partition held ∧ s'.Stored partition c) : s'.Holds held where
  tags := by
    rw [hconf]
    exact h.tags
  loaded {partition' c} hc := by
    rw [hchunk] at hc
    split at hc
    · cases hc
    · exact h.loaded hc
  unstored {partition' c} hc hpers := by
    rw [hchunk] at hc
    split at hc
    · cases hc
    · rename_i hne
      rw [Unstored, hget _ _ hne, hget _ _ hne, hconf]
      exact h.unstored hc hpers
  unloaded {partition'} hc := by
    rw [hchunk] at hc
    split at hc
    · rename_i heq
      rw [heq]
      exact hp
    · rename_i hne
      simp only [Unstored, Stored, hget _ _ hne, hconf]
      exact h.unloaded hc
  genuine := h.genuine

namespace Deactivated

variable {outcome : Except Error (Option FlushReport)}

theorem config (d : s.Deactivated partition s' outcome) : s'.config = s.config := by
  cases d <;> rfl

theorem registry (d : s.Deactivated partition s' outcome) : s'.registry = s.registry := by
  cases d <;> rfl

theorem chunk_of_ne {partition' : Partition} (d : s.Deactivated partition s' outcome)
    (h : partition' ≠ partition) : s'.chunk? partition' = s.chunk? partition' := by
  cases d with
  | unloaded | unencodable | refused => rfl
  | dropped | committed => exact (chunk?_erase ..).trans (if_neg h)

/-- What was not in memory stays out of it. -/
theorem chunk_eq_none {partition' : Partition} (d : s.Deactivated partition s' outcome)
    (h : s.chunk? partition' = none) : s'.chunk? partition' = none := by
  cases d with
  | unloaded | unencodable | refused => exact h
  | dropped | committed =>
    refine (chunk?_erase ..).trans ?_
    split
    · rfl
    · exact h

/-- What stays in memory stays as it is. -/
theorem chunk_eq_some {partition' : Partition} {c : LoadedChunk}
    (d : s.Deactivated partition s' outcome) (h : s'.chunk? partition' = some c) :
    s.chunk? partition' = some c := by
  cases d with
  | unloaded | unencodable | refused => exact h
  | dropped | committed =>
    rw [chunk?, chunk?_erase] at h
    split at h
    · cases h
    · exact h

theorem chunk_of_ok {report : Option FlushReport} (d : s.Deactivated partition s' (.ok report)) :
    s'.chunk? partition = none := by
  cases d with
  | unloaded hc => exact hc
  | dropped | committed => exact (chunk?_erase ..).trans (if_pos rfl)

/-- The cache has been refreshed by the chunk, if there was one. -/
theorem cache (d : s.Deactivated partition s' outcome) :
    s.chunk? partition = none ∧ s'.cache = s.cache ∨
      ∃ c, s.chunk? partition = some c ∧ s'.cache = refreshed s.cache c := by
  cases d with
  | unloaded hc => exact .inl ⟨hc, rfl⟩
  | dropped hc | unencodable hc | refused hc | committed hc => exact .inr ⟨_, hc, rfl⟩

theorem holds [Backing.Atomic σ] (d : s.Deactivated partition s' outcome) (h : s.Holds held) :
    s'.Holds held := by
  cases d with
  | unloaded => exact h
  | unencodable => exact h.congr ⟨rfl, rfl⟩ rfl fun _ => rfl
  | refused hc he hb => exact h.congr ⟨rfl, rfl⟩ (Backing.Atomic.refused hb) fun _ => rfl
  | dropped hc he hp =>
    refine h.release rfl (chunk?_erase s partition) (fun _ _ _ => rfl) (.inl ⟨?_, ?_⟩)
    · exact h.unstored hc hp
    · intro block hb
      rw [← (h.loaded hc).slot_of_mem hb]
      exact LoadedChunk.isEmpty_iff.mp he block
  | committed hc he hb =>
    have hget := Backing.Atomic.committed hb
    refine h.release rfl (chunk?_erase s partition)
      (fun partition' tag hne => (hget partition' tag).trans (if_neg hne))
      (.inr ⟨_, h.loaded hc, _, _, he, ?_, ?_⟩)
    · refine (hget partition _).trans ?_
      rw [if_pos rfl, (lastBytes?_pair h.tags).1]
    · refine (hget partition _).trans ?_
      rw [if_pos rfl, (lastBytes?_pair h.tags).2]

/-- What commits keep of a backing is kept. -/
theorem backing_invariant {p : σ → Prop}
    (hcommit : ∀ {b b' partition entries outcome},
      (Backing.commit b partition entries).value = (b', outcome) → p b → p b')
    (d : s.Deactivated partition s' outcome) (h : p s.backing) : p s'.backing := by
  cases d with
  | unloaded | dropped | unencodable => exact h
  | refused hc he hb | committed hc he hb => exact hcommit hb h

end Deactivated

/-- The errors that are collected, the one of the first partition in front. -/
theorem value_flushEach_cons (s : Storage σ) (partition : Partition) (rest : List Partition) :
    (s.flushEach (partition :: rest)).value =
      (((s.deactivate partition).value.1.flushEach rest).value.1,
        match (s.deactivate partition).value.2 with
        | .error e => e :: ((s.deactivate partition).value.1.flushEach rest).value.2
        | .ok _ => ((s.deactivate partition).value.1.flushEach rest).value.2) := by
  simp only [flushEach, Logged.value_bind]
  cases (s.deactivate partition).value.2 with
  | error e => rfl
  | ok report => rfl

theorem flushEach_append (s : Storage σ) (before after : List Partition) :
    (s.flushEach (before ++ after)).value.1 =
      ((s.flushEach before).value.1.flushEach after).value.1 := by
  induction before generalizing s with
  | nil => rfl
  | cons partition rest ih =>
    rw [List.cons_append, value_flushEach_cons, value_flushEach_cons]
    exact ih _

/-- What the deactivations of several partitions keep is kept when these are flushed. -/
theorem flushEach_invariant_of_mem {p : Storage σ → Prop} {partitions : List Partition}
    {s : Storage σ} (step : ∀ {s s' : Storage σ} {partition : Partition} {outcome},
      partition ∈ partitions → s.Deactivated partition s' outcome → p s → p s') (h : p s) :
    p (s.flushEach partitions).value.1 := by
  induction partitions generalizing s with
  | nil => exact h
  | cons partition rest ih =>
    rw [value_flushEach_cons]
    exact ih (fun hm => step (List.mem_cons_of_mem _ hm))
      (step List.mem_cons_self (s.deactivated partition) h)

/-- What every deactivation keeps is kept when several partitions are flushed. -/
theorem flushEach_invariant {p : Storage σ → Prop}
    (step : ∀ {s s' : Storage σ} {partition : Partition} {outcome},
      s.Deactivated partition s' outcome → p s → p s') (partitions : List Partition)
    (s : Storage σ) (h : p s) : p (s.flushEach partitions).value.1 :=
  flushEach_invariant_of_mem (fun _ => step) h

/-- The errors that come of flushing several partitions come of deactivations. -/
theorem error_of_flushEach {p : Storage σ → Prop} {q : Error → Prop}
    (step : ∀ {s s' : Storage σ} {partition : Partition} {outcome},
      s.Deactivated partition s' outcome → p s → p s')
    (herror : ∀ {s s' : Storage σ} {partition : Partition} {e},
      s.Deactivated partition s' (.error e) → p s → q e) (partitions : List Partition)
    (s : Storage σ) (h : p s) : ∀ e ∈ (s.flushEach partitions).value.2, q e := by
  induction partitions generalizing s with
  | nil =>
    intro e he
    cases he
  | cons partition rest ih =>
    have d := s.deactivated partition
    have hrest := ih _ (step d h)
    rw [value_flushEach_cons]
    cases ho : (s.deactivate partition).value.2 with
    | ok report => exact hrest
    | error e =>
      rw [ho] at d
      exact List.forall_mem_cons.mpr ⟨herror d h, hrest⟩

/-- Without an error, all partitions have left memory. -/
theorem chunk_eq_none_of_flushEach (partitions : List Partition) (s : Storage σ)
    (h : (s.flushEach partitions).value.2 = []) :
    ∀ partition ∈ partitions, (s.flushEach partitions).value.1.chunk? partition = none := by
  induction partitions generalizing s with
  | nil =>
    intro partition hm
    cases hm
  | cons partition rest ih =>
    intro partition' hm
    rw [value_flushEach_cons] at h ⊢
    have hd := s.deactivated partition
    dsimp only at h ⊢
    cases ho : (s.deactivate partition).value.2 with
    | error e =>
      rw [ho] at h
      cases h
    | ok report =>
      rw [ho] at h hd
      rcases List.mem_cons.mp hm with rfl | hm
      · exact flushEach_invariant (fun d => d.chunk_eq_none) rest _ hd.chunk_of_ok
      · exact ih _ h partition' hm

theorem value_saveCache (s : Storage σ) : s.saveCache.value =
    ({ s with backing := (Backing.saveTable s.backing s.cache.toTable).value.1 },
      (Backing.saveTable s.backing s.cache.toTable).value.2) := rfl

theorem Holds.saveCache [Backing.Atomic σ] (h : s.Holds held) : s.saveCache.value.1.Holds held :=
  h.congr ⟨rfl, rfl⟩ (Backing.Atomic.saved s.backing s.cache.toTable) fun _ => rfl

/-- The storage in which all that was loaded has been flushed, and the cache not yet saved. -/
def flushed (s : Storage σ) : Storage σ := (s.flushEach s.loadedPartitions).value.1

theorem value_flushAll (s : Storage σ) : s.flushAll.value = (s.flushed.saveCache.value.1,
    match (s.flushEach s.loadedPartitions).value.2 with
    | [] => s.flushed.saveCache.value.2
    | e :: _ => .error e) := by
  rw [flushed]
  simp only [flushAll, Logged.value_bind]
  cases (s.flushEach s.loadedPartitions).value.2 with
  | nil => rfl
  | cons e rest => rfl

/-- A flush of everything that succeeds leaves nothing in memory and has saved the cache. -/
theorem flushAll_ok (h : s.flushAll.value = (s', .ok ())) :
    (∀ partition, s.flushed.chunk? partition = none) ∧ s.flushed.saveCache.value = (s', .ok ()) := by
  rw [value_flushAll] at h
  obtain ⟨rfl, ho⟩ := Prod.mk.inj h
  split at ho
  · rename_i he
    refine ⟨fun partition => ?_, Prod.ext rfl ho⟩
    by_cases hp : partition ∈ s.loadedPartitions
    · exact chunk_eq_none_of_flushEach _ s he partition hp
    · rw [mem_loadedPartitions, Option.not_isSome_iff_eq_none] at hp
      exact flushEach_invariant (fun d => d.chunk_eq_none) _ s hp
  · cases ho

end MachineVault.Storage
