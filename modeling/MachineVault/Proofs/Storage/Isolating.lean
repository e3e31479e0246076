import MachineVault.Proofs.Storage.Backstop
import MachineVault.Proofs.Storage.Retrieving
import Mathlib.Data.List.TakeWhile

/-! A flush of everything takes the partitions one by one, and none of them gets in the way of
another. What cannot be written stays in memory as it was, all the rest is stored, and the cache is
saved in any case. -/

namespace MachineVault

/-- Nothing of the chunk has to be stored. -/
def LoadedChunk.isVoid (c : LoadedChunk) : Bool := c.isEmpty && !c.persisted

namespace Storage

variable {σ : Type} {s s' s'' : Storage σ} {partition partition' : Partition} {c : LoadedChunk}

theorem notMem_before_turn (s : Storage σ) (partition : Partition) :
    partition ∉ s.loadedPartitions.takeWhile (· ≠ partition) := by
  intro hm
  have hne := List.mem_takeWhile_imp hm
  simp at hne

variable [Backing σ]

/-- Why a partition cannot be written to a backing: its chunk has no stored form, or the commit is
refused. -/
def refusal? (s : Storage σ) (backing : σ) (partition : Partition) : Option Error :=
  (s.chunk? partition).bind fun c =>
    if c.isVoid then none
    else
      match c.encode with
      | .error e => some (.format e)
      | .ok (index, data) =>
        match (Backing.commit backing partition
          [(s.config.indexTag, index), (s.config.dataTag, data)]).value.2 with
        | .error e => some e
        | .ok () => none

/-- The storage when, in a flush of everything, the turn of a partition comes. -/
def turn (s : Storage σ) (partition : Partition) : Storage σ :=
  (s.flushEach (s.loadedPartitions.takeWhile (· ≠ partition))).value.1

/-- Why a partition cannot be written when its turn comes. -/
def failure? (s : Storage σ) (partition : Partition) : Option Error :=
  s.refusal? (s.turn partition).backing partition

/-- A partition has been left alone, in memory and in the backing. -/
structure Untouched (s : Storage σ) (partition : Partition) (s' : Storage σ) : Prop where
  config : s'.config = s.config
  chunk : s'.chunk? partition = s.chunk? partition
  get : ∀ tag, Backing.get s'.backing partition tag = Backing.get s.backing partition tag

theorem Untouched.refl (s : Storage σ) (partition : Partition) : s.Untouched partition s :=
  ⟨rfl, rfl, fun _ => rfl⟩

theorem Untouched.trans (h : s.Untouched partition s') (h' : s'.Untouched partition s'') :
    s.Untouched partition s'' :=
  ⟨h'.config.trans h.config, h'.chunk.trans h.chunk, fun tag => (h'.get tag).trans (h.get tag)⟩

theorem Untouched.refusal?_eq (h : s.Untouched partition s') (backing : σ) :
    s'.refusal? backing partition = s.refusal? backing partition := by
  rw [Storage.refusal?, Storage.refusal?, h.chunk, h.config]

/-- The flush of a partition has been settled: it has left memory and is stored, or it has failed and
is as it was. -/
structure Settled (s : Storage σ) (partition : Partition) (failure? : Option Error)
    (s' : Storage σ) : Prop where
  config : s'.config = s.config
  chunk : s'.chunk? partition = if failure?.isSome then s.chunk? partition else none
  stored : ∀ {c}, s.chunk? partition = some c → c.isVoid = false → failure? = none →
    s'.Stored partition c
  /-- Where nothing is written, and under all tags but the two, the stored bytes stay. -/
  spared : ∀ {tag}, (∀ c, s.chunk? partition = some c → c.isVoid = true ∨ failure?.isSome) ∨
    (tag ≠ s.config.indexTag ∧ tag ≠ s.config.dataTag) →
      Backing.get s'.backing partition tag = Backing.get s.backing partition tag

/-- What is not in memory is settled as long as it is left alone. -/
theorem Untouched.settled (h : s.Untouched partition s') (hn : s.chunk? partition = none) :
    s.Settled partition none s' where
  config := h.config
  chunk := h.chunk.trans hn
  stored hc := by cases hn.symm.trans hc
  spared _ := h.get _

/-- What happens to other partitions before and after makes no difference. -/
theorem Settled.between {s₁ s₂ : Storage σ} {failure? : Option Error}
    (h : s₁.Settled partition failure? s₂) (hb : s.Untouched partition s₁)
    (ha : s₂.Untouched partition s') : s.Settled partition failure? s' where
  config := (ha.config.trans h.config).trans hb.config
  chunk := by rw [ha.chunk, h.chunk, hb.chunk]
  stored {c} hc hv hf := by
    obtain ⟨index, data, he, hi, hd⟩ := h.stored (hb.chunk.trans hc) hv hf
    rw [Stored, ha.config, ha.get, ha.get]
    exact ⟨index, data, he, hi, hd⟩
  spared {tag} hs := by
    rw [ha.get, h.spared, hb.get]
    rwa [hb.chunk, hb.config]

theorem value_deactivate_of_void (hc : s.chunk? partition = some c) (hv : c.isVoid = true) :
    ∃ report, (s.deactivate partition).value =
      ({ s with cache := refreshed s.cache c, chunks := s.chunks.erase partition },
        .ok (some report)) := by
  rw [LoadedChunk.isVoid] at hv
  unfold deactivate
  rw [hc]
  simp only [Logged.value_bind, hv, if_true]
  exact ⟨_, rfl⟩

theorem refusal?_of_void (hc : s.chunk? partition = some c) (hv : c.isVoid = true) (backing : σ) :
    s.refusal? backing partition = none := by
  rw [refusal?, hc, Option.bind_some, if_pos hv]

/-- Where something has to be written, a deactivation fails for what keeps it from being written. -/
theorem Deactivated.eq_error_iff {outcome : Except Error (Option FlushReport)} {e : Error}
    (d : s.Deactivated partition s' outcome)
    (hv : ∀ {c}, s.chunk? partition = some c → ¬ c.isVoid = true) :
    outcome = .error e ↔ s.refusal? s.backing partition = some e := by
  cases d with
  | unloaded hc =>
    rw [refusal?, hc]
    exact ⟨nofun, nofun⟩
  | dropped hc he hp => exact absurd (by rw [LoadedChunk.isVoid, he, hp]; rfl) (hv hc)
  | unencodable hc he =>
    rw [refusal?, hc, Option.bind_some, if_neg (hv hc), he, Except.error.injEq, Option.some.injEq]
  | refused hc he hb =>
    rw [refusal?, hc, Option.bind_some, if_neg (hv hc), he]
    dsimp only
    rw [hb, Except.error.injEq, Option.some.injEq]
  | committed hc he hb =>
    rw [refusal?, hc, Option.bind_some, if_neg (hv hc), he]
    dsimp only
    rw [hb]
    exact ⟨nofun, nofun⟩

/-- A deactivation fails for exactly what keeps the partition from being written. -/
theorem deactivate_eq_error_iff {e : Error} : (s.deactivate partition).value.2 = .error e ↔
    s.refusal? s.backing partition = some e := by
  by_cases hvoid : ∃ c, s.chunk? partition = some c ∧ c.isVoid = true
  · obtain ⟨c, hc, hv⟩ := hvoid
    obtain ⟨report, h⟩ := value_deactivate_of_void hc hv
    rw [h, refusal?_of_void hc hv]
    exact ⟨nofun, nofun⟩
  · exact (s.deactivated partition).eq_error_iff fun hc hv => hvoid ⟨_, hc, hv⟩

theorem refusal?_eq_none_of_ok {report : Option FlushReport}
    (h : (s.deactivate partition).value.2 = .ok report) :
    s.refusal? s.backing partition = none := by
  refine Option.eq_none_iff_forall_ne_some.mpr fun e he => ?_
  cases h.symm.trans (deactivate_eq_error_iff.mpr he)

/-- What is not in memory cannot fail. -/
theorem loaded_of_failure? (h : (s.failure? partition).isSome) :
    partition ∈ s.loadedPartitions := by
  rw [mem_loadedPartitions]
  by_contra hn
  rw [failure?, refusal?, Option.not_isSome_iff_eq_none.mp hn] at h
  cases h

/-- The turn of a partition comes when those before it have been flushed. -/
theorem turn_eq {before after : List Partition}
    (h : s.loadedPartitions = before ++ partition :: after) :
    s.turn partition = (s.flushEach before).value.1 ∧ partition ∉ after := by
  have hd := s.nodup_loadedPartitions
  rw [h, List.nodup_append, List.nodup_cons] at hd
  obtain ⟨-, ⟨hafter, -⟩, hapart⟩ := hd
  have htake : s.loadedPartitions.takeWhile (· ≠ partition) = before := by
    rw [h, List.takeWhile_append_of_pos, List.takeWhile_cons_of_neg, List.append_nil]
    · simp
    · intro other hm
      exact decide_eq_true (hapart other hm partition List.mem_cons_self)
  exact ⟨by rw [turn, htake], hafter⟩

/-- The commits of other partitions do not decide whether a partition can be written. -/
theorem failure?_eq_refusal? (h : Backing.Separate σ) (s : Storage σ) (partition : Partition) :
    s.failure? partition = s.refusal? s.backing partition := by
  have hcommit (entries : List (String × Bytes)) :
      (Backing.commit (s.turn partition).backing partition entries).value.2 =
        (Backing.commit s.backing partition entries).value.2 := by
    refine flushEach_invariant_of_mem (p := fun t =>
      (Backing.commit t.backing partition entries).value.2 =
        (Backing.commit s.backing partition entries).value.2) (fun hm d hkept => ?_) rfl
    refine Eq.trans ?_ hkept
    cases d with
    | unloaded | dropped | unencodable => rfl
    | refused _ _ hb | committed _ _ hb =>
      refine h.apart hb ?_ entries
      rintro rfl
      exact s.notMem_before_turn partition hm
  simp only [failure?, refusal?, hcommit]

/-- The errors of a flush are those of its partitions, in their order. -/
theorem errors_flushEach {failure? : Partition → Option Error} {partitions : List Partition}
    {s : Storage σ} (h : ∀ before partition after, partitions = before ++ partition :: after →
      ∀ e, ((s.flushEach before).value.1.deactivate partition).value.2 = .error e ↔
        failure? partition = some e) :
    (s.flushEach partitions).value.2 = partitions.filterMap failure? := by
  induction partitions generalizing s with
  | nil => rfl
  | cons partition rest ih =>
    have hrest := ih (s := (s.deactivate partition).value.1) fun before partition' after heq e => by
      have hlater := h (partition :: before) partition' after (congrArg (partition :: ·) heq) e
      rwa [value_flushEach_cons] at hlater
    have hfirst : ∀ e, (s.deactivate partition).value.2 = .error e ↔ failure? partition = some e :=
      h [] partition rest rfl
    rw [value_flushEach_cons, hrest]
    cases ho : (s.deactivate partition).value.2 with
    | error e => rw [List.filterMap_cons_some ((hfirst e).mp ho)]
    | ok report =>
      rw [List.filterMap_cons_none]
      refine Option.eq_none_iff_forall_ne_some.mpr fun e he => ?_
      cases ho.symm.trans ((hfirst e).mpr he)

variable [Backing.Atomic σ]

theorem Deactivated.untouched {outcome : Except Error (Option FlushReport)}
    (d : s.Deactivated partition s' outcome) (hne : partition' ≠ partition) :
    s.Untouched partition' s' where
  config := d.config
  chunk := d.chunk_of_ne hne
  get tag := by
    cases d with
    | unloaded | dropped | unencodable => rfl
    | refused _ _ hb => rw [Backing.Atomic.refused hb]
    | committed _ _ hb => exact (Backing.Atomic.committed hb partition' tag).trans (if_neg hne)

theorem untouched_flushEach {partitions : List Partition} (hn : partition ∉ partitions) :
    s.Untouched partition (s.flushEach partitions).value.1 := by
  refine flushEach_invariant_of_mem (p := s.Untouched partition) (fun hm d h => ?_) (.refl s partition)
  refine h.trans (d.untouched ?_)
  rintro rfl
  exact hn hm

/-- What fails is as it was. -/
theorem Deactivated.settled_of_error {e : Error} (d : s.Deactivated partition s' (.error e)) :
    s.Settled partition (some e) s' where
  config := d.config
  chunk := by
    cases d with
    | unencodable | refused => rfl
  stored _ _ := nofun
  spared {tag} _ := by
    cases d with
    | unencodable => rfl
    | refused _ _ hb => rw [Backing.Atomic.refused hb]

/-- What succeeds has left memory and is stored. -/
theorem settled_of_ok {report : Option FlushReport} (ht : s.config.indexTag ≠ s.config.dataTag)
    (h : (s.deactivate partition).value = (s', .ok report)) : s.Settled partition none s' := by
  have d := s.deactivated partition
  rw [h] at d
  refine ⟨d.config, d.chunk_of_ok, fun {c} hc hv _ => ?_, fun {tag} hs => ?_⟩
  · refine d.stored ht hc fun he => ?_
    simpa [LoadedChunk.isVoid, he] using hv
  · rcases hs with hvoid | ⟨hi, hd⟩
    · cases hc : s.chunk? partition with
      | none =>
        cases d with
        | unloaded => rfl
        | dropped hc' | committed hc' => cases hc.symm.trans hc'
      | some c =>
        have hv : c.isVoid = true := (hvoid c hc).resolve_right nofun
        obtain ⟨report', hvalue⟩ := value_deactivate_of_void hc hv
        obtain ⟨rfl, -⟩ := Prod.mk.inj (h.symm.trans hvalue)
        rfl
    · cases d with
      | unloaded | dropped => rfl
      | @committed _ index data _ _ _ _ hb =>
        have hother : tag ∉ [(s.config.indexTag, index), (s.config.dataTag, data)].map Prod.fst := by
          simp [hi, hd]
        rw [Backing.Atomic.committed hb, if_pos rfl, lastBytes?_eq_none hother]

/-- A deactivation settles its partition. -/
theorem settled_deactivate (ht : s.config.indexTag ≠ s.config.dataTag) (partition : Partition) :
    s.Settled partition (s.refusal? s.backing partition) (s.deactivate partition).value.1 := by
  cases h : (s.deactivate partition).value with
  | mk s' outcome =>
    have ho : (s.deactivate partition).value.2 = outcome := congrArg Prod.snd h
    cases outcome with
    | error e =>
      have d := s.deactivated partition
      rw [h] at d
      rw [deactivate_eq_error_iff.mp ho]
      exact d.settled_of_error
    | ok report =>
      rw [refusal?_eq_none_of_ok ho]
      exact settled_of_ok ht h

theorem untouched_turn (s : Storage σ) (partition : Partition) :
    s.Untouched partition (s.turn partition) :=
  untouched_flushEach (s.notMem_before_turn partition)

/-- Every partition is settled by the flush of everything as it is when its turn comes. -/
theorem settled_flushed (ht : s.config.indexTag ≠ s.config.dataTag) (partition : Partition) :
    s.Settled partition (s.failure? partition) s.flushed := by
  by_cases hm : partition ∈ s.loadedPartitions
  · obtain ⟨before, after, h⟩ := List.append_of_mem hm
    obtain ⟨hturn, hafter⟩ := turn_eq h
    have hb := s.untouched_turn partition
    have htags : (s.turn partition).config.indexTag ≠ (s.turn partition).config.dataTag := by
      rwa [hb.config]
    have hsettled := settled_deactivate htags partition
    rw [hb.refusal?_eq] at hsettled
    have hflushed : s.flushed =
        (((s.turn partition).deactivate partition).value.1.flushEach after).value.1 := by
      rw [flushed, h, flushEach_append, value_flushEach_cons, hturn]
    rw [hflushed]
    exact hsettled.between hb (untouched_flushEach hafter)
  · rw [Option.not_isSome_iff_eq_none.mp (mt loaded_of_failure? hm)]
    refine (untouched_flushEach hm).settled ?_
    rwa [mem_loadedPartitions, Option.not_isSome_iff_eq_none] at hm

theorem errors_flushed (s : Storage σ) :
    (s.flushEach s.loadedPartitions).value.2 = s.loadedPartitions.filterMap s.failure? := by
  refine errors_flushEach fun before partition after h e => ?_
  rw [← (turn_eq h).1, deactivate_eq_error_iff, (s.untouched_turn partition).refusal?_eq, failure?]

/-- Of several partitions in ascending order, the first that fails is the smallest. -/
theorem exists_smallest {failure? : Partition → Option Error} {partitions : List Partition}
    {e : Error} {errors : List Error} (ha : partitions.Pairwise fun a b => compare a b = .lt)
    (h : partitions.filterMap failure? = e :: errors) : ∃ partition, failure? partition = some e ∧
      ∀ other ∈ partitions, (failure? other).isSome → other = partition ∨
        compare partition other = .lt := by
  obtain ⟨before, partition, after, rfl, hbefore, hf, -⟩ := List.filterMap_eq_cons_iff.mp h
  refine ⟨partition, hf, fun other hm hs => ?_⟩
  rcases List.mem_append.mp hm with hm | hm
  · rw [hbefore other hm] at hs
    cases hs
  · rcases List.mem_cons.mp hm with rfl | hm
    · exact .inl rfl
    · exact .inr ((List.pairwise_cons.mp (List.pairwise_append.mp ha).2.1).1 other hm)

/-- How a flush of everything ends. Every partition is settled on its own, the cache that results is
saved, and the answer is the error of the smallest partition that has failed, if there is one. -/
structure Isolated (s s' : Storage σ) (outcome : Except Error Unit) : Prop where
  settled : ∀ partition, s.Settled partition (s.failure? partition) s'
  /-- Where commits of different partitions have nothing to do with each other, what fails is just
  what could not have been written at the call. -/
  alone : Backing.Separate σ → ∀ partition, s.failure? partition = s.refusal? s.backing partition
  tableSaved : s'.backing = (Backing.saveTable s.flushed.backing s'.cache.toTable).value.1
  first : (∃ partition, (s.failure? partition).isSome) → ∃ partition e,
    s.failure? partition = some e ∧ outcome = .error e ∧ ∀ other, (s.failure? other).isSome →
      other = partition ∨ compare partition other = .lt
  otherwise : (∀ partition, s.failure? partition = none) →
    outcome = (Backing.saveTable s.flushed.backing s'.cache.toTable).value.2

theorem isolated_flushAll {outcome : Except Error Unit}
    (ht : s.config.indexTag ≠ s.config.dataTag) (h : s.flushAll.value = (s', outcome)) :
    s.Isolated s' outcome := by
  rw [value_flushAll, errors_flushed, value_saveCache] at h
  obtain ⟨rfl, ho⟩ := Prod.mk.inj h
  refine ⟨fun partition => ?_, fun hsep => failure?_eq_refusal? hsep s, rfl, fun hx => ?_,
    fun hn => ?_⟩
  · refine (settled_flushed ht partition).between (.refl s partition) ⟨rfl, rfl, fun tag => ?_⟩
    rw [Backing.Atomic.saved]
  · obtain ⟨partition, hs⟩ := hx
    obtain ⟨e, he⟩ := Option.isSome_iff_exists.mp hs
    cases herrors : s.loadedPartitions.filterMap s.failure? with
    | nil =>
      have hnone := List.filterMap_eq_nil_iff.mp herrors partition (loaded_of_failure? hs)
      cases hnone.symm.trans he
    | cons first errors =>
      rw [herrors] at ho
      obtain ⟨smallest, hf, hleast⟩ := exists_smallest Std.ExtTreeMap.ordered_keys herrors
      exact ⟨smallest, first, hf, ho.symm, fun other hs =>
        hleast other (loaded_of_failure? hs) hs⟩
  · rw [List.filterMap_eq_nil_iff.mpr fun partition _ => hn partition] at ho
    exact ho.symm

/-- Whatever is stored and whatever has been called, a flush of everything is not held up by the
partitions that cannot be written. -/
theorem isolated_of_flushAll {config : Config} {registry : Registry} {backing : σ} {s₀ : Storage σ}
    (hs : (start config registry backing).value = .ok s₀) {operations : List Operation}
    {outcome : Except Error Unit} (h : (s₀.after operations).flushAll.value = (s', outcome)) :
    (s₀.after operations).Isolated s' outcome := by
  obtain ⟨hv, hconfig, -⟩ := settings_after hs operations
  refine isolated_flushAll ?_ h
  rw [hconfig]
  exact tags_of_validate hv

/-- A storage over empty memory in which the partition of the near block cannot be written. -/
def barredStorage : Storage (Barring Memory) where
  config := {}
  registry := sampleRegistry
  backing := ⟨{}, fun partition =>
    if partition = nearBlock.partition then some (.persistence (.outage .commit)) else none⟩
  cache := .empty

/-- A machine in each of two partitions. -/
def farApart : List Operation :=
  [.save nearBlock.corner sampleMachine, .save farBlock.corner otherMachine]

theorem isolated_barredStorage : ∃ s' outcome,
    (barredStorage.after farApart).flushAll.value = (s', outcome) ∧
    (barredStorage.after farApart).Isolated s' outcome ∧
    (barredStorage.after farApart).failure? nearBlock.partition =
      some (.persistence (.outage .commit)) ∧
    s'.chunk? nearBlock.partition = (barredStorage.after farApart).chunk? nearBlock.partition ∧
    ∃ c, (barredStorage.after farApart).chunk? farBlock.partition = some c ∧
      s'.Stored farBlock.partition c ∧ s'.chunk? farBlock.partition = none := by
  have hs : (start {} sampleRegistry barredStorage.backing).value = .ok barredStorage := rfl
  cases h : (barredStorage.after farApart).flushAll.value with
  | mk s' outcome =>
  have hi := isolated_of_flushAll hs h
  have hnear : (barredStorage.after farApart).failure? nearBlock.partition =
      some (.persistence (.outage .commit)) := by
    rw [hi.alone inferInstance]
    decide +kernel
  have hfar : (barredStorage.after farApart).failure? farBlock.partition = none := by
    rw [hi.alone inferInstance]
    decide +kernel
  have hheld : ((barredStorage.after farApart).chunk? farBlock.partition).map LoadedChunk.isVoid =
      some false := by decide +kernel
  obtain ⟨c, hc, hv⟩ := Option.map_eq_some_iff.mp hheld
  have hkept := (hi.settled nearBlock.partition).chunk
  have hgone := (hi.settled farBlock.partition).chunk
  rw [hnear] at hkept
  rw [hfar] at hgone
  exact ⟨s', outcome, rfl, hi, hnear, hkept, c, hc,
    (hi.settled farBlock.partition).stored hc hv hfar, hgone⟩

end Storage

end MachineVault
