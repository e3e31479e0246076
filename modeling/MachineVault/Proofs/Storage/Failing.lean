import MachineVault.Proofs.Storage.Guarding
import MachineVault.Proofs.Storage.Refreshing
import MachineVault.Proofs.Storage.Succession

/-! What a call that fails leaves. One that writes nothing out leaves the storage exactly as it was.
A deactivation that fails has refreshed the cache by the machines of its partition, and that is
all. -/

namespace MachineVault

namespace Backing

/-- A commit that is refused leaves all that can be read. -/
class AllOrNothing (σ : Type) [Backing σ] : Prop where
  refused : ∀ {b b' : σ} {partition : Partition} {entries : List (String × Bytes)} {e : Error},
    (commit b partition entries).value = (b', .error e) → get b' = get b ∧ loadTable b' = loadTable b

instance : AllOrNothing Memory where
  refused h := nomatch h

instance {σ : Type} [Backing σ] [AllOrNothing σ] : AllOrNothing (Refusing σ) where
  refused {b b' partition entries e} h := by
    rcases b.commit_cases partition entries with ⟨e', hv⟩ | hv
    · cases h.symm.trans hv
      exact ⟨rfl, rfl⟩
    · obtain ⟨rfl, ho⟩ := Prod.mk.inj (h.symm.trans hv)
      exact AllOrNothing.refused (b := b.inner) (Prod.ext rfl ho.symm)

end Backing

/-- A call that hands something to the backing. -/
def Operation.writesOut : Operation → Bool
  | deactivate _ | handle (.deactivated _) | flushAll | saveCache => true
  | _ => false

namespace Storage

variable {σ : Type}

/-- An answer is an error only where the outcome is. -/
theorem failed_of_answering {α : Type} {call : Logged (Storage σ × Except Error α)}
    {answer : Except Error α → Answer} {s' : Storage σ} {a : Answer} {e : Error}
    (ha : ∀ x, (answer (.ok x)).error? = none) (h : (answering answer call).value = (s', a))
    (he : a.error? = some e) : ∃ e', call.value = (s', .error e') := by
  rw [answering, Logged.value_map] at h
  obtain ⟨rfl, rfl⟩ := Prod.mk.inj h
  cases ho : call.value.2 with
  | ok x =>
    rw [ho, ha] at he
    cases he
  | error e' => exact ⟨e', Prod.ext rfl ho⟩

variable [Backing σ] {s s' : Storage σ} {partition : Partition}

/-- A call for a chunk fails only with its load, if nothing that is done with the chunk fails. -/
theorem same_of_withChunk {α : Type} {e : Error}
    {next : Storage σ → LoadedChunk → Logged (Storage σ × Except Error α)}
    (hnext : ∀ {s₁ c}, s.Fetched partition s₁ c → (next s₁ c).value.2.isOk = true)
    (h : (s.withChunk partition next).value = (s', .error e)) : s' = s := by
  rcases fetched_or_error s partition with ⟨s₁, c, report, hl, hf⟩ | ⟨e', hl⟩
  · have hok := hnext hf
    rw [← value_withChunk hl next, h] at hok
    cases hok
  · rw [value_withChunk_of_error hl] at h
    exact (Prod.mk.inj h).1.symm

theorem same_of_activate {e : Error} (h : (s.activate partition).value = (s', .error e)) :
    s' = s := by
  rw [activate, Logged.value_bind] at h
  rcases fetched_or_error s partition with ⟨s₁, c, report, hl, -⟩ | ⟨e', hl⟩
  · rw [hl] at h
    cases h
  · rw [hl] at h
    exact (Prod.mk.inj h).1.symm

theorem same_of_getById {id : MachineId} {e : Error}
    (h : (s.getById id).value = (s', .error e)) : s' = s := by
  unfold getById at h
  split at h
  · cases h
  · refine same_of_withChunk (fun {s₁ c} _ => ?_) h
    split
    · rfl
    · split <;> rfl

/-- A chunk that lies in its partition takes every machine that can be saved there. -/
theorem same_of_save (hs : s.Housed) {location : Location} {m : Machine} {e : Error}
    (h : (s.save location m).value = (s', .error e)) : s' = s := by
  cases hcheck : checkSaveable location.block m with
  | error e' =>
    rw [value_save_of_refused hcheck] at h
    exact (Prod.mk.inj h).1.symm
  | ok u =>
    obtain ⟨next, hsave, hnext⟩ := value_save (s := s) hcheck
    rw [hsave] at h
    refine same_of_withChunk (fun {s₁ c} hf => ?_) h
    have hserves : c.partition = location.block.partition :=
      (hs.succeeds hf.succeeds _ _ hf.chunk).serves
    have hp : c.partition.contains location.block = true := decide_eq_true hserves.symm
    rw [hnext, if_pos hp]
    rfl

/-- A call that writes nothing out and fails has changed nothing. -/
theorem same_of_error (hs : s.Housed) {operation : Operation} {answer : Answer} {e : Error}
    (hw : operation.writesOut = false) (hp : (s.perform operation).value = (s', answer))
    (he : answer.error? = some e) : s' = s := by
  cases operation with
  | get | edit | machinesOf =>
    obtain ⟨e', h⟩ := failed_of_answering (fun _ => rfl) hp he
    exact same_of_withChunk (fun _ => rfl) h
  | remove =>
    obtain ⟨e', h⟩ := failed_of_answering (fun _ => rfl) hp he
    refine same_of_withChunk (fun _ => ?_) h
    dsimp only
    split
    · split
      · split <;> rfl
      · rfl
    · rfl
  | getById id =>
    obtain ⟨e', h⟩ := failed_of_answering (fun _ => rfl) hp he
    exact same_of_getById h
  | save location m =>
    obtain ⟨e', h⟩ := failed_of_answering (fun _ => rfl) hp he
    exact same_of_save hs h
  | activate partition =>
    obtain ⟨e', h⟩ := failed_of_answering (fun _ => rfl) hp he
    exact same_of_activate h
  | handle notice =>
    cases notice with
    | activated partition =>
      obtain ⟨e', h⟩ := failed_of_answering (fun _ => rfl) hp he
      rw [handle, Logged.value_bind] at h
      cases ha : (s.activate partition).value with
      | mk s₁ outcome =>
      rw [ha] at h
      cases outcome with
      | error e'' =>
        obtain ⟨rfl, -⟩ := Prod.mk.inj h
        exact same_of_activate ha
      | ok report => cases h
    | deactivated => cases hw
  | deactivate | flushAll | saveCache => cases hw
  | activateEmpty | locationOf | idOf | contains | keys | isLoaded | loadedPartitions | generationOf
  | chunkOf =>
    cases hp
    cases he

/-- All that has changed is the cache, and there at most the entries of what a chunk holds and of
what was cached on its blocks. -/
structure OnlyRefreshed (s : Storage σ) (c : LoadedChunk) (s' : Storage σ) : Prop where
  settings : s.SameSettings s'
  chunks : s'.chunks = s.chunks
  nextGeneration : s'.nextGeneration = s.nextGeneration
  stored : Backing.get s'.backing = Backing.get s.backing
  table : Backing.loadTable s'.backing = Backing.loadTable s.backing
  cache : s'.cache = refreshed s.cache c
  elsewhere : ∀ {id block}, block.partition ≠ c.partition →
    (s'.locationOf? id = some block ↔ s.locationOf? id = some block)
  placed : ∀ {id block}, s'.locationOf? id = some block → s.locationOf? id = some block ∨
    c.Carries id block
  kept : ∀ {id block}, s.locationOf? id = some block → (∀ block', ¬ c.Carries id block') →
    (∀ id', ¬ c.Carries id' block) → s'.locationOf? id = some block

theorem onlyRefreshed_of_cache {c : LoadedChunk} (hc : c.LiesIn partition)
    (hset : s.SameSettings s') (hchunks : s'.chunks = s.chunks)
    (hnext : s'.nextGeneration = s.nextGeneration)
    (hget : Backing.get s'.backing = Backing.get s.backing)
    (htable : Backing.loadTable s'.backing = Backing.loadTable s.backing)
    (hcache : s'.cache = refreshed s.cache c) : s.OnlyRefreshed c s' := by
  have hlocation (id : MachineId) :
      s'.locationOf? id = (refreshEach s.cache (holdings c)).locationOf? id := by
    rw [locationOf?, hcache, refreshed_eq]
  have hcarries {e : MachineId × Block} : e ∈ holdings c → c.Carries e.1 e.2 :=
    LoadedChunk.mem_holdings.mp
  have hinside {id : MachineId} {block : Block} (h : c.Carries id block) :
      block.partition = c.partition := by
    obtain ⟨slot, hslot, -⟩ := h
    exact (hc.inside hslot).trans hc.serves.symm
  have hplaced {id : MachineId} {block : Block} (h : s'.locationOf? id = some block) :
      s.locationOf? id = some block ∨ c.Carries id block := by
    rw [hlocation] at h
    exact (cached_of_refreshEach h).imp_right hcarries
  refine ⟨hset, hchunks, hnext, hget, htable, hcache, ?_, hplaced, ?_⟩
  · intro id block hne
    constructor
    · exact fun h => (hplaced h).resolve_right fun hcarried => hne (hinside hcarried)
    · intro h
      rw [hlocation]
      exact refreshEach_elsewhere (fun e he => hinside (hcarries he)) hne h
  · intro id block h hn hfree
    rw [hlocation]
    refine refreshEach_keeps (fun e he hi => ?_) (fun e he hb => ?_) h
    · exact absurd (hi ▸ hcarries he) (hn e.2)
    · exact absurd (hb ▸ hcarries he) (hfree e.1)

/-- A deactivation that fails leaves what is stored and what is in memory. -/
theorem onlyRefreshed_of_deactivate [Backing.AllOrNothing σ] (hs : s.Housed) {e : Error}
    (h : (s.deactivate partition).value = (s', .error e)) :
    ∃ c, s.chunk? partition = some c ∧ s.OnlyRefreshed c s' := by
  have d := s.deactivated partition
  rw [h] at d
  cases d with
  | unencodable hc =>
    exact ⟨_, hc, onlyRefreshed_of_cache (hs _ _ hc) ⟨rfl, rfl⟩ rfl rfl rfl rfl rfl⟩
  | refused hc _ hb =>
    obtain ⟨hget, htable⟩ := Backing.AllOrNothing.refused hb
    exact ⟨_, hc, onlyRefreshed_of_cache (hs _ _ hc) ⟨rfl, rfl⟩ rfl rfl hget htable rfl⟩

/-- Whatever is stored and whatever was called before, a call that fails and writes nothing out has
changed nothing, and a deactivation that fails has changed nothing but the entries of its own
partition. -/
theorem unharmed_of_error [Backing.AllOrNothing σ] {config : Config} {registry : Registry}
    {backing : σ} {operations : List Operation} {operation : Operation} {answer : Answer} {e : Error}
    (hs : (start config registry backing).value = .ok s)
    (hp : ((s.after operations).perform operation).value = (s', answer))
    (he : answer.error? = some e) :
    (operation.writesOut = false → s' = s.after operations) ∧
    ∀ partition, operation = .deactivate partition ∨ operation = .handle (.deactivated partition) →
      ∃ c, (s.after operations).chunk? partition = some c ∧
        (s.after operations).OnlyRefreshed c s' := by
  have hhoused := (housed_start hs).after operations
  refine ⟨fun hw => same_of_error hhoused hw hp he, fun partition ho => ?_⟩
  rcases ho with rfl | rfl
  · obtain ⟨e', h⟩ := failed_of_answering (fun _ => rfl) hp he
    exact onlyRefreshed_of_deactivate hhoused h
  · obtain ⟨e', h⟩ := failed_of_answering (fun _ => rfl) hp he
    rw [handle, Logged.value_bind] at h
    cases hd : ((s.after operations).deactivate partition).value with
    | mk s₁ outcome =>
    rw [hd] at h
    cases outcome with
    | error e'' =>
      obtain ⟨rfl, -⟩ := Prod.mk.inj h
      exact onlyRefreshed_of_deactivate hhoused hd
    | ok report => cases h

/-- Memory in which the first commit is refused. -/
def balkingBacking : Refusing Memory := ⟨{}, [some (.persistence (.outage .commit))]⟩

theorem unharmed_over_balkingBacking : ∃ s' answer e,
    (((startedOver balkingBacking).after [.save sampleMachine.location.corner sampleMachine]).perform
      (.deactivate sampleMachine.location.partition)).value = (s', answer) ∧
    answer.error? = some e ∧ ∃ c,
      ((startedOver balkingBacking).after
        [.save sampleMachine.location.corner sampleMachine]).chunk?
          sampleMachine.location.partition = some c ∧
      ((startedOver balkingBacking).after
        [.save sampleMachine.location.corner sampleMachine]).OnlyRefreshed c s' := by
  have he : (((startedOver balkingBacking).after
      [.save sampleMachine.location.corner sampleMachine]).perform
        (.deactivate sampleMachine.location.partition)).value.2.error?.isSome = true := by
    decide +kernel
  obtain ⟨e, he⟩ := Option.isSome_iff_exists.mp he
  have hall := unharmed_of_error (start_startedOver balkingBacking) rfl he
  exact ⟨_, _, e, rfl, he, hall.2 _ (.inl rfl)⟩

end Storage

end MachineVault
