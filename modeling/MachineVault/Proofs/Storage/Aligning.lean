import MachineVault.Proofs.Storage.Backstop
import MachineVault.Proofs.Storage.Refreshing

/-! What a flush makes of any identifier cache, where the chunk holds no machine twice. Each machine
of the chunk ends up on its own block, unless the cache places it in another partition, and only what
stands in the way of that is forgotten. -/

namespace MachineVault.Storage

variable {σ : Type}

/-- A cache has been brought in line with the chunk of a partition. -/
structure Aligned (cache : IdentifierCache) (partition : Partition) (c : LoadedChunk)
    (cache' : IdentifierCache) : Prop where
  elsewhere : ∀ {id block block'}, c.Carries id block → cache.locationOf? id = some block' →
    block'.partition ≠ partition → cache'.locationOf? id = some block'
  here : ∀ {id block}, c.Carries id block →
    (∀ block', cache.locationOf? id = some block' → block'.partition = partition) →
      cache'.locationOf? id = some block
  /-- What is not held keeps its entry, unless a held machine has ended up on that block. -/
  others : ∀ {id block}, (∀ block', ¬ c.Carries id block') →
    (cache'.locationOf? id = some block ↔ cache.locationOf? id = some block ∧
      ¬ ∃ id', c.Carries id' block ∧ cache'.locationOf? id' = some block)

variable {s s' : Storage σ} {partition : Partition} {c : LoadedChunk} {id : MachineId}
  {block : Block}

/-- Whatever blocks their entries pass through on the way, the machines end on their own. -/
theorem locationOf?_refreshed_of_here {cache : IdentifierCache} (hc : c.LiesIn partition)
    (hd : ((holdings c).map Prod.fst).Nodup) (hm : c.Carries id block)
    (hhere : ∀ block', cache.locationOf? id = some block' → block'.partition = partition) :
    (refreshed cache c).locationOf? id = some block := by
  obtain ⟨before, after, heq⟩ := List.append_of_mem (LoadedChunk.mem_holdings.mpr hm)
  have hp := hc.holdings
  have hblocks := c.pairwise_holdings
  rw [heq] at hd hp hblocks
  rw [List.map_append, List.map_cons] at hd
  have hb : block.partition = partition :=
    hp (id, block) (List.mem_append_right _ List.mem_cons_self)
  rw [refreshed_eq, heq]
  refine refreshEach_last (fun e he => ?_) (fun b h => (hhere b h).trans hb.symm) (fun e he hi => ?_)
    (fun e he => ?_)
  · exact (hp e (List.mem_append_left _ he)).trans hb.symm
  · have hnew := (List.nodup_cons.mp (List.nodup_append.mp hd).2.1).1
    exact hnew (List.mem_map.mpr ⟨e, he, hi⟩)
  · exact ((List.pairwise_cons.mp (List.pairwise_append.mp hblocks).2.1).1 e he).symm

theorem aligned_refreshed (cache : IdentifierCache) (hc : c.LiesIn partition)
    (hd : ((holdings c).map Prod.fst).Nodup) : Aligned cache partition c (refreshed cache c) := by
  refine ⟨fun _ hl hne => ?_, locationOf?_refreshed_of_here hc hd, fun {id block} hn => ?_⟩
  · rw [refreshed_eq]
    exact refreshEach_elsewhere hc.holdings hne hl
  · have hn' : ∀ e ∈ holdings c, e.1 ≠ id := by
      rintro ⟨id', block'⟩ he rfl
      exact hn block' (LoadedChunk.mem_holdings.mp he)
    have hback {b : Block} (hl : (refreshed cache c).locationOf? id = some b) :
        cache.locationOf? id = some b := by
      rw [refreshed_eq] at hl
      exact (cached_of_refreshEach hl).resolve_right fun hm => hn' _ hm rfl
    constructor
    · intro hl
      refine ⟨hback hl, fun hx => ?_⟩
      obtain ⟨id', hm, hl'⟩ := hx
      rw [(IdentifierCache.block_eq_iff hl hl').mp rfl] at hn
      exact hn block hm
    · rintro ⟨hl, hfree⟩
      cases hl' : (refreshed cache c).locationOf? id with
      | some b => exact (hback hl').symm.trans hl
      | none =>
        rw [refreshed_eq, refreshEach_eq_none_iff hc.holdings c.pairwise_holdings hn'] at hl'
        rcases hl' with hnone | ⟨b, id', hb, hm, hhere⟩
        · cases hl.symm.trans hnone
        · cases hl.symm.trans hb
          have hm := LoadedChunk.mem_holdings.mp hm
          exact absurd ⟨id', hm, locationOf?_refreshed_of_here hc hd hm hhere⟩ hfree

variable [Backing σ]

/-- However a deactivation ends, it brings the cache in line with the chunk, whatever was stored,
whatever has been called and whatever the cache has come to hold. -/
theorem aligned_of_deactivate {config : Config} {registry : Registry} {backing : σ}
    {s₀ : Storage σ} (hs : (start config registry backing).value = .ok s₀)
    {operations : List Operation} (hc : (s₀.after operations).chunk? partition = some c)
    (hd : ((holdings c).map Prod.fst).Nodup) {cache : IdentifierCache}
    {outcome : Except Error (Option FlushReport)}
    (h : ({ s₀.after operations with cache }.deactivate partition).value = (s', outcome)) :
    Aligned cache partition c s'.cache := by
  have hlies := (housed_start hs).after operations _ _ hc
  have d := deactivated { s₀.after operations with cache } partition
  rw [h] at d
  rcases d.cache with ⟨hn, -⟩ | ⟨c', hc', hcache⟩
  · cases hc.symm.trans hn
  · cases hc.symm.trans hc'
    rw [hcache]
    exact aligned_refreshed cache hlies hd

/-- Two machines in one partition. -/
def neighbours : List Operation :=
  [.save sampleMachine.location.corner sampleMachine, .save nearBlock.corner otherMachine]

/-- A cache that places each of them on the block of the other one. -/
def crossedCache : IdentifierCache :=
  (IdentifierCache.empty.insert sampleMachine.id nearBlock).insert otherMachine.id
    sampleMachine.location

theorem aligned_crossedCache : ∃ s' outcome c,
    ({ sampleStorage.after neighbours with cache := crossedCache }.deactivate
      nearBlock.partition).value = (s', outcome) ∧
    (sampleStorage.after neighbours).chunk? nearBlock.partition = some c ∧
    Aligned crossedCache nearBlock.partition c s'.cache ∧
      s'.locationOf? sampleMachine.id = some sampleMachine.location ∧
      s'.locationOf? otherMachine.id = some nearBlock := by
  have hs : (start {} sampleRegistry (⟨{}, []⟩ : Refusing Memory)).value = .ok sampleStorage := rfl
  have hheld : ((sampleStorage.after neighbours).chunk? nearBlock.partition).map holdings =
      some [(otherMachine.id, nearBlock), (sampleMachine.id, sampleMachine.location)] := by
    decide +kernel
  obtain ⟨c, hc, hheld⟩ := Option.map_eq_some_iff.mp hheld
  have hsample : c.Carries sampleMachine.id sampleMachine.location :=
    LoadedChunk.mem_holdings.mp (by simp [hheld])
  have hother : c.Carries otherMachine.id nearBlock :=
    LoadedChunk.mem_holdings.mp (by simp [hheld])
  have hd : ((holdings c).map Prod.fst).Nodup := by
    rw [hheld]
    decide +kernel
  cases h : ({ sampleStorage.after neighbours with cache := crossedCache }.deactivate
    nearBlock.partition).value with
  | mk s' outcome =>
  have ha := aligned_of_deactivate hs hc hd h
  refine ⟨s', outcome, c, rfl, hc, ha, ha.here hsample fun b hb => ?_, ha.here hother fun b hb => ?_⟩
  · have hcached : crossedCache.locationOf? sampleMachine.id = some nearBlock := by decide +kernel
    cases hb.symm.trans hcached
    rfl
  · have hcached : crossedCache.locationOf? otherMachine.id = some sampleMachine.location := by
      decide +kernel
    cases hb.symm.trans hcached
    rfl

end MachineVault.Storage
