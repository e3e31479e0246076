import MachineVault.Proofs.Storage.Backed
import MachineVault.Proofs.Storage.Succession

/-! What a save does to the chunks in memory and to the identifier cache, and all that it does. A
machine that is saved on another block leaves the block that the cache places it on, but a record of
it that waits there for a factory stays behind. -/

namespace MachineVault

/-- The machine itself stands there, and not a record of it. -/
def Slot.isLive (id : MachineId) (slot : Slot) : Bool := slot.machine?.map Machine.id = some id

/-- A chunk that has changed on these blocks at most. -/
structure LoadedChunk.Confined (c : LoadedChunk) (changed : Block → Prop) (c' : LoadedChunk) :
    Prop where
  partition : c'.partition = c.partition
  generation : c'.generation = c.generation
  persisted : c'.persisted = c.persisted
  slot : ∀ {block}, ¬ changed block → c'.slot? block = c.slot? block

namespace LoadedChunk

variable {c c' c'' : LoadedChunk} {changed changed' : Block → Prop} {block : Block}

theorem Confined.refl (c : LoadedChunk) (changed : Block → Prop) : c.Confined changed c :=
  ⟨rfl, rfl, rfl, fun _ => rfl⟩

theorem Confined.trans (h : c.Confined changed c') (h' : c'.Confined changed' c'') :
    c.Confined (fun block => changed block ∨ changed' block) c'' where
  partition := h'.partition.trans h.partition
  generation := h'.generation.trans h.generation
  persisted := h'.persisted.trans h.persisted
  slot hn := by
    rw [not_or] at hn
    exact (h'.slot hn.2).trans (h.slot hn.1)

theorem Confined.mono (h : c.Confined changed c') (hs : ∀ {block}, changed block → changed' block) :
    c.Confined changed' c' :=
  ⟨h.partition, h.generation, h.persisted, fun hn => h.slot fun hb => hn (hs hb)⟩

theorem confined_place (c : LoadedChunk) (slot : Slot) (h : changed block) :
    c.Confined changed (c.place block slot) := by
  refine ⟨rfl, rfl, rfl, fun {block'} hn => ?_⟩
  rw [slot?_place, if_neg]
  rintro rfl
  exact hn h

theorem confined_remove (c : LoadedChunk) (h : changed block) :
    c.Confined changed (c.remove block) := by
  refine ⟨rfl, rfl, rfl, fun {block'} hn => ?_⟩
  rw [slot?_remove, if_neg]
  rintro rfl
  exact hn h

end LoadedChunk

namespace Storage

variable {σ : Type} {s s' s'' : Storage σ} {changed changed' : Block → Prop}
  {partition : Partition} {c : LoadedChunk} {id : MachineId} {target : Block} {m : Machine}

/-- A storage whose chunks have changed on these blocks at most, and apart from them its cache. -/
structure Confined (s : Storage σ) (changed : Block → Prop) (s' : Storage σ) : Prop where
  settings : s.SameSettings s'
  backing : s'.backing = s.backing
  nextGeneration : s'.nextGeneration = s.nextGeneration
  unloaded : ∀ {partition}, s.chunk? partition = none → s'.chunk? partition = none
  loaded : ∀ {partition c}, s.chunk? partition = some c →
    ∃ c', s'.chunk? partition = some c' ∧ c.Confined changed c'

theorem Confined.refl (s : Storage σ) (changed : Block → Prop) : s.Confined changed s :=
  ⟨⟨rfl, rfl⟩, rfl, rfl, fun hn => hn, fun hc => ⟨_, hc, .refl _ _⟩⟩

theorem Confined.trans (h : s.Confined changed s') (h' : s'.Confined changed' s'') :
    s.Confined (fun block => changed block ∨ changed' block) s'' where
  settings := h.settings.trans h'.settings
  backing := h'.backing.trans h.backing
  nextGeneration := h'.nextGeneration.trans h.nextGeneration
  unloaded hn := h'.unloaded (h.unloaded hn)
  loaded hc := by
    obtain ⟨c', hc', hconf⟩ := h.loaded hc
    obtain ⟨c'', hc'', hconf'⟩ := h'.loaded hc'
    exact ⟨c'', hc'', hconf.trans hconf'⟩

theorem Confined.mono (h : s.Confined changed s') (hs : ∀ {block}, changed block → changed' block) :
    s.Confined changed' s' where
  settings := h.settings
  backing := h.backing
  nextGeneration := h.nextGeneration
  unloaded := h.unloaded
  loaded hc := by
    obtain ⟨c', hc', hconf⟩ := h.loaded hc
    exact ⟨c', hc', hconf.mono hs⟩

theorem Confined.recache (h : s.Confined changed s') (cache : IdentifierCache) :
    s.Confined changed { s' with cache } :=
  ⟨h.settings, h.backing, h.nextGeneration, h.unloaded, h.loaded⟩

theorem confined_putChunk {c' : LoadedChunk} (hc : s.chunk? partition = some c)
    (h : c.Confined changed c') : s.Confined changed (s.putChunk partition c') := by
  refine ⟨⟨rfl, rfl⟩, rfl, rfl, fun {partition'} hn => ?_, fun {partition' c''} hc' => ?_⟩
  · rw [chunk?_putChunk, if_neg]
    · exact hn
    · rintro rfl
      cases hc.symm.trans hn
  · rw [chunk?_putChunk]
    split
    · rename_i hp
      cases hc.symm.trans (hp ▸ hc')
      exact ⟨c', rfl, h⟩
    · exact ⟨c'', hc', .refl _ _⟩

/-- Leaving for a block changes nothing but the block that is left. -/
theorem Left.confined (h : s.Left id target s') :
    s.Confined (fun block => block ≠ target ∧ s.locationOf? id = some block) s' := by
  cases h with
  | stayed => exact .refl _ _
  | evicted hl hne hc => exact confined_putChunk hc (LoadedChunk.confined_remove _ ⟨hne, hl⟩)

theorem Left.cache (h : s.Left id target s') : s'.cache = s.cache := by
  cases h <;> rfl

/-- From the block that is left a live machine goes, and whatever else is there stays. -/
theorem Left.origin {origin : Block} (h : s.Left id target s')
    (hl : s.locationOf? id = some origin) (hne : origin ≠ target)
    (hc : s.chunk? origin.partition = some c) : ∃ c', s'.chunk? origin.partition = some c' ∧
      c'.slot? origin = (c.slot? origin).filter fun slot => !slot.isLive id := by
  cases h with
  | stayed hn =>
    refine ⟨c, hc, Option.ext fun slot => ?_⟩
    rw [Option.filter_eq_some_iff]
    refine ⟨fun hs => ⟨hs, ?_⟩, And.left⟩
    cases slot with
    | live m =>
      have hother := hn hl hne hc (LoadedChunk.machine?_eq_some.mpr hs)
      simpa [Slot.isLive, Slot.machine?] using hother
    | raw record => rfl
  | @evicted _ _ m hl' _ hc' hm hi =>
    cases hl.symm.trans hl'
    cases hc.symm.trans hc'
    have hlive : (Slot.live m).isLive id = true := decide_eq_true (congrArg some hi)
    refine ⟨_, (chunk?_putChunk ..).trans (if_pos rfl), ?_⟩
    rw [LoadedChunk.slot?_remove, if_pos rfl, LoadedChunk.machine?_eq_some.mp hm,
      Option.filter_some, hlive]
    rfl

/-- What a save of a machine on a block has done. The block holds the machine and the cache knows it
there, whatever the cache placed on the block is forgotten, and the block that the cache placed the
machine on is left. -/
structure Moved (s : Storage σ) (m : Machine) (target : Block) (s' : Storage σ) : Prop where
  confined : s.Confined (fun block => block = target ∨ s.locationOf? m.id = some block) s'
  placed : ∃ c', s'.chunk? target.partition = some c' ∧ c'.slot? target = some (.live m)
  left : ∀ {origin c}, s.locationOf? m.id = some origin → origin ≠ target →
    s.chunk? origin.partition = some c → ∃ c', s'.chunk? origin.partition = some c' ∧
      c'.slot? origin = (c.slot? origin).filter fun slot => !slot.isLive m.id
  /-- A loaded chunk carries the machine on the block that it has left just if a record is there. -/
  stale : ∀ {origin c c'}, s.locationOf? m.id = some origin → origin ≠ target →
    s.chunk? origin.partition = some c → s'.chunk? origin.partition = some c' →
      (c'.Carries m.id origin ↔ ∃ record, c.slot? origin = some (.raw record) ∧ record.id = m.id)
  cached : s'.locationOf? m.id = some target
  known : s'.cache.idAt? target = some m.id
  displaced : ∀ {id}, id ≠ m.id → s.locationOf? id = some target → s'.locationOf? id = none
  spared : ∀ {id}, id ≠ m.id → s.locationOf? id ≠ some target →
    s'.locationOf? id = s.locationOf? id

/-- Of a live machine and a record only the record is still there when the machine has gone. -/
theorem carries_filter_iff {c c' : LoadedChunk} {block : Block}
    (h : c'.slot? block = (c.slot? block).filter fun slot => !slot.isLive id) :
    c'.Carries id block ↔ ∃ record, c.slot? block = some (.raw record) ∧ record.id = id := by
  simp only [LoadedChunk.Carries, h, Option.filter_eq_some_iff]
  constructor
  · rintro ⟨slot, ⟨hs, hgone⟩, rfl⟩
    cases slot with
    | live m => simp [Slot.isLive, Slot.machine?, Slot.id] at hgone
    | raw record => exact ⟨record, hs, rfl⟩
  · rintro ⟨record, hs, hi⟩
    exact ⟨.raw record, ⟨hs, rfl⟩, hi⟩

theorem moved_withMachine (hc : s.chunk? target.partition = some c) :
    s.Moved m target (s.withMachine c target m) := by
  -- the machine is put in place first, then it leaves, and the cache comes last
  have hput : s.Confined (· = target)
      (s.putChunk target.partition (c.place target (.live m))) :=
    confined_putChunk hc (c.confined_place _ rfl)
  have hplaced : (s.putChunk target.partition (c.place target (.live m))).chunk? target.partition =
      some (c.place target (.live m)) := (chunk?_putChunk ..).trans (if_pos rfl)
  have hleft := (s.putChunk target.partition (c.place target (.live m))).left m.id target
  unfold withMachine
  generalize (Storage.leave _ m.id target).value = s₁ at hleft ⊢
  have horigin {origin : Block} {c₀ : LoadedChunk} (hl : s.locationOf? m.id = some origin)
      (hne : origin ≠ target) (hc₀ : s.chunk? origin.partition = some c₀) :
      ∃ c', s₁.chunk? origin.partition = some c' ∧
        c'.slot? origin = (c₀.slot? origin).filter fun slot => !slot.isLive m.id := by
    obtain ⟨c₁, hc₁, hconf⟩ := hput.loaded hc₀
    rw [← hconf.slot hne]
    exact hleft.origin hl hne hc₁
  have hcache : s₁.cache = s.cache := hleft.cache
  refine ⟨?_, ?_, horigin, fun {origin c₀ c'} hl hne hc₀ hc' => ?_, ?_, ?_, fun hne hl => ?_,
    fun hne hl => ?_⟩
  · refine ((hput.trans hleft.confined).mono ?_).recache _
    rintro block (hb | ⟨-, hl⟩)
    · exact .inl hb
    · exact .inr hl
  · obtain ⟨c', hc', hconf⟩ := hleft.confined.loaded hplaced
    refine ⟨c', hc', ?_⟩
    rw [hconf.slot fun h => h.1 rfl, LoadedChunk.slot?_place, if_pos rfl]
  · obtain ⟨c₁, hc₁, hslot⟩ := horigin hl hne hc₀
    cases hc₁.symm.trans hc'
    exact carries_filter_iff hslot
  · exact IdentifierCache.locationOf?_insert_eq_some.mpr (.inl ⟨rfl, rfl⟩)
  · exact (IdentifierCache.idAt?_insert ..).trans (if_pos rfl)
  · rw [locationOf?, IdentifierCache.locationOf?_insert, if_neg hne, hcache]
    exact if_pos hl
  · rw [locationOf?, IdentifierCache.locationOf?_insert, if_neg hne, hcache]
    exact if_neg hl

variable [Backing σ]

/-- A machine that can be saved in a partition at hand is moved there. -/
theorem Housed.save {location : Location} (h : s.Housed)
    (hc : s.chunk? location.block.partition = some c)
    (hm : checkSaveable location.block m = .ok ()) : ∃ s',
      (s.save location m).value = (s', .ok ()) ∧ s.Moved m location.block s' := by
  obtain ⟨next, hsave, hnext⟩ := value_save (s := s) hm
  have hserves : c.partition.contains location.block = true := by
    simp [Partition.contains, (h _ _ hc).serves]
  refine ⟨_, ?_, moved_withMachine hc⟩
  rw [hsave, value_withChunk (load_of_chunk hc), hnext, if_pos hserves]

/-- Whatever is stored and whatever has been called, a save moves a machine and does nothing else. -/
theorem moved_of_save {config : Config} {registry : Registry} {backing : σ} {s₀ : Storage σ}
    (hs : (start config registry backing).value = .ok s₀) {operations : List Operation}
    {location : Location} (hc : (s₀.after operations).chunk? location.block.partition = some c)
    (hm : checkSaveable location.block m = .ok ()) : ∃ s',
      ((s₀.after operations).save location m).value = (s', .ok ()) ∧
        (s₀.after operations).Moved m location.block s' :=
  ((housed_start hs).after operations).save hc hm

/-- A storage without factories, over memory to which the sample machine has been flushed. -/
def unstaffedStorage : Storage (Refusing Memory) :=
  { startedOver (sampleStorage.after
      [.save sampleMachine.location.corner sampleMachine, .flushAll]).backing with
    registry := ⟨∅⟩ }

/-- The block above the sample machine. -/
def upperBlock : Block := { sampleMachine.location with y := 6 }

/-- A machine that is saved beside its own record is held twice. -/
theorem moved_beside_record : ∃ s' c',
    (start {} ⟨∅⟩ unstaffedStorage.backing).value = .ok unstaffedStorage ∧
    ((unstaffedStorage.after [.activate upperBlock.partition]).save upperBlock.corner
      sampleMachine).value = (s', .ok ()) ∧
    (unstaffedStorage.after [.activate upperBlock.partition]).Moved sampleMachine upperBlock s' ∧
    s'.chunk? upperBlock.partition = some c' ∧ c'.Carries sampleMachine.id upperBlock ∧
      c'.Carries sampleMachine.id sampleMachine.location := by
  have hs : (start {} ⟨∅⟩ unstaffedStorage.backing).value = .ok unstaffedStorage :=
    start_eq_ok.mpr ⟨rfl, _, rfl, rfl⟩
  have hraw : ((unstaffedStorage.after [.activate upperBlock.partition]).chunk?
      upperBlock.partition).bind (·.slot? sampleMachine.location) =
        some (.raw ⟨sampleMachine.id, "furnace", sampleMachine.encode⟩) := by decide +kernel
  have hl : (unstaffedStorage.after [.activate upperBlock.partition]).locationOf?
      sampleMachine.id = some sampleMachine.location := by decide +kernel
  have hm : checkSaveable upperBlock.corner.block sampleMachine = .ok () := by decide +kernel
  obtain ⟨c, hc, hraw⟩ := Option.bind_eq_some_iff.mp hraw
  obtain ⟨s', hsave, hmoved⟩ := moved_of_save hs hc hm
  obtain ⟨c', hc', hlive⟩ := hmoved.placed
  refine ⟨s', c', hs, hsave, hmoved, hc', ⟨_, hlive, rfl⟩, ?_⟩
  exact (hmoved.stale hl (by decide) hc hc').mpr ⟨_, hraw, rfl⟩

end Storage

end MachineVault
