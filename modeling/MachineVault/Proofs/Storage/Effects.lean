import MachineVault.Proofs.Storage.Holds
import MachineVault.Storage.Machines

/-! What each call does to the slots that a storage holds. A call for a machine first loads its
partition; after that it changes the slot on its block and at most one other. -/

namespace MachineVault.Storage

variable {σ : Type}

/-- The slots with another one, or none, on a block. -/
def setSlot (held : Block → Option Slot) (block : Block) (slot : Option Slot) :
    Block → Option Slot := fun block' => if block' = block then slot else held block'

@[simp] theorem setSlot_self (held : Block → Option Slot) (block : Block) (slot : Option Slot) :
    setSlot held block slot block = slot := if_pos rfl

theorem setSlot_of_ne {held : Block → Option Slot} {block block' : Block} {slot : Option Slot}
    (h : block' ≠ block) : setSlot held block slot block' = held block' := if_neg h

/-- The slots with the machine on a block changed. -/
def editSlot (held : Block → Option Slot) (block : Block) (change : Machine → Machine) :
    Block → Option Slot :=
  match (held block).bind Slot.machine? with
  | some m => setSlot held block (some (.live (change m)))
  | none => held

theorem bind_machine?_eq_some {slot? : Option Slot} {m : Machine} :
    slot?.bind Slot.machine? = some m ↔ slot? = some (.live m) := by
  rw [Option.bind_eq_some_iff]
  constructor
  · intro h
    rcases h with ⟨slot, rfl, hm⟩
    cases slot with
    | live m' =>
      cases hm
      rfl
    | raw record => cases hm
  · rintro rfl
    exact ⟨_, rfl, rfl⟩

theorem editSlot_eq_or (held : Block → Option Slot) (block : Block) (change : Machine → Machine)
    (block' : Block) : editSlot held block change block' = held block' ∨
      ∃ m, block' = block ∧ held block = some (.live m) ∧
        editSlot held block change block' = some (.live (change m)) := by
  unfold editSlot
  cases hm : (held block).bind Slot.machine? with
  | none => exact .inl rfl
  | some m =>
    by_cases hb : block' = block
    · subst hb
      exact .inr ⟨m, rfl, bind_machine?_eq_some.mp hm, setSlot_self ..⟩
    · exact .inl (setSlot_of_ne hb)

theorem editSlot_of_ne {held : Block → Option Slot} {block block' : Block}
    (h : block' ≠ block) (change : Machine → Machine) :
    editSlot held block change block' = held block' :=
  (editSlot_eq_or held block change block').resolve_right fun ⟨_, hb, _⟩ => h hb

theorem bind_machine?_editSlot (held : Block → Option Slot) (block : Block)
    (change : Machine → Machine) : (editSlot held block change block).bind Slot.machine? =
      ((held block).bind Slot.machine?).map change := by
  unfold editSlot
  cases hm : (held block).bind Slot.machine? with
  | none => exact hm
  | some m => simp [Slot.machine?]

variable {s s' : Storage σ} {held : Block → Option Slot} {partition : Partition} {c : LoadedChunk}

/-- The slots when a machine has left the block that the cache places it on for another one: a copy
that is in memory there is gone. -/
def leaveSlot (s : Storage σ) (held : Block → Option Slot) (id : MachineId) (target : Block) :
    Block → Option Slot :=
  match s.cache.leaves? id target with
  | none => held
  | some origin =>
    if (s.chunk? origin.partition).isSome ∧
        ((held origin).bind Slot.machine?).map Machine.id = some id then
      setSlot held origin none
    else held

/-- How a machine leaves for a block. Where a loaded chunk holds it on the block that the cache
places it on, it is taken off; otherwise nothing changes. -/
inductive Left (s : Storage σ) (id : MachineId) (target : Block) : Storage σ → Prop
  | stayed (hn : ∀ {origin c m}, s.locationOf? id = some origin → origin ≠ target →
      s.chunk? origin.partition = some c → c.machine? origin = some m → m.id ≠ id) :
      Left s id target s
  | evicted {origin : Block} {c : LoadedChunk} {m : Machine}
      (hl : s.locationOf? id = some origin) (hne : origin ≠ target)
      (hc : s.chunk? origin.partition = some c) (hm : c.machine? origin = some m)
      (hi : m.id = id) : Left s id target (s.putChunk origin.partition (c.remove origin))

theorem left (s : Storage σ) (id : MachineId) (target : Block) :
    s.Left id target (s.leave id target).value := by
  unfold leave
  cases hl : s.cache.leaves? id target with
  | none =>
    refine .stayed fun {origin _ _} hl' hne _ _ _ => ?_
    cases hl.symm.trans (IdentifierCache.leaves?_eq_some.mpr ⟨hl', hne⟩)
  | some origin =>
    obtain ⟨hl, hne⟩ := IdentifierCache.leaves?_eq_some.mp hl
    change s.Left id target (s.evict id origin).1
    unfold evict
    cases hc : s.chunk? origin.partition with
    | none =>
      refine .stayed fun {_ _ _} hl' _ hc' _ _ => ?_
      cases hl.symm.trans hl'
      cases hc.symm.trans hc'
    | some c =>
      dsimp only
      split
      · rename_i hi
        obtain ⟨m, hm, hi⟩ := Option.map_eq_some_iff.mp hi
        exact .evicted hl hne hc hm hi
      · rename_i hi
        refine .stayed fun {_ _ _} hl' _ hc' hm' hi' => ?_
        cases hl.symm.trans hl'
        cases hc.symm.trans hc'
        exact hi (by rw [hm', Option.map_some, hi'])

/-- What leaving a block takes away is the machine itself, where the cache places it. -/
theorem leaveSlot_eq_or {id : MachineId} {target block : Block} :
    s.leaveSlot held id target block = held block ∨
      s.leaveSlot held id target block = none ∧ block ≠ target ∧ s.locationOf? id = some block ∧
        ∃ m, held block = some (.live m) ∧ m.id = id := by
  unfold leaveSlot
  cases hl : s.cache.leaves? id target with
  | none => exact .inl rfl
  | some origin =>
    obtain ⟨hl, hne⟩ := IdentifierCache.leaves?_eq_some.mp hl
    dsimp only
    by_cases hm : (s.chunk? origin.partition).isSome ∧
        ((held origin).bind Slot.machine?).map Machine.id = some id
    · rw [if_pos hm]
      by_cases hb : block = origin
      · subst hb
        obtain ⟨m, hm, hi⟩ := Option.map_eq_some_iff.mp hm.2
        exact .inr ⟨setSlot_self .., hne, hl, m, bind_machine?_eq_some.mp hm, hi⟩
      · exact .inl (setSlot_of_ne hb)
    · rw [if_neg hm]
      exact .inl rfl

theorem leaveSlot_target {id : MachineId} {target : Block} :
    s.leaveSlot held id target target = held target :=
  leaveSlot_eq_or.resolve_right fun h => h.2.1 rfl

theorem value_activateEmpty_of_chunk (h : s.chunk? partition = some c) :
    (s.activateEmpty partition).value = (s, c.reportLoaded) := by
  unfold Storage.activateEmpty
  rw [h]
  rfl

variable [Backing σ]

theorem value_withChunk {α : Type} {report : LoadReport}
    (h : (s.load partition).value = (s', .ok (c, report)))
    (next : Storage σ → LoadedChunk → Logged (Storage σ × Except Error α)) :
    (s.withChunk partition next).value = (next s' c).value := by
  rw [withChunk, Logged.value_bind, h]

theorem value_withChunk_of_error {α : Type} {e : Error}
    (h : (s.load partition).value = (s', .error e))
    (next : Storage σ → LoadedChunk → Logged (Storage σ × Except Error α)) :
    (s.withChunk partition next).value = (s', .error e) := by
  rw [withChunk, Logged.value_bind, h]
  rfl

/-- The storage once a machine has been put on a block of a chunk at hand. -/
def withMachine (s : Storage σ) (c : LoadedChunk) (block : Block) (m : Machine) : Storage σ :=
  let s := ((s.putChunk block.partition (c.place block (.live m))).leave m.id block).value
  { s with cache := s.cache.insert m.id block }

/-- A machine that can be saved is put on its block of the chunk that serves it. -/
theorem value_save {location : Location} {m : Machine}
    (h : checkSaveable location.block m = .ok ()) :
    ∃ next : Storage σ → LoadedChunk → Logged (Storage σ × Except Error Unit),
      (s.save location m).value = (s.withChunk location.block.partition next).value ∧
      ∀ s c, (next s c).value = if c.partition.contains location.block then
          (s.withMachine c location.block m, .ok ())
        else (s, .error (.precondition (.outsidePartition location.block c.partition))) := by
  apply Exists.intro
  constructor
  · unfold Storage.save
    simp only [h]
    split <;> rfl
  · intro s c
    by_cases hp : c.partition.contains location.block = true
    · rw [if_pos hp]
      simp only [LoadedChunk.save, if_pos hp, Logged.value_bind]
      rfl
    · rw [if_neg hp]
      simp only [LoadedChunk.save, if_neg hp]
      rfl

theorem Called.shows (h : s.Called partition held s' c) :
    c.Shows partition (s.reloaded partition held) := h.holds.loaded h.chunk

theorem Called.machine? {block : Block} (h : s.Called block.partition held s' c) :
    c.machine? block = (s.reloaded block.partition held block).bind Slot.machine? := by
  rw [LoadedChunk.machine?, h.shows.slot_of_mem rfl]

/-- A chunk with one slot changed stands for what is held with that slot changed. -/
theorem Holds.change {c' : LoadedChunk} {block : Block} {slot : Option Slot} (h : s.Holds held)
    (hc : s.chunk? block.partition = some c) (hp : c'.partition = c.partition)
    (hpers : c'.persisted = c.persisted)
    (hslot : ∀ block', c'.slot? block' = if block' = block then slot else c.slot? block')
    (hg : ∀ {slot'}, slot = some slot' → slot'.Genuine block) :
    (s.putChunk block.partition c').Holds (setSlot held block slot) := by
  have hs := h.loaded hc
  refine h.put ⟨hp.trans hs.serves, fun block' => ?_⟩ (fun hf => ?_) (fun block' hne => ?_)
    (fun {block' slot'} hb => ?_)
  · rw [hslot, hs.slot]
    by_cases hb : block' = block
    · rw [hb, if_pos rfl, if_pos rfl, setSlot_self]
    · rw [if_neg hb, setSlot_of_ne hb]
  · exact h.unstored hc (hpers.symm.trans hf)
  · refine setSlot_of_ne ?_
    rintro rfl
    exact hne rfl
  · by_cases heq : block' = block
    · subst heq
      rw [setSlot_self] at hb
      exact hg hb
    · rw [setSlot_of_ne heq] at hb
      exact h.genuine hb

theorem Holds.place {block : Block} {m : Machine} (h : s.Holds held)
    (hc : s.chunk? block.partition = some c) :
    (s.putChunk block.partition (c.place block (.live m))).Holds
      (setSlot held block (some (.live m))) := by
  refine h.change hc rfl rfl (fun _ => LoadedChunk.slot?_place ..) ?_
  rintro _ ⟨⟩
  trivial

theorem Holds.clear {block : Block} (h : s.Holds held) (hc : s.chunk? block.partition = some c) :
    (s.putChunk block.partition (c.remove block)).Holds (setSlot held block none) :=
  h.change hc rfl rfl (fun _ => LoadedChunk.slot?_remove ..) nofun

/-- A storage that differs from another in the slots it holds and in its cache. -/
structure Amends (s : Storage σ) (held : Block → Option Slot) (s' : Storage σ) : Prop where
  holds : s'.Holds held
  config : s'.config = s.config
  registry : s'.registry = s.registry
  backing : s'.backing = s.backing

theorem Holds.get (h : s.Holds held) (location : Location) :
    ∃ s' c, s.Called location.block.partition held s' c ∧ (s.get location).value =
      (s', .ok ((s.reloaded location.block.partition held location.block).bind Slot.machine?)) := by
  obtain ⟨s', c, report, hl, hc⟩ := h.call location.block.partition
  refine ⟨s', c, hc, ?_⟩
  rw [Storage.get, value_withChunk hl, ← hc.machine?]
  rfl

theorem Holds.machinesOf (h : s.Holds held) (partition : Partition) :
    ∃ s' c, s.Called partition held s' c ∧
      (s.machinesOf partition).value = (s', .ok (c.machines.map Prod.snd)) := by
  obtain ⟨s', c, report, hl, hc⟩ := h.call partition
  refine ⟨s', c, hc, ?_⟩
  rw [Storage.machinesOf, value_withChunk hl]
  rfl

theorem Holds.activate (h : s.Holds held) (partition : Partition) :
    ∃ s' c report, s.Called partition held s' c ∧
      (s.activate partition).value = (s', .ok report) := by
  obtain ⟨s', c, report, hl, hc⟩ := h.call partition
  refine ⟨s', c, report, hc, ?_⟩
  rw [Storage.activate, Logged.value_bind, hl]
  rfl

theorem Holds.getById (h : s.Holds held) {id : MachineId} {block : Block}
    (hb : s.locationOf? id = some block) :
    ∃ s' c, s.Called block.partition held s' c ∧ (s.getById id).value =
      (s', .ok
        (((s.reloaded block.partition held block).bind Slot.machine?).filter (·.id = id))) := by
  obtain ⟨s', c, report, hl, hc⟩ := h.call block.partition
  refine ⟨s', c, hc, ?_⟩
  unfold Storage.getById
  rw [show s.cache.locationOf? id = some block from hb]
  simp only [value_withChunk hl, ← hc.machine?]
  cases c.machine? block with
  | none => rfl
  | some m =>
    by_cases hi : m.id = id
    · simp [hi, Option.filter]
    · simp [hi, Option.filter]

theorem value_getById_of_uncached {id : MachineId} (h : s.locationOf? id = none) :
    (s.getById id).value = (s, .ok none) := by
  unfold Storage.getById
  rw [show s.cache.locationOf? id = none from h]
  rfl

/-- Changing the machine on a block of a loaded chunk. -/
theorem Holds.editSlot {block : Block} (h : s.Holds held) (hc : s.chunk? block.partition = some c)
    (change : Machine → Machine) :
    (s.putChunk block.partition (c.edit block change)).Holds (editSlot held block change) := by
  have hm : c.machine? block = (held block).bind Slot.machine? := by
    rw [LoadedChunk.machine?, (h.loaded hc).slot_of_mem rfl]
  unfold LoadedChunk.edit Storage.editSlot
  rw [hm]
  cases (held block).bind Slot.machine? with
  | some m => exact h.place hc
  | none =>
    refine h.congr ⟨rfl, rfl⟩ rfl fun partition => ?_
    rw [chunk?_putChunk]
    split
    · rename_i heq
      rw [heq, hc]
    · rfl

theorem Holds.edit (h : s.Holds held) {location : Location} {block : Block}
    (hb : location.block = block) (change : Machine → Machine) :
    ∃ s₁ c s', s.Called block.partition held s₁ c ∧
      s₁.Amends (Storage.editSlot (s.reloaded block.partition held) block change) s' ∧
      s'.cache = s₁.cache ∧ (s.edit location change).value = (s', .ok
        ((Storage.editSlot (s.reloaded block.partition held) block change block).bind
          Slot.machine?)) := by
  subst hb
  obtain ⟨s₁, c, report, hl, hc⟩ := h.call location.block.partition
  have hh := hc.holds.editSlot hc.chunk change
  refine ⟨s₁, c, _, hc, ⟨hh, rfl, rfl, rfl⟩, rfl, ?_⟩
  have hshows := hh.loaded ((chunk?_putChunk ..).trans (if_pos rfl))
  have hs := hshows.slot_of_mem (show location.block.partition = _ from rfl)
  rw [Storage.edit, value_withChunk hl, ← hs]
  rfl

theorem Holds.remove (h : s.Holds held) {location : Location} {block : Block}
    (hb : location.block = block) :
    ∃ s₁ c s', s.Called block.partition held s₁ c ∧
      s₁.Amends (setSlot (s.reloaded block.partition held) block none) s' ∧
      s'.cache = s₁.cache.eraseBlock block ∧ (s.remove location).value =
        (s', .ok ((s.reloaded block.partition held block).bind Slot.machine?)) := by
  subst hb
  obtain ⟨s₁, c, report, hl, hc⟩ := h.call location.block.partition
  have hh := hc.holds.clear hc.chunk
  refine ⟨s₁, c, { s₁.putChunk location.block.partition (c.remove location.block) with
    cache := s₁.cache.eraseBlock location.block }, hc,
    ⟨hh.congr ⟨rfl, rfl⟩ rfl fun _ => rfl, rfl, rfl, rfl⟩, rfl, ?_⟩
  rw [Storage.remove, value_withChunk hl, ← hc.machine?]
  dsimp only
  split
  · split
    · split
      · rfl
      · rfl
    · rfl
  · rfl

theorem Holds.evict (h : s.Holds held) (id : MachineId) (origin : Block) :
    s.Amends (if (s.chunk? origin.partition).isSome ∧
        ((held origin).bind Slot.machine?).map Machine.id = some id then setSlot held origin none
      else held) (s.evict id origin).1 ∧ (s.evict id origin).1.cache = s.cache := by
  unfold Storage.evict
  cases hc : s.chunk? origin.partition with
  | none => exact ⟨⟨h, rfl, rfl, rfl⟩, rfl⟩
  | some c =>
    have hm : c.machine? origin = (held origin).bind Slot.machine? := by
      rw [LoadedChunk.machine?, (h.loaded hc).slot_of_mem rfl]
    dsimp only
    rw [hm]
    by_cases hi : ((held origin).bind Slot.machine?).map Machine.id = some id
    · rw [if_pos hi, if_pos ⟨rfl, hi⟩]
      exact ⟨⟨h.clear hc, rfl, rfl, rfl⟩, rfl⟩
    · rw [if_neg hi, if_neg fun h' => hi h'.2]
      exact ⟨⟨h, rfl, rfl, rfl⟩, rfl⟩

theorem Holds.leave (h : s.Holds held) (id : MachineId) (target : Block) :
    s.Amends (s.leaveSlot held id target) (s.leave id target).value ∧
      (s.leave id target).value.cache = s.cache := by
  unfold Storage.leave leaveSlot
  cases s.cache.leaves? id target with
  | none => exact ⟨⟨h, rfl, rfl, rfl⟩, rfl⟩
  | some origin => exact h.evict id origin

theorem Holds.save (h : s.Holds held) {location : Location} {block : Block} {m : Machine}
    (hb : location.block = block) (hs : checkSaveable block m = .ok ()) :
    ∃ s₁ c s' held', s.Called block.partition held s₁ c ∧ s₁.Amends held' s' ∧
      held' block = some (.live m) ∧
      (∀ block', block' ≠ block → held' block' = s.reloaded block.partition held block' ∨
        held' block' = none ∧ s₁.locationOf? m.id = some block' ∧
          ∃ m', s.reloaded block.partition held block' = some (.live m') ∧ m'.id = m.id) ∧
      s'.cache = s₁.cache.insert m.id block ∧ (s.save location m).value = (s', .ok ()) := by
  subst hb
  obtain ⟨s₁, c, report, hl, hc⟩ := h.call location.block.partition
  obtain ⟨hh, hcache⟩ := (hc.holds.place (m := m) hc.chunk).leave m.id location.block
  refine ⟨s₁, c, { (Storage.leave _ m.id location.block).value with
    cache := s₁.cache.insert m.id location.block }, _, hc,
    ⟨hh.holds.congr ⟨rfl, rfl⟩ rfl fun _ => rfl, hh.config, hh.registry, hh.backing⟩,
    ?_, ?_, rfl, ?_⟩
  · rw [leaveSlot_target, setSlot_self]
  · intro block' hne
    have hset : setSlot (s.reloaded location.block.partition held) location.block
        (some (.live m)) block' = s.reloaded location.block.partition held block' :=
      setSlot_of_ne hne
    refine leaveSlot_eq_or.imp (fun h => h.trans hset) ?_
    intro hx
    rcases hx with ⟨hn, -, hl, hm⟩
    exact ⟨hn, hl, hset ▸ hm⟩
  · have hserves : c.partition.contains location.block = true := by
      simp [Partition.contains, hc.shows.serves]
    obtain ⟨next, hsave, hnext⟩ := value_save (s := s) hs
    rw [hsave, value_withChunk hl, hnext, if_pos hserves, withMachine, hcache]
    rfl

theorem value_save_of_refused {location : Location} {m : Machine} {e : PreconditionError}
    (h : checkSaveable location.block m = .error e) :
    (s.save location m).value = (s, .error (.precondition e)) := by
  unfold Storage.save
  simp only [h]
  rfl

/-- The slots without those of a partition. -/
def clearSlots (held : Block → Option Slot) (partition : Partition) : Block → Option Slot :=
  fun block => if block.partition = partition then none else held block

theorem Holds.activateEmpty (h : s.Holds held) (hc : s.chunk? partition = none) :
    s.Amends (clearSlots held partition) (s.activateEmpty partition).value.1 ∧
      ∀ id block, (s.activateEmpty partition).value.1.locationOf? id = some block ↔
        s.locationOf? id = some block ∧ block.partition ≠ partition := by
  have hh : (s.putChunk partition (.superseding partition s.nextGeneration)).Holds
      (clearSlots held partition) := by
    refine h.put ⟨rfl, fun block => ?_⟩ nofun (fun block hne => if_neg hne)
      (fun {block slot} hb => ?_)
    · rw [LoadedChunk.slot?, LoadedChunk.superseding, Std.ExtTreeMap.getElem?_empty, clearSlots]
      split <;> rfl
    · unfold clearSlots at hb
      split at hb
      · cases hb
      · exact h.genuine hb
  unfold Storage.activateEmpty
  rw [hc]
  refine ⟨⟨hh.congr ⟨rfl, rfl⟩ rfl fun _ => rfl, rfl, rfl, rfl⟩, fun id block => ?_⟩
  refine IdentifierCache.locationOf?_foldl_eraseBlock _ _ |>.trans ?_
  rw [List.mem_filter, IdentifierCache.mem_blocks, and_comm]
  refine and_congr_right fun hl => ?_
  simp only [Partition.contains, decide_eq_true_eq, not_and]
  exact ⟨fun hn => hn ⟨id, hl⟩, fun hn _ => hn⟩

end MachineVault.Storage
