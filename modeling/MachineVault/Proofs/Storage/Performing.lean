import MachineVault.Proofs.Storage.Effects
import MachineVault.Proofs.Storage.Flushing
import MachineVault.Storage.Operation

/-! What any call of a host does to the slots that a storage holds, in one relation with a case for
each kind of call. Invariants of storage are proved by going through its cases. -/

namespace MachineVault

/-- A call by which a partition is flushed if it is loaded. -/
def Operation.flushes (partition : Partition) : Operation → Prop
  | deactivate partition' | handle (.deactivated partition') => partition' = partition
  | flushAll => True
  | _ => False

/-- A call that is meant to change what is on a block. -/
def Operation.Alters : Operation → Prop
  | edit _ _ | save _ _ | remove _ | activateEmpty _ => True
  | _ => False

namespace Storage

variable {σ : Type}

/-- The partition that a call has to have in memory. -/
def reads? (s : Storage σ) : Operation → Option Partition
  | .get location | .edit location _ | .remove location => some location.block.partition
  | .save location m =>
    if checkSaveable location.block m matches .ok () then some location.block.partition else none
  | .getById id => (s.locationOf? id).map Block.partition
  | .machinesOf partition | .activate partition | .handle (.activated partition) => some partition
  | _ => none

variable [Backing σ]

/-- A call leads from a storage and the slots it holds to another and its slots. -/
inductive Performed (s : Storage σ) (held : Block → Option Slot) :
    Operation → Storage σ → (Block → Option Slot) → Prop
  /-- Nothing is read or flushed. -/
  | idle {operation : Operation} {s' : Storage σ} (hr : s.reads? operation = none)
      (hf : ∀ partition, ¬ operation.flushes partition) (hh : s'.Holds held)
      (hreg : s'.registry = s.registry) (hcache : s'.cache = s.cache)
      (hb : s'.backing = s.backing ∨
        ∃ table, s'.backing = (Backing.saveTable s.backing table).value.1) :
      Performed s held operation s' held
  /-- A partition is read, and no more. -/
  | called {operation : Operation} {partition : Partition} {s' : Storage σ} {c : LoadedChunk}
      (hr : s.reads? operation = some partition) (hf : ∀ partition, ¬ operation.flushes partition)
      (hs : ¬ operation.Alters) (hc : s.Called partition held s' c) :
      Performed s held operation s' (s.reloaded partition held)
  | edited {location : Location} {change : Machine → Machine} {s₁ s' : Storage σ} {c : LoadedChunk}
      (hc : s.Called location.block.partition held s₁ c)
      (ha : s₁.Amends
        (editSlot (s.reloaded location.block.partition held) location.block change) s')
      (hcache : s'.cache = s₁.cache) :
      Performed s held (.edit location change) s'
        (editSlot (s.reloaded location.block.partition held) location.block change)
  | saved {location : Location} {m : Machine} {s₁ s' : Storage σ} {c : LoadedChunk}
      {held' : Block → Option Slot} (hs : checkSaveable location.block m = .ok ())
      (hc : s.Called location.block.partition held s₁ c) (ha : s₁.Amends held' s')
      (hself : held' location.block = some (.live m))
      (hothers : ∀ block, block ≠ location.block →
        held' block = s.reloaded location.block.partition held block ∨
          held' block = none ∧ s₁.locationOf? m.id = some block ∧
            ∃ m', s.reloaded location.block.partition held block = some (.live m') ∧ m'.id = m.id)
      (hcache : s'.cache = s₁.cache.insert m.id location.block) :
      Performed s held (.save location m) s' held'
  | removed {location : Location} {s₁ s' : Storage σ} {c : LoadedChunk}
      (hc : s.Called location.block.partition held s₁ c)
      (ha : s₁.Amends (setSlot (s.reloaded location.block.partition held) location.block none) s')
      (hcache : s'.cache = s₁.cache.eraseBlock location.block) :
      Performed s held (.remove location) s'
        (setSlot (s.reloaded location.block.partition held) location.block none)
  | emptied {partition : Partition} {s' : Storage σ} (hc : s.chunk? partition = none)
      (ha : s.Amends (clearSlots held partition) s')
      (hcached : ∀ id block, s'.locationOf? id = some block ↔
        s.locationOf? id = some block ∧ block.partition ≠ partition) :
      Performed s held (.activateEmpty partition) s' (clearSlots held partition)
  /-- One partition is flushed. -/
  | deactivated {operation : Operation} {partition : Partition} {s' : Storage σ}
      {outcome : Except Error (Option FlushReport)} (hr : s.reads? operation = none)
      (hf : ∀ partition', operation.flushes partition' ↔ partition = partition')
      (d : s.Deactivated partition s' outcome) : Performed s held operation s' held
  | flushedAll : Performed s held .flushAll s.flushed.saveCache.value.1 held

/-- What a call answers is told apart from where it leads. -/
theorem Performed.of_value {α : Type} {call : Logged (Storage σ × α)} {a : α} {s s' : Storage σ}
    {held held' : Block → Option Slot} {operation : Operation}
    (h : s.Performed held operation s' held') (hv : call.value = (s', a)) :
    ∃ held', s.Performed held operation call.value.1 held' := by
  rw [hv]
  exact ⟨held', h⟩

variable {s : Storage σ} {held : Block → Option Slot}

theorem Holds.performed_getById (h : s.Holds held) (id : MachineId) :
    ∃ held', s.Performed held (.getById id) (s.getById id).value.1 held' := by
  cases hl : s.locationOf? id with
  | none =>
    refine Performed.of_value (.idle ?_ (fun _ => not_false) h rfl rfl (.inl rfl)) (value_getById_of_uncached hl)
    rw [reads?, hl, Option.map_none]
  | some block =>
    obtain ⟨s', c, hc, hv⟩ := h.getById hl
    refine Performed.of_value (.called ?_ (fun _ => not_false) not_false hc) hv
    rw [reads?, hl, Option.map_some]

theorem Holds.performed_save (h : s.Holds held) (location : Location) (m : Machine) :
    ∃ held', s.Performed held (.save location m) (s.save location m).value.1 held' := by
  cases hs : checkSaveable location.block m with
  | error e =>
    refine Performed.of_value (.idle ?_ (fun _ => not_false) h rfl rfl (.inl rfl)) (value_save_of_refused hs)
    rw [reads?, hs]
    rfl
  | ok u =>
    obtain ⟨s₁, c, s', held', hc, ha, hself, hothers, hcache, hv⟩ := h.save rfl hs
    exact Performed.of_value (.saved hs hc ha hself hothers hcache) hv

theorem Holds.performed_activateEmpty (h : s.Holds held) (partition : Partition) :
    ∃ held',
      s.Performed held (.activateEmpty partition) (s.activateEmpty partition).value.1 held' := by
  cases hc : s.chunk? partition with
  | some c =>
    exact Performed.of_value (.idle rfl (fun _ => not_false) h rfl rfl (.inl rfl)) (value_activateEmpty_of_chunk hc)
  | none =>
    obtain ⟨ha, hcached⟩ := h.activateEmpty hc
    exact ⟨_, .emptied hc ha hcached⟩

theorem Holds.performed [Backing.Atomic σ] (h : s.Holds held) (operation : Operation) :
    ∃ held', s.Performed held operation (s.after [operation]) held' := by
  cases operation with
  | get location =>
    obtain ⟨s', c, hc, hv⟩ := h.get location
    change ∃ held', s.Performed held (.get location) (s.get location).value.1 held'
    exact Performed.of_value (.called rfl (fun _ => not_false) not_false hc) hv
  | edit location change =>
    obtain ⟨s₁, c, s', hc, ha, hcache, hv⟩ := h.edit rfl change
    change ∃ held', s.Performed held (.edit location change) (s.edit location change).value.1 held'
    exact Performed.of_value (.edited hc ha hcache) hv
  | getById id => exact h.performed_getById id
  | save location m => exact h.performed_save location m
  | remove location =>
    obtain ⟨s₁, c, s', hc, ha, hcache, hv⟩ := h.remove rfl
    change ∃ held', s.Performed held (.remove location) (s.remove location).value.1 held'
    exact Performed.of_value (.removed hc ha hcache) hv
  | machinesOf partition =>
    obtain ⟨s', c, hc, hv⟩ := h.machinesOf partition
    change ∃ held', s.Performed held (.machinesOf partition) (s.machinesOf partition).value.1 held'
    exact Performed.of_value (.called rfl (fun _ => not_false) not_false hc) hv
  | locationOf | idOf | contains | keys | isLoaded | loadedPartitions | generationOf | chunkOf =>
    exact ⟨held, .idle rfl (fun _ => not_false) h rfl rfl (.inl rfl)⟩
  | activate partition =>
    obtain ⟨s', c, report, hc, hv⟩ := h.activate partition
    change ∃ held', s.Performed held (.activate partition) (s.activate partition).value.1 held'
    exact Performed.of_value (.called rfl (fun _ => not_false) not_false hc) hv
  | activateEmpty partition => exact h.performed_activateEmpty partition
  | deactivate partition =>
    exact ⟨held, .deactivated rfl (fun _ => Iff.rfl) (s.deactivated partition)⟩
  | handle notice =>
    cases notice with
    | activated partition =>
      obtain ⟨s', c, report, hc, hv⟩ := h.activate partition
      change ∃ held', s.Performed held (.handle (.activated partition))
        (s.activate partition).value.1 held'
      exact Performed.of_value (.called rfl (fun _ => not_false) not_false hc) hv
    | deactivated partition =>
      exact ⟨held, .deactivated rfl (fun _ => Iff.rfl) (s.deactivated partition)⟩
  | flushAll =>
    change ∃ held', s.Performed held .flushAll s.flushAll.value.1 held'
    exact Performed.of_value .flushedAll (value_flushAll s)
  | saveCache => exact ⟨held, .idle rfl (fun _ => not_false) h.saveCache rfl rfl (.inr ⟨_, rfl⟩)⟩

theorem flushed_registry (s : Storage σ) : s.flushed.registry = s.registry :=
  flushEach_invariant (p := fun t => t.registry = s.registry)
    (fun d h => d.registry.trans h) _ s rfl

theorem Performed.registry {operation : Operation} {s' : Storage σ} {held' : Block → Option Slot}
    (p : s.Performed held operation s' held') : s'.registry = s.registry := by
  cases p with
  | idle hr hf hh hreg hcache => exact hreg
  | called hr hf hs hc => exact hc.registry
  | edited hc ha | removed hc ha => exact ha.registry.trans hc.registry
  | saved hs hc ha => exact ha.registry.trans hc.registry
  | emptied hc ha => exact ha.registry
  | deactivated hr hf d => exact d.registry
  | flushedAll => exact flushed_registry s

theorem Performed.holds [Backing.Atomic σ] {operation : Operation} {s' : Storage σ}
    {held' : Block → Option Slot} (p : s.Performed held operation s' held') (h : s.Holds held) :
    s'.Holds held' := by
  cases p with
  | idle hr hf hh => exact hh
  | called hr hf hs hc => exact hc.holds
  | edited hc ha | removed hc ha | emptied hc ha => exact ha.holds
  | saved hs hc ha => exact ha.holds
  | deactivated hr hf d => exact d.holds h
  | flushedAll =>
    refine Holds.saveCache ?_
    exact flushEach_invariant (p := (Holds · held)) (fun d h => d.holds h) _ s h

/-- What commits and saved tables keep of a backing is kept by every call. -/
theorem Performed.backing_invariant {p : σ → Prop} {operation : Operation} {s' : Storage σ}
    {held' : Block → Option Slot}
    (hcommit : ∀ {b b' partition entries outcome},
      (Backing.commit b partition entries).value = (b', outcome) → p b → p b')
    (hsave : ∀ b table, p b → p (Backing.saveTable b table).value.1)
    (pf : s.Performed held operation s' held') (h : p s.backing) : p s'.backing := by
  cases pf with
  | idle hr hf hh hreg hcache hb =>
    rcases hb with hb | ⟨table, hb⟩
    · exact hb ▸ h
    · exact hb ▸ hsave _ table h
  | called hr hf hs hc => exact hc.backing ▸ h
  | edited hc ha | removed hc ha => exact (ha.backing.trans hc.backing) ▸ h
  | saved hs hc ha => exact (ha.backing.trans hc.backing) ▸ h
  | emptied hc ha => exact ha.backing ▸ h
  | deactivated hr hf d => exact d.backing_invariant hcommit h
  | flushedAll =>
    refine hsave _ _ (flushEach_invariant (p := (p ·.backing)) (fun d h => ?_) _ s h)
    exact d.backing_invariant hcommit h

end Storage

end MachineVault
