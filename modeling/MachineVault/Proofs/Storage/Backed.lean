import MachineVault.Proofs.Storage.Performing
import MachineVault.Proofs.Storage.Refreshing

/-! No pair of the identifier cache dangles. In every storage that grows out of an empty backing, the
chunk in memory or else the stored bytes have a record of each cached machine on its block. -/

namespace MachineVault

/-- A factory that gives the machine the identifier it was asked for, and no deeper state than can be
read back if it was given none. -/
def Factory.Careful (factory : Factory) : Prop :=
  ∀ {block id state m}, factory block id state = .ok m →
    m.id = id ∧ (state.depth ≤ Machine.depthLimit → m.state.depth ≤ Machine.depthLimit)

def Registry.Careful (r : Registry) : Prop :=
  ∀ {tag factory}, r.resolve? tag = some factory → factory.Careful

/-- The state of a slot can be read back. -/
def Slot.Shallow : Slot → Prop
  | live m => m.state.depth ≤ Machine.depthLimit
  | raw record => ∀ m, Machine.decode record.bytes = .ok m → m.state.depth ≤ Machine.depthLimit

/-- A call that gives no machine another identifier or a state too deep to be read back. -/
def Operation.Careful : Operation → Prop
  | save _ m => m.state.depth ≤ Machine.depthLimit
  | edit _ change => ∀ m, (change m).id = m.id ∧
      (m.state.depth ≤ Machine.depthLimit → (change m).state.depth ≤ Machine.depthLimit)
  | _ => True

theorem Registry.Careful.rebuild {r : Registry} (hr : r.Careful) {record m : Machine}
    (h : r.rebuild record = .ok m) : m.id = record.id ∧
      (record.state.depth ≤ Machine.depthLimit → m.state.depth ≤ Machine.depthLimit) := by
  unfold Registry.rebuild at h
  split at h
  · cases h
  · rename_i factory hf
    exact hr hf h

namespace Slot

theorem Shallow.stored {block : Block} {slot : Slot} (h : slot.Shallow) (hg : slot.Genuine block)
    (hl : (slot.encode block).length < 2 ^ 32) : ∃ record, slot.stored? block = some record ∧
      record.location = block ∧ record.id = slot.id ∧ record.state.depth ≤ Machine.depthLimit := by
  cases slot with
  | live m =>
    rw [stored?_live hl, if_pos (show m.state.depth ≤ _ from h)]
    exact ⟨_, rfl, rfl, rfl, h⟩
  | raw raw =>
    obtain ⟨state, hs⟩ := stored?_raw hg
    exact ⟨_, hs, rfl, rfl, h _ (stored?_eq_some.mp hs)⟩

/-- A slot that comes back is of the same machine. -/
theorem Shallow.reload {registry : Registry} {preserve : Bool} {block : Block} {slot slot' : Slot}
    (h : slot.Shallow) (hg : slot.Genuine block) (hl : (slot.encode block).length < 2 ^ 32)
    (hr : registry.Careful) (hs : slot.reload registry preserve block = some slot') :
    slot'.id = slot.id ∧ slot'.Shallow := by
  obtain ⟨record, hst, -, hi, hd⟩ := h.stored hg hl
  rw [Slot.reload, hst, Option.bind_some] at hs
  split at hs
  · rename_i m hm
    cases hs
    obtain ⟨hmi, hmd⟩ := hr.rebuild hm
    exact ⟨hmi.trans hi, hmd hd⟩
  · split at hs
    · cases hs
      refine ⟨hi, fun m hm => ?_⟩
      rw [stored?_eq_some.mp hst] at hm
      cases hm
      exact hd
    · cases hs

end Slot

namespace Storage

variable {σ : Type} [Backing σ] {s s' : Storage σ} {held held' : Block → Option Slot}
  {id : MachineId} {block : Block}

/-- A machine has a slot in memory on its block, or a stored record where nothing is in memory. -/
def Backed (s : Storage σ) (id : MachineId) (block : Block) : Prop :=
  match s.chunk? block.partition with
  | some c => ∃ slot, c.slot? block = some slot ∧ slot.id = id
  | none => ∃ data records,
      Backing.get s.backing block.partition s.config.dataTag = .ok (some data) ∧
      RecordList.decode data = .ok records ∧ ∃ bytes ∈ records, ∃ record,
        Machine.decode bytes = .ok record ∧ record.location = block ∧ record.id = id

/-- The slots a storage holds account for its cache, and all of them can be read back. -/
structure Accounts (s : Storage σ) (held : Block → Option Slot) : Prop where
  holds : s.Holds held
  careful : s.registry.Careful
  cached : ∀ {id block}, s.locationOf? id = some block →
    ∃ slot, held block = some slot ∧ slot.id = id
  shallow : ∀ {block slot}, held block = some slot → slot.Shallow

theorem Accounts.backed (h : s.Accounts held) (hl : s.locationOf? id = some block) :
    s.Backed id block := by
  obtain ⟨slot, hs, hi⟩ := h.cached hl
  unfold Backed
  cases hc : s.chunk? block.partition with
  | some c => exact ⟨slot, (h.holds.loaded hc).slot_eq_some.mpr ⟨rfl, hs⟩, hi⟩
  | none =>
    obtain ⟨c, -, ⟨index, data, he, -, hd⟩, hslot⟩ := h.holds.stored hc hs
    obtain ⟨record, hst, hb, hri, -⟩ := (h.shallow hs).stored (h.holds.genuine hs)
      (h.holds.length_lt hc hs)
    refine ⟨data, _, hd, (LoadedChunk.decode_encode he).2, _,
      List.mem_map.mpr ⟨_, LoadedChunk.mem_toList.mpr hslot, rfl⟩, record,
      Slot.stored?_eq_some.mp hst, hb, hri.trans hi⟩

/-- Calling for a partition costs the cache what cannot come back, and no more is lost. -/
theorem Accounts.called {partition : Partition} {c : LoadedChunk} (h : s.Accounts held)
    (hc : s.Called partition held s' c) : s'.Accounts (s.reloaded partition held) where
  holds := hc.holds
  careful := by
    rw [hc.registry]
    exact h.careful
  cached {id block} hl := by
    obtain ⟨hl, hn⟩ := (hc.cached id block).mp hl
    obtain ⟨slot, hs, hi⟩ := h.cached hl
    by_cases hb : block.partition = partition ∧ s.chunk? partition = none
    · obtain ⟨rfl, hu⟩ := hb
      rw [reloaded_of_unloaded hu rfl, hs, Option.bind_some]
      cases hr : slot.reload s.registry s.config.preserveUnknown block with
      | none => exact absurd ⟨rfl, hu, slot, hs, hr, .inr hi⟩ hn
      | some slot' =>
        have hr := (h.shallow hs).reload (h.holds.genuine hs) (h.holds.length_lt hu hs) h.careful hr
        exact ⟨slot', rfl, hr.1.trans hi⟩
    · rw [reloaded, if_neg hb]
      exact ⟨slot, hs, hi⟩
  shallow {block slot} hs := by
    by_cases hb : block.partition = partition ∧ s.chunk? partition = none
    · obtain ⟨rfl, hu⟩ := hb
      rw [reloaded_of_unloaded hu rfl] at hs
      obtain ⟨slot', hs, hr⟩ := Option.bind_eq_some_iff.mp hs
      exact ((h.shallow hs).reload (h.holds.genuine hs) (h.holds.length_lt hu hs) h.careful hr).2
    · rw [reloaded, if_neg hb] at hs
      exact h.shallow hs

theorem Accounts.edited {change : Machine → Machine} (h : s.Accounts held)
    (ha : s.Amends (editSlot held block change) s') (hcache : s'.cache = s.cache)
    (hcare : ∀ m, (change m).id = m.id ∧
      (m.state.depth ≤ Machine.depthLimit → (change m).state.depth ≤ Machine.depthLimit)) :
    s'.Accounts (editSlot held block change) where
  holds := ha.holds
  careful := ha.registry ▸ h.careful
  cached {id block'} hl := by
    rw [locationOf?, hcache] at hl
    obtain ⟨slot, hs, hi⟩ := h.cached hl
    rcases editSlot_eq_or held block change block' with he | ⟨m, rfl, hm, he⟩
    · exact ⟨slot, he.trans hs, hi⟩
    · rw [hm] at hs
      cases hs
      exact ⟨_, he, (hcare m).1.trans hi⟩
  shallow {block' slot} hs := by
    rcases editSlot_eq_or held block change block' with he | ⟨m, rfl, hm, he⟩
    · exact h.shallow (he.symm.trans hs)
    · rw [he] at hs
      cases hs
      exact (hcare m).2 (h.shallow hm)

theorem Accounts.saved {m : Machine} (h : s.Accounts held) (ha : s.Amends held' s')
    (hself : held' block = some (.live m))
    (hothers : ∀ block', block' ≠ block → held' block' = held block' ∨
      held' block' = none ∧ s.locationOf? m.id = some block' ∧
        ∃ m', held block' = some (.live m') ∧ m'.id = m.id)
    (hcache : s'.cache = s.cache.insert m.id block) (hcare : m.state.depth ≤ Machine.depthLimit) :
    s'.Accounts held' where
  holds := ha.holds
  careful := ha.registry ▸ h.careful
  cached {id block'} hl := by
    rw [locationOf?, hcache] at hl
    rcases IdentifierCache.locationOf?_insert_eq_some.mp hl with ⟨rfl, rfl⟩ | ⟨hi, hb, hl⟩
    · exact ⟨_, hself, rfl⟩
    · obtain ⟨slot, hs, hsi⟩ := h.cached hl
      rcases hothers block' hb with he | ⟨-, -, m', hm', hmi⟩
      · exact ⟨slot, he.trans hs, hsi⟩
      · rw [hm'] at hs
        cases hs
        exact absurd (hsi.symm.trans hmi) hi
  shallow {block' slot} hs := by
    by_cases hb : block' = block
    · subst hb
      rw [hself] at hs
      cases hs
      exact hcare
    · rcases hothers block' hb with he | ⟨he, -⟩
      · exact h.shallow (he.symm.trans hs)
      · rw [he] at hs
        cases hs

theorem Accounts.removed (h : s.Accounts held) (ha : s.Amends (setSlot held block none) s')
    (hcache : s'.cache = s.cache.eraseBlock block) : s'.Accounts (setSlot held block none) where
  holds := ha.holds
  careful := ha.registry ▸ h.careful
  cached {id block'} hl := by
    rw [locationOf?, hcache] at hl
    obtain ⟨hb, hl⟩ := IdentifierCache.locationOf?_eraseBlock_eq_some.mp hl
    obtain ⟨slot, hs, hi⟩ := h.cached hl
    exact ⟨slot, (setSlot_of_ne hb).trans hs, hi⟩
  shallow {block' slot} hs := by
    by_cases hb : block' = block
    · subst hb
      rw [setSlot_self] at hs
      cases hs
    · exact h.shallow ((setSlot_of_ne hb).symm.trans hs)

theorem Accounts.emptied {partition : Partition} (h : s.Accounts held)
    (ha : s.Amends (clearSlots held partition) s')
    (hcached : ∀ id block, s'.locationOf? id = some block ↔
      s.locationOf? id = some block ∧ block.partition ≠ partition) :
    s'.Accounts (clearSlots held partition) where
  holds := ha.holds
  careful := ha.registry ▸ h.careful
  cached {id block} hl := by
    obtain ⟨hl, hb⟩ := (hcached id block).mp hl
    obtain ⟨slot, hs, hi⟩ := h.cached hl
    exact ⟨slot, (if_neg hb).trans hs, hi⟩
  shallow {block slot} hs := by
    unfold clearSlots at hs
    split at hs
    · cases hs
    · exact h.shallow hs

theorem Accounts.deactivated [Backing.Atomic σ] {partition : Partition}
    {outcome : Except Error (Option FlushReport)} (h : s.Accounts held)
    (d : s.Deactivated partition s' outcome) : s'.Accounts held where
  holds := d.holds h.holds
  careful := d.registry ▸ h.careful
  cached {id block} hl := by
    rw [locationOf?] at hl
    rcases d.cache with ⟨-, hcache⟩ | ⟨c, hc, hcache⟩
    · rw [hcache] at hl
      exact h.cached hl
    · rw [hcache, refreshed_eq] at hl
      rcases cached_of_refreshEach hl with hl | hm
      · exact h.cached hl
      · obtain ⟨slot, hs, hi⟩ := LoadedChunk.mem_holdings.mp hm
        exact ⟨slot, ((h.holds.loaded hc).slot_eq_some.mp hs).2, hi⟩
  shallow := h.shallow

theorem Accounts.flushed [Backing.Atomic σ] (h : s.Accounts held) : s.flushed.Accounts held :=
  flushEach_invariant (p := (Accounts · held)) (fun d h => h.deactivated d) _ s h

/-- Every careful call leaves a storage that accounts for its cache. -/
theorem Accounts.performed [Backing.Atomic σ] (h : s.Accounts held) {operation : Operation}
    (p : s.Performed held operation s' held') (hcare : operation.Careful) : s'.Accounts held' := by
  cases p with
  | idle hr hf hh hreg hcache =>
    refine ⟨hh, hreg ▸ h.careful, fun {id block} hl => ?_, h.shallow⟩
    rw [locationOf?, hcache] at hl
    exact h.cached hl
  | called hr hf hs hc => exact h.called hc
  | edited hc ha hcache => exact (h.called hc).edited ha hcache hcare
  | saved hs hc ha hself hothers hcache => exact (h.called hc).saved ha hself hothers hcache hcare
  | removed hc ha hcache => exact (h.called hc).removed ha hcache
  | emptied hc ha hcached => exact h.emptied ha hcached
  | deactivated hr hf d => exact h.deactivated d
  | flushedAll =>
    have h' := h.flushed
    exact ⟨h'.holds.saveCache, h'.careful, h'.cached, h'.shallow⟩

theorem start_eq_ok {config : Config} {registry : Registry} {backing : σ} :
    (start config registry backing).value = .ok s ↔ config.validate = .ok () ∧
      ∃ table, Backing.loadTable backing = .ok table ∧
        s = { config, registry, backing, cache := (IdentifierCache.ofStored table).value } := by
  unfold start
  split
  · rename_i he
    simp [he]
  · rename_i he
    simp [he]
  · rename_i table hv ht
    simp [hv, ht, eq_comm]

theorem tags_of_validate {config : Config} (h : config.validate = .ok ()) :
    config.indexTag ≠ config.dataTag := by
  intro he
  unfold Config.validate at h
  rw [if_pos he] at h
  split at h <;> cases h

/-- A storage that starts on an empty backing holds nothing. -/
theorem holds_start {config : Config} {registry : Registry} {backing : σ}
    (hb : Backing.Empty backing) (h : (start config registry backing).value = .ok s) :
    s.Holds (fun _ => none) ∧ s.registry = registry ∧ s.cache = .empty := by
  obtain ⟨hv, table, ht, rfl⟩ := start_eq_ok.mp h
  rw [hb.2] at ht
  cases ht
  refine ⟨⟨tags_of_validate hv, fun {partition c} hc => ?_, fun {partition c} hc => ?_,
    fun _ => .inl ⟨⟨hb.1 .., hb.1 ..⟩, fun _ _ => rfl⟩, nofun⟩, rfl, rfl⟩
  · rw [chunk?, Std.ExtTreeMap.getElem?_empty] at hc
    cases hc
  · rw [chunk?, Std.ExtTreeMap.getElem?_empty] at hc
    cases hc

/-- A storage that starts where everything has been flushed holds what was held there, and knows
where the machines are. -/
theorem Holds.restart [Backing.Atomic σ] [Backing.Recalls σ] {t : Storage σ} {config : Config}
    {registry : Registry} (h : s.flushed.Holds held) (hf : s.flushAll.value = (s', .ok ()))
    (hi : config.indexTag = s.flushed.config.indexTag)
    (hd : config.dataTag = s.flushed.config.dataTag)
    (hs : (start config registry s'.backing).value = .ok t) :
    t.Holds held ∧ t.registry = registry ∧ t.cache = s.flushed.cache := by
  obtain ⟨hnone, hsave⟩ := flushAll_ok hf
  obtain ⟨-, table, ht, rfl⟩ := start_eq_ok.mp hs
  rw [value_saveCache] at hsave
  obtain ⟨rfl, ho⟩ := Prod.mk.inj hsave
  have hrec := Backing.Recalls.recalled (Prod.ext rfl ho)
  rw [show Backing.loadTable _ = _ from ht] at hrec
  cases hrec
  refine ⟨h.congr ⟨hi, hd⟩ (Backing.Atomic.saved ..) fun partition => ?_, rfl,
    IdentifierCache.ofTable_toTable _⟩
  rw [hnone, chunk?, Std.ExtTreeMap.getElem?_empty]

/-- The storages that grow out of an empty backing, by careful calls and by starting again where
everything has just been flushed. A restart may bring other factories and settings, but the tags
stay. -/
inductive Reached : Storage σ → Prop
  | start {config : Config} {registry : Registry} {backing : σ} {s : Storage σ}
      (hb : Backing.Empty backing) (hr : registry.Careful)
      (hs : (start config registry backing).value = .ok s) : Reached s
  | perform {s : Storage σ} {operation : Operation} (h : Reached s) (ho : operation.Careful) :
      Reached (s.after [operation])
  | restart {s s' t : Storage σ} {config : Config} {registry : Registry} (h : Reached s)
      (hf : s.flushAll.value = (s', .ok ())) (hr : registry.Careful)
      (hi : config.indexTag = s.config.indexTag) (hd : config.dataTag = s.config.dataTag)
      (hs : (Storage.start config registry s'.backing).value = .ok t) : Reached t

theorem Reached.after {operations : List Operation} {s : Storage σ} (h : s.Reached)
    (ho : ∀ operation ∈ operations, operation.Careful) : (s.after operations).Reached := by
  induction operations generalizing s with
  | nil => exact h
  | cons operation rest ih =>
    rw [after_cons]
    exact ih (h.perform (ho operation List.mem_cons_self)) fun o hm =>
      ho o (List.mem_cons_of_mem _ hm)

theorem flushed_config (s : Storage σ) : s.flushed.config = s.config :=
  flushEach_invariant (p := fun t => t.config = s.config) (fun d h => d.config.trans h) _ s rfl

theorem Reached.accounts [Backing.Atomic σ] [Backing.Recalls σ] (h : s.Reached) :
    ∃ held, s.Accounts held := by
  induction h with
  | start hb hr hs =>
    obtain ⟨hh, hreg, hcache⟩ := holds_start hb hs
    refine ⟨_, hh, hreg ▸ hr, fun {id block} hl => ?_, nofun⟩
    rw [locationOf?, hcache, IdentifierCache.locationOf?_empty] at hl
    cases hl
  | perform h ho ih =>
    obtain ⟨held, ih⟩ := ih
    obtain ⟨held', p⟩ := ih.holds.performed _
    exact ⟨held', ih.performed p ho⟩
  | @restart s _ _ _ _ h hf hr hi hd hs ih =>
    obtain ⟨held, ih⟩ := ih
    have hconf := flushed_config s
    have hi := hi.trans (congrArg Config.indexTag hconf).symm
    have hd := hd.trans (congrArg Config.dataTag hconf).symm
    obtain ⟨hh, hreg, hcache⟩ := ih.flushed.holds.restart hf hi hd hs
    refine ⟨held, hh, hreg ▸ hr, fun {id block} hl => ?_, ih.shallow⟩
    rw [locationOf?, hcache] at hl
    exact ih.flushed.cached hl

/-- In every storage that has grown out of an empty backing, each cached pair is backed. -/
theorem backed_of_reached [Backing.Atomic σ] [Backing.Recalls σ] (h : s.Reached)
    (hl : s.locationOf? id = some block) : s.Backed id block := by
  obtain ⟨held, ha⟩ := h.accounts
  exact ha.backed hl

theorem eq_ok_of_isOk {ε : Type} {outcome : Except ε Unit} (h : outcome.isOk) :
    outcome = .ok () := by
  obtain ⟨⟨⟩, h⟩ := exists_of_isOk h
  exact h

/-- A registry with one factory, which gives back what was recorded. -/
def sampleRegistry : Registry :=
  ⟨(∅ : Std.ExtTreeMap String Factory).insert "furnace" (.verbatim "furnace")⟩

theorem careful_sampleRegistry : sampleRegistry.Careful := by
  intro tag factory h
  rw [Registry.resolve?, sampleRegistry, getElem?_insert, Std.ExtTreeMap.getElem?_empty] at h
  split at h
  · cases h
    intro block id state m hx
    cases hx
    exact ⟨rfl, fun hd => hd⟩
  · cases h

/-- A storage over empty memory. -/
def sampleStorage : Storage (Refusing Memory) where
  config := {}
  registry := sampleRegistry
  backing := ⟨{}, []⟩
  cache := .empty

/-- The storage that starts over other memory. -/
def startedOver (backing : Refusing Memory) : Storage (Refusing Memory) :=
  { sampleStorage with backing, cache := (IdentifierCache.ofStored backing.inner.table.table).value }

theorem start_startedOver (backing : Refusing Memory) :
    (start {} sampleRegistry backing).value = .ok (startedOver backing) :=
  start_eq_ok.mpr ⟨rfl, _, rfl, rfl⟩

def sampleMachine : Machine := ⟨.ofRandom 1, "furnace", ⟨"world", 8, 5, 8⟩, .null⟩

/-- The sample machine is saved, and its partition is flushed. -/
def sampleRun : List Operation :=
  [.save sampleMachine.location.corner sampleMachine, .deactivate sampleMachine.location.partition]

theorem backed_after_sampleRun :
    (sampleStorage.after sampleRun).locationOf? sampleMachine.id = some sampleMachine.location ∧
      (sampleStorage.after sampleRun).Backed sampleMachine.id sampleMachine.location := by
  have hs : (start {} sampleRegistry (⟨{}, []⟩ : Refusing Memory)).value = .ok sampleStorage := rfl
  have hstart := Reached.start (Refusing.empty Memory.empty []) careful_sampleRegistry hs
  have hcare : ∀ operation ∈ sampleRun, operation.Careful := by
    intro operation h
    rcases h with _ | ⟨_, _ | ⟨_, ⟨⟩⟩⟩
    · exact Nat.zero_le _
    · trivial
  have hl : (sampleStorage.after sampleRun).locationOf? sampleMachine.id =
      some sampleMachine.location := by rfl
  exact ⟨hl, backed_of_reached (hstart.after hcare) hl⟩

end Storage

end MachineVault
