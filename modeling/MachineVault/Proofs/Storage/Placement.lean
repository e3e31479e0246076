import MachineVault.Proofs.Storage.Backed
import MachineVault.Proofs.Storage.Verbatim

/-! How long the cache places a machine where it was last saved. Two things end it: a flush of its
partition with an older copy on a later block in memory, and a load of its partition from bytes in
which its record cannot be read. -/

namespace MachineVault

/-- A call that does not take a machine off a block: it is saved nowhere else, nothing else is saved
there, and nothing is removed there. A save that is refused is none. -/
def Operation.Respects (id : MachineId) (block : Block) : Operation → Prop
  | save location m =>
    Storage.checkSaveable location.block m = .ok () → (m.id = id ↔ location.block = block)
  | remove location => location.block ≠ block
  | _ => True

namespace Storage

variable {σ : Type}

/-- A chunk in memory holds the machine on a later block of the partition as well. -/
def HoldsLater (s : Storage σ) (id : MachineId) (block : Block) : Prop :=
  ∃ c, s.chunk? block.partition = some c ∧
    ∃ block' m, compare block block' = .lt ∧ c.machine? block' = some m ∧ m.id = id

/-- The cache places the machine on the block. -/
def Placed (s : Storage σ) (id : MachineId) (location : Location) : Prop :=
  s.locationOf? id = some location.block ∧ s.idOf? location = some id

/-- A flush places a machine on the last of the blocks that hold it. -/
theorem locationOf?_refreshed {cache : IdentifierCache} {id : MachineId} {block : Block}
    {c : LoadedChunk} {m : Machine} (hl : cache.locationOf? id = some block)
    (hm : c.machine? block = some m) (hi : m.id = id)
    (hc : ∀ {block' slot}, c.slot? block' = some slot →
      block'.partition = block.partition ∧ ∃ m, slot = .live m) :
    ∃ block' m', (refreshed cache c).locationOf? id = some block' ∧ c.machine? block' = some m' ∧
      m'.id = id ∧ ∀ {other m''}, c.machine? other = some m'' → m''.id = id →
        compare block' other ≠ .lt := by
  have hraw : c.rawRecords = [] := LoadedChunk.rawRecords_eq_nil fun hs => (hc hs).2
  have hmem {b m} : (b, m) ∈ c.machines ↔ c.machine? b = some m :=
    LoadedChunk.mem_machines.trans LoadedChunk.machine?_eq_some.symm
  obtain ⟨before, ⟨b, m'⟩, after, heq, hm', hafter⟩ :=
    exists_last (p := fun e : Block × Machine => e.2.id = id) (hmem.mpr hm) hi
  dsimp only at hm'
  subst hm'
  -- the machines are in ascending order, so no block after this one holds the identifier
  have ha := c.ascending_machines
  rw [heq] at ha
  have hcb : c.machine? b = some m' := hmem.mp (heq ▸ List.mem_append_right _ List.mem_cons_self)
  have hpart {b' m''} (h : c.machine? b' = some m'') : b'.partition = b.partition := by
    rw [(hc (LoadedChunk.machine?_eq_some.mp h)).1, (hc (LoadedChunk.machine?_eq_some.mp hcb)).1]
  refine ⟨b, m', ?_, hcb, rfl, fun {other m''} ho hio hlt => ?_⟩
  · rw [refreshed_eq, holdings, hraw, heq, List.map_nil, List.append_nil, List.map_append,
      List.map_cons]
    refine refreshEach_last ?_ ?_ ?_ ?_
    · intro e he
      obtain ⟨⟨b', m''⟩, hb', rfl⟩ := List.mem_map.mp he
      exact hpart (hmem.mp (heq ▸ List.mem_append_left _ hb'))
    · intro block' hb'
      rw [hl] at hb'
      cases hb'
      exact hpart hm
    · intro e he
      obtain ⟨⟨b', m''⟩, hb', rfl⟩ := List.mem_map.mp he
      exact hafter _ hb'
    · intro e he
      obtain ⟨⟨b', m''⟩, hb', rfl⟩ := List.mem_map.mp he
      have hlt := (List.pairwise_cons.mp (List.pairwise_append.mp ha).2.1).1 _ hb'
      rintro rfl
      exact Std.OrientedCmp.not_lt_of_lt hlt hlt
  · have hmo := hmem.mpr ho
    rw [heq] at hmo
    rcases List.mem_append.mp hmo with hb | hb
    · have hlt' := (List.pairwise_append.mp ha).2.2 _ hb _ List.mem_cons_self
      exact Std.OrientedCmp.not_lt_of_lt hlt hlt'
    · rcases List.mem_cons.mp hb with heq | hb
      · cases heq
        exact Std.OrientedCmp.not_lt_of_lt hlt hlt
      · exact hafter _ hb hio

variable [Backing σ] {s s' : Storage σ} {held : Block → Option Slot} {id : MachineId} {block : Block}
  {partition : Partition}

/-- A call that ends the placement of a machine: it flushes the partition while an older copy on a
later block is in memory, or it reads the partition while the record of the machine is unreadable. -/
def Displaces (s : Storage σ) (id : MachineId) (block : Block) (operation : Operation) : Prop :=
  (operation.flushes block.partition ∧ s.HoldsLater id block) ∨
    (s.reads? operation = some block.partition ∧
      (∀ location m, operation = .save location m → location.block ≠ block) ∧
      s.chunk? block.partition = none ∧ ¬ s.Backed id block)

/-- A machine stands where the cache places it. -/
structure Keeps (s : Storage σ) (held : Block → Option Slot) (id : MachineId) (block : Block) :
    Prop where
  holds : s.Holds held
  lives : Lives s.registry held
  cached : s.locationOf? id = some block
  stands : ∃ m, held block = some (.live m) ∧ m.id = id

theorem Keeps.placed {location : Location} (k : s.Keeps held id location.block) :
    s.Placed id location :=
  ⟨k.cached, IdentifierCache.idAt?_eq_some.mpr k.cached⟩

/-- A stored machine is backed unless its state is too deep to be read. -/
theorem Keeps.backed_iff {m : Machine} (k : s.Keeps held id block)
    (hc : s.chunk? block.partition = none) (hm : held block = some (.live m)) (hi : m.id = id) :
    s.Backed id block ↔ m.state.depth ≤ Machine.depthLimit := by
  have hl := k.holds.length_lt hc hm
  obtain ⟨c, hs, ⟨index, data, he, -, hd⟩, hslot⟩ := k.holds.stored hc hm
  have hrecords := (LoadedChunk.decode_encode he).2
  unfold Backed
  rw [hc]
  constructor
  · intro h
    rcases h with ⟨data', records, hd', hr, bytes, hb, record, hrec, hloc, -⟩
    rw [hd] at hd'
    cases hd'
    rw [hrecords] at hr
    cases hr
    obtain ⟨⟨b, slot⟩, hmem, rfl⟩ := List.mem_map.mp hb
    have hslot' := LoadedChunk.mem_toList.mp hmem
    have hb := ((hs.sound k.holds.genuine).genuine hslot').of_stored
      (LoadedChunk.length_lt_of_encode he hslot') (Slot.stored?_eq_some.mpr hrec)
    have heq : b = block := hb.1.symm.trans hloc
    subst heq
    rw [hslot] at hslot'
    cases hslot'
    have hst := Slot.stored?_eq_some.mpr hrec
    rw [Slot.stored?_live hl] at hst
    split at hst
    · assumption
    · cases hst
  · intro hdepth
    refine ⟨data, _, hd, hrecords, _, List.mem_map.mpr ⟨_, LoadedChunk.mem_toList.mpr hslot, rfl⟩,
      { m with location := block }, ?_, rfl, hi⟩
    rw [← Slot.stored?_eq_some, Slot.stored?_live hl, if_pos hdepth]

/-- A machine whose record can be read, or is not read, stands where it stood. -/
theorem Keeps.called {c : LoadedChunk} (k : s.Keeps held id block)
    (hc : s.Called partition held s' c)
    (hb : partition = block.partition → s.chunk? partition = none → s.Backed id block) :
    s'.Keeps (s.reloaded partition held) id block := by
  obtain ⟨m, hm, hi⟩ := k.stands
  have hstands : ∃ m', s.reloaded partition held block = some (.live m') ∧ m'.id = id := by
    by_cases hp : block.partition = partition ∧ s.chunk? partition = none
    · obtain ⟨rfl, hu⟩ := hp
      rw [k.lives.reloaded_live k.holds hu hm, if_pos ((k.backed_iff hu hm hi).mp (hb rfl hu))]
      exact ⟨_, rfl, hi⟩
    · rw [reloaded, if_neg hp]
      exact ⟨m, hm, hi⟩
  refine ⟨hc.holds, hc.registry ▸ k.lives.reloaded k.holds,
    (hc.cached id block).mpr ⟨k.cached, ?_⟩, hstands⟩
  intro h
  rcases h with ⟨rfl, hu, slot, hs, hr, -⟩
  obtain ⟨m', hm', -⟩ := hstands
  rw [reloaded_of_unloaded hu rfl, hs, Option.bind_some, hr] at hm'
  cases hm'

/-- A machine whose record cannot be read is forgotten when its partition is. -/
theorem Keeps.forgotten {c : LoadedChunk} (k : s.Keeps held id block)
    (hc : s.Called block.partition held s' c) (hu : s.chunk? block.partition = none)
    (hb : ¬ s.Backed id block) : s'.locationOf? id = none := by
  obtain ⟨m, hm, hi⟩ := k.stands
  refine Option.eq_none_iff_forall_ne_some.mpr fun block' hl => ?_
  obtain ⟨hl, hn⟩ := (hc.cached id block').mp hl
  rw [k.cached] at hl
  cases hl
  refine hn ⟨rfl, hu, _, hm, ?_, .inr hi⟩
  have hr := k.lives.reloaded_live k.holds hu hm
  rw [if_neg fun hd => hb ((k.backed_iff hu hm hi).mpr hd)] at hr
  rw [reloaded_of_unloaded hu rfl, hm, Option.bind_some] at hr
  exact hr

/-- After a call the machine stands where it stood, unless the call displaces it. -/
def Settles (s : Storage σ) (id : MachineId) (block : Block) (operation : Operation)
    (s' : Storage σ) : Prop :=
  (s.Displaces id block operation → s'.locationOf? id ≠ some block) ∧
    (¬ s.Displaces id block operation → ∃ held', s'.Keeps held' id block)

/-- A call that reads a partition settles a machine if it keeps what the reading has left of it. -/
theorem Keeps.settles_of_reads {s₁ : Storage σ} {c : LoadedChunk} {operation : Operation}
    (k : s.Keeps held id block) (hc : s.Called partition held s₁ c)
    (hr : s.reads? operation = some partition) (hf : ¬ operation.flushes block.partition)
    (hs : ∀ location m, operation = .save location m → location.block ≠ block)
    (hlost : s₁.locationOf? id = none → s'.locationOf? id = none)
    (hkept : s₁.Keeps (s.reloaded partition held) id block → ∃ held', s'.Keeps held' id block) :
    s.Settles id block operation s' := by
  constructor
  · intro h
    rcases h with ⟨hf', -⟩ | ⟨hr', -, hu, hb⟩
    · exact absurd hf' hf
    · rw [hr] at hr'
      cases hr'
      rw [hlost (k.forgotten hc hu hb)]
      exact nofun
  · intro hd
    refine hkept (k.called hc fun hp hu => ?_)
    subst hp
    by_cases hb : s.Backed id block
    · exact hb
    · exact absurd (.inr ⟨hr, hs, hu, hb⟩) hd

theorem Keeps.edited {change : Machine → Machine} {block' : Block} (k : s.Keeps held id block)
    (ha : s.Amends (editSlot held block' change) s') (hcache : s'.cache = s.cache)
    (hv : ∀ m, (change m).id = m.id ∧ (change m).typeTag = m.typeTag) :
    s'.Keeps (editSlot held block' change) id block where
  holds := ha.holds
  lives := ha.registry ▸ k.lives.editSlot fun m => (hv m).2
  cached := by
    rw [locationOf?, hcache]
    exact k.cached
  stands := by
    obtain ⟨m, hm, hi⟩ := k.stands
    rcases editSlot_eq_or held block' change block with he | ⟨m', rfl, hm', he⟩
    · exact ⟨m, he.trans hm, hi⟩
    · rw [hm] at hm'
      cases hm'
      exact ⟨_, he, (hv m).1.trans hi⟩

theorem Keeps.removed {block' : Block} (k : s.Keeps held id block) (hne : block' ≠ block)
    (ha : s.Amends (setSlot held block' none) s') (hcache : s'.cache = s.cache.eraseBlock block') :
    s'.Keeps (setSlot held block' none) id block where
  holds := ha.holds
  lives := ha.registry ▸ k.lives.setSlot nofun
  cached := by
    rw [locationOf?, hcache, IdentifierCache.locationOf?_eraseBlock_eq_some]
    exact ⟨Ne.symm hne, k.cached⟩
  stands := by
    obtain ⟨m, hm, hi⟩ := k.stands
    exact ⟨m, (setSlot_of_ne (Ne.symm hne)).trans hm, hi⟩

/-- A machine that has just been saved stands on its block. -/
theorem Keeps.of_saved {s₁ : Storage σ} {c : LoadedChunk} {held' : Block → Option Slot} {m : Machine}
    (hh : s.Holds held) (hl : Lives s.registry held) (hv : s.registry.RebuildsVerbatim m.typeTag)
    (hc : s.Called partition held s₁ c) (ha : s₁.Amends held' s')
    (hself : held' block = some (.live m))
    (hothers : ∀ other, other ≠ block → held' other = s.reloaded partition held other ∨
      held' other = none ∧ s₁.locationOf? m.id = some other ∧
        ∃ m', s.reloaded partition held other = some (.live m') ∧ m'.id = m.id)
    (hcache : s'.cache = s₁.cache.insert m.id block) (hi : m.id = id) :
    s'.Keeps held' id block where
  holds := ha.holds
  lives := by
    rw [ha.registry, hc.registry]
    exact (hl.reloaded hh).saved hv hself fun other ho => (hothers other ho).imp_right And.left
  cached := by
    rw [locationOf?, hcache, IdentifierCache.locationOf?_insert, if_pos hi.symm]
  stands := ⟨m, hself, hi⟩

/-- Another machine is saved on another block. -/
theorem Keeps.saved_other {held' : Block → Option Slot} {block' : Block} {m : Machine}
    (k : s.Keeps held id block) (hi : id ≠ m.id) (hne : block' ≠ block)
    (hv : s.registry.RebuildsVerbatim m.typeTag) (ha : s.Amends held' s')
    (hself : held' block' = some (.live m))
    (hothers : ∀ other, other ≠ block' → held' other = held other ∨
      held' other = none ∧ s.locationOf? m.id = some other ∧
        ∃ m', held other = some (.live m') ∧ m'.id = m.id)
    (hcache : s'.cache = s.cache.insert m.id block') : s'.Keeps held' id block where
  holds := ha.holds
  lives := by
    rw [ha.registry]
    exact k.lives.saved hv hself fun other ho => (hothers other ho).imp_right And.left
  cached := by
    rw [locationOf?, hcache, IdentifierCache.locationOf?_insert_eq_some]
    exact .inr ⟨hi, Ne.symm hne, k.cached⟩
  stands := by
    obtain ⟨m', hm', hi'⟩ := k.stands
    rcases hothers block (Ne.symm hne) with he | ⟨-, -, m'', hm'', hi''⟩
    · exact ⟨m', he.trans hm', hi'⟩
    · rw [hm'] at hm''
      cases hm''
      exact absurd (hi'.symm.trans hi'') hi

/-- The chunk of a partition holds machines of that partition only. -/
theorem Keeps.chunk_live {c : LoadedChunk} (k : s.Keeps held id block)
    (hc : s.chunk? partition = some c) {block' : Block} {slot : Slot}
    (hs : c.slot? block' = some slot) : block'.partition = partition ∧ ∃ m, slot = .live m := by
  obtain ⟨hp, hs⟩ := (k.holds.loaded hc).slot_eq_some.mp hs
  obtain ⟨m, hm, -⟩ := k.lives _ _ hs
  exact ⟨hp, m, hm⟩

variable {outcome : Except Error (Option FlushReport)}

theorem Keeps.with_cached [Backing.Atomic σ] (k : s.Keeps held id block)
    (d : s.Deactivated partition s' outcome) (hl : s'.locationOf? id = some block) :
    s'.Keeps held id block :=
  ⟨d.holds k.holds, d.registry ▸ k.lives, hl, k.stands⟩

/-- The flush of another partition leaves a machine alone, even if it finds a copy there. -/
theorem Keeps.deactivated_other [Backing.Atomic σ] (k : s.Keeps held id block)
    (d : s.Deactivated partition s' outcome) (hne : partition ≠ block.partition) :
    s'.Keeps held id block := by
  refine k.with_cached d ?_
  rw [locationOf?]
  rcases d.cache with ⟨-, hcache⟩ | ⟨c, hc, hcache⟩
  · rw [hcache]
    exact k.cached
  · have hp : ∀ e ∈ holdings c, e.2.partition = partition := by
      intro pair he
      rcases pair with ⟨i, b⟩
      obtain ⟨slot, hs, -⟩ := LoadedChunk.mem_holdings.mp he
      exact (k.chunk_live hc hs).1
    rw [hcache, refreshed_eq]
    refine refreshEach_keeps (fun e he _ => .inr ?_) (fun e he hb => absurd ?_ hne) k.cached
    · rw [hp e he]
      exact hne
    · rw [← hp e he, hb]

/-- The flush of its own partition leaves a machine alone exactly if no later block holds a copy. -/
theorem Keeps.deactivated_self [Backing.Atomic σ] (k : s.Keeps held id block)
    (d : s.Deactivated block.partition s' outcome) :
    (s.HoldsLater id block → s'.locationOf? id ≠ some block) ∧
      (¬ s.HoldsLater id block → s'.Keeps held id block) := by
  rcases d.cache with ⟨hc, hcache⟩ | ⟨c, hc, hcache⟩
  · refine ⟨?_, fun _ => k.with_cached d ?_⟩
    · intro h
      rcases h with ⟨c, hc', -⟩
      rw [hc] at hc'
      cases hc'
    · rw [locationOf?, hcache]
      exact k.cached
  · obtain ⟨m, hm, hi⟩ := k.stands
    have hcm : c.machine? block = some m :=
      LoadedChunk.machine?_eq_some.mpr ((k.holds.loaded hc).slot_eq_some.mpr ⟨rfl, hm⟩)
    obtain ⟨last, m', hl, hm', hi', hmax⟩ := locationOf?_refreshed k.cached hcm hi (k.chunk_live hc)
    rw [← hcache] at hl
    constructor
    · intro h hb
      rcases h with ⟨_, hc', later, m'', hlt, hm'', hi''⟩
      rw [hc] at hc'
      cases hc'
      cases hl.symm.trans hb
      exact hmax hm'' hi'' hlt
    · intro hn
      refine k.with_cached d (hl.trans (congrArg some ?_))
      cases hcmp : compare last block with
      | lt => exact absurd hcmp (hmax hcm hi)
      | eq => exact Std.LawfulEqOrd.eq_of_compare hcmp
      | gt => exact absurd ⟨c, hc, last, m', Std.OrientedCmp.lt_of_gt hcmp, hm', hi'⟩ hn

/-- The flush of other partitions puts a machine on no block of this one. -/
theorem not_cached_of_deactivated_other (hh : s.Holds held) (d : s.Deactivated partition s' outcome)
    (hne : partition ≠ block.partition) (hl : s.locationOf? id ≠ some block) :
    s'.locationOf? id ≠ some block := by
  intro hl'
  rw [locationOf?] at hl'
  rcases d.cache with ⟨-, hcache⟩ | ⟨c, hc, hcache⟩
  · rw [hcache] at hl'
    exact hl hl'
  · rw [hcache, refreshed_eq] at hl'
    rcases cached_of_refreshEach hl' with hl' | hm
    · exact hl hl'
    · obtain ⟨slot, hs, -⟩ := LoadedChunk.mem_holdings.mp hm
      exact hne ((hh.loaded hc).slot_eq_some.mp hs).1.symm

theorem not_cached_of_flushEach [Backing.Atomic σ] {partitions : List Partition} (hh : s.Holds held)
    (hm : block.partition ∉ partitions) (hl : s.locationOf? id ≠ some block) :
    (s.flushEach partitions).value.1.locationOf? id ≠ some block := by
  induction partitions generalizing s with
  | nil => exact hl
  | cons partition rest ih =>
    rw [List.mem_cons, not_or] at hm
    have d := s.deactivated partition
    rw [value_flushEach_cons]
    exact ih (d.holds hh) hm.2 (not_cached_of_deactivated_other hh d (Ne.symm hm.1) hl)

/-- The flush of several partitions, each of them once. -/
theorem Keeps.flushEach [Backing.Atomic σ] {partitions : List Partition} {s : Storage σ}
    (k : s.Keeps held id block) (hnodup : partitions.Nodup) :
    (block.partition ∈ partitions → s.HoldsLater id block →
      (s.flushEach partitions).value.1.locationOf? id ≠ some block) ∧
    (¬ (block.partition ∈ partitions ∧ s.HoldsLater id block) →
      (s.flushEach partitions).value.1.Keeps held id block) := by
  induction partitions generalizing s with
  | nil => exact ⟨fun hm => absurd hm List.not_mem_nil, fun _ => k⟩
  | cons partition rest ih =>
    obtain ⟨hfresh, hrest⟩ := List.nodup_cons.mp hnodup
    have d := s.deactivated partition
    rw [value_flushEach_cons]
    by_cases hp : partition = block.partition
    · subst hp
      obtain ⟨hlater, hkept⟩ := k.deactivated_self d
      refine ⟨fun _ hl => not_cached_of_flushEach (d.holds k.holds) hfresh (hlater hl),
        fun hn => ?_⟩
      have k' := hkept fun hl => hn ⟨List.mem_cons_self, hl⟩
      exact (ih k' hrest).2 fun hm => hfresh hm.1
    · have hiff : (s.deactivate partition).value.1.HoldsLater id block ↔ s.HoldsLater id block := by
        unfold HoldsLater
        rw [d.chunk_of_ne (Ne.symm hp)]
      have hmem : block.partition ∈ partition :: rest ↔ block.partition ∈ rest := by
        rw [List.mem_cons]
        exact or_iff_right (Ne.symm hp)
      have ih := ih (k.deactivated_other d hp) hrest
      rw [hiff] at ih
      rw [hmem]
      exact ih

theorem Keeps.flushedAll [Backing.Atomic σ] (k : s.Keeps held id block) :
    s.Settles id block .flushAll s.flushed.saveCache.value.1 := by
  have hnodup : s.loadedPartitions.Nodup := Std.ExtTreeMap.nodup_keys
  obtain ⟨hlater, hkept⟩ := k.flushEach hnodup
  constructor
  · intro hx
    rcases hx with ⟨-, hl⟩ | ⟨⟨⟩, -⟩
    have ⟨c, hc, _⟩ := hl
    exact hlater (mem_loadedPartitions.mpr (by rw [hc]; rfl)) hl
  · intro hn
    have k' := hkept fun h => hn (.inl ⟨trivial, h.2⟩)
    exact ⟨held, k'.holds.saveCache, k'.lives, k'.cached, k'.stands⟩

theorem Keeps.deactivated [Backing.Atomic σ] {operation : Operation} (k : s.Keeps held id block)
    (hr : s.reads? operation = none)
    (hf : ∀ partition', operation.flushes partition' ↔ partition = partition')
    (d : s.Deactivated partition s' outcome) : s.Settles id block operation s' := by
  have hnr : ¬ s.reads? operation = some block.partition := by
    rw [hr]
    exact nofun
  by_cases hp : partition = block.partition
  · subst hp
    obtain ⟨hlater, hkept⟩ := k.deactivated_self d
    constructor
    · intro h
      rcases h with ⟨-, hl⟩ | ⟨hr', -⟩
      · exact hlater hl
      · exact absurd hr' hnr
    · exact fun hn => ⟨held, hkept fun hl => hn (.inl ⟨(hf _).mpr rfl, hl⟩)⟩
  · refine ⟨?_, fun _ => ⟨held, k.deactivated_other d hp⟩⟩
    intro h
    rcases h with ⟨hf', -⟩ | ⟨hr', -⟩
    · exact absurd ((hf _).mp hf') hp
    · exact absurd hr' hnr

/-- Every call that respects a machine settles it. -/
theorem Keeps.performed [Backing.Atomic σ] {operation : Operation} {held' : Block → Option Slot}
    (k : s.Keeps held id block) (p : s.Performed held operation s' held')
    (hv : operation.Verbatim s.registry) (hr : operation.Respects id block) :
    s.Settles id block operation s' := by
  cases p with
  | idle hr hf hh hreg hcache =>
    refine ⟨?_, fun _ => ⟨held, hh, hreg ▸ k.lives, ?_, k.stands⟩⟩
    · intro hx
      rcases hx with ⟨hf', -⟩ | ⟨hr', -⟩
      · exact absurd hf' (hf _)
      · rw [hr] at hr'
        cases hr'
    · rw [locationOf?, hcache]
      exact k.cached
  | called hr hf hs hc =>
    refine k.settles_of_reads hc hr (hf _) ?_ (fun h => h) fun k₁ => ⟨_, k₁⟩
    rintro location m rfl
    exact absurd trivial hs
  | edited hc ha hcache =>
    refine k.settles_of_reads hc rfl not_false (by rintro _ _ ⟨⟩) (fun hl => ?_) fun k₁ =>
      ⟨_, k₁.edited ha hcache hv⟩
    rw [locationOf?, hcache]
    exact hl
  | @saved location m s₁ _ c _ hs hc ha hself hothers hcache =>
    by_cases hb : location.block = block
    · subst hb
      have hi := (hr hs).mpr rfl
      refine ⟨?_, fun _ => ⟨_, Keeps.of_saved k.holds k.lives hv hc ha hself hothers hcache hi⟩⟩
      intro hx
      rcases hx with ⟨⟨⟩, -⟩ | ⟨-, hne, -⟩
      exact absurd rfl (hne location m rfl)
    · have hi : id ≠ m.id := fun hi => hb ((hr hs).mp hi.symm)
      refine k.settles_of_reads hc (by simp [reads?, hs]) not_false ?_ (fun hl => ?_) fun k₁ =>
        ⟨_, k₁.saved_other hi hb (hc.registry ▸ hv) ha hself hothers hcache⟩
      · rintro _ _ ⟨⟩
        exact hb
      · rw [locationOf?, hcache, IdentifierCache.locationOf?_insert, if_neg hi,
          show s₁.cache.locationOf? id = none from hl, ite_self]
  | @removed location s₁ _ c hc ha hcache =>
    refine k.settles_of_reads hc rfl not_false (by rintro _ _ ⟨⟩) (fun hl => ?_) fun k₁ =>
      ⟨_, k₁.removed hr ha hcache⟩
    rw [locationOf?, hcache, IdentifierCache.locationOf?_eraseBlock,
      show s₁.cache.locationOf? id = none from hl, ite_self]
  | emptied => exact hv.elim
  | deactivated hr hf d => exact k.deactivated hr hf d
  | flushedAll => exact k.flushedAll

/-- Along a run a machine stands where it stood until a call displaces it. -/
theorem Keeps.run [Backing.Atomic σ] {registry : Registry} {location : Location}
    {window : List Operation} {s : Storage σ} {held : Block → Option Slot}
    (k : s.Keeps held id location.block) (hreg : s.registry = registry)
    (hw : ∀ operation ∈ window, operation.Verbatim registry ∧
      operation.Respects id location.block) :
    (∀ seen, seen <+: window → (s.after seen).Placed id location) ↔
      ∀ seen operation, seen ++ [operation] <+: window →
        ¬ (s.after seen).Displaces id location.block operation := by
  induction window generalizing s held with
  | nil =>
    refine ⟨fun _ seen operation h => ?_, fun _ seen h => ?_⟩
    · simp at h
    · rw [List.prefix_nil.mp h]
      exact k.placed
  | cons operation rest ih =>
    obtain ⟨hv, hr⟩ := hw operation List.mem_cons_self
    obtain ⟨held', p⟩ := k.holds.performed operation
    obtain ⟨hlost, hkept⟩ := k.performed p (hreg ▸ hv) hr
    by_cases hd : s.Displaces id location.block operation
    · refine iff_of_false (fun h => ?_) fun h => h [] operation ?_ hd
      · exact hlost hd (h [operation] (List.prefix_append [operation] rest)).1
      · exact List.prefix_append [operation] rest
    · obtain ⟨held', k'⟩ := hkept hd
      have ih := ih k' (p.registry.trans hreg) fun o ho => hw o (List.mem_cons_of_mem _ ho)
      constructor
      · intro h seen o hs
        cases seen with
        | nil =>
          obtain ⟨rfl, -⟩ := List.cons_prefix_cons.mp hs
          exact hd
        | cons first seen =>
          obtain ⟨rfl, hrest⟩ := List.cons_prefix_cons.mp hs
          refine ih.mp (fun seen hs => ?_) seen o hrest
          exact h (first :: seen) (List.cons_prefix_cons.mpr ⟨rfl, hs⟩)
      · intro h seen hs
        cases seen with
        | nil => exact k.placed
        | cons first seen =>
          obtain ⟨rfl, hrest⟩ := List.cons_prefix_cons.mp hs
          refine ih.mpr (fun seen o hs => ?_) seen hrest
          exact h (first :: seen) o (List.cons_prefix_cons.mpr ⟨rfl, hs⟩)

variable {config : Config} {registry : Registry} {backing : σ}

/-- A machine that has been saved successfully, after any run from an empty backing, stands there. -/
theorem Keeps.of_answered [Backing.Atomic σ] {location : Location} {m : Machine}
    {before : List Operation} (hb : Backing.Empty backing)
    (hs : (start config registry backing).value = .ok s)
    (hv : ∀ operation ∈ before ++ [.save location m], operation.Verbatim registry)
    (hsaved : ((s.after before).save location m).value.2 = .ok ()) :
    (s.after (before ++ [.save location m])).registry = registry ∧
      ∃ held, (s.after (before ++ [.save location m])).Keeps held m.id location.block := by
  obtain ⟨hh, rfl, -⟩ := holds_start hb hs
  have hlives : Lives s.registry fun _ => none := nofun
  obtain ⟨hreg, held, hh, hlives⟩ :=
    hlives.after hh fun operation ho => hv operation (List.mem_append_left _ ho)
  rw [after_append]
  obtain ⟨held', p⟩ := hh.performed (.save location m)
  refine ⟨p.registry.trans hreg, ?_⟩
  cases p with
  | idle hr =>
    -- a save that reads nothing has been refused
    cases hc : checkSaveable location.block m with
    | ok u => simp [reads?, hc] at hr
    | error e =>
      rw [value_save_of_refused hc] at hsaved
      cases hsaved
  | called hr hf hs => exact absurd trivial hs
  | saved hc hcalled ha hself hothers hcache =>
    have hm : s.registry.RebuildsVerbatim m.typeTag := hv (.save location m) (by simp)
    rw [← hreg] at hm hlives
    exact ⟨_, Keeps.of_saved hh hlives hm hcalled ha hself hothers hcache rfl⟩
  | deactivated _ hf => exact ((hf _).mpr rfl).elim

/-- After a machine has been saved successfully, the cache goes on placing it there for exactly as
long as no call displaces it. -/
theorem placed_iff_not_displaced [Backing.Atomic σ] {location : Location} {m : Machine}
    {before window : List Operation} (hb : Backing.Empty backing)
    (hs : (start config registry backing).value = .ok s)
    (hv : ∀ operation ∈ before ++ [.save location m], operation.Verbatim registry)
    (hsaved : ((s.after before).save location m).value.2 = .ok ())
    (hw : ∀ operation ∈ window,
      operation.Verbatim registry ∧ operation.Respects m.id location.block) :
    (∀ seen, seen <+: window →
      (s.after (before ++ [.save location m] ++ seen)).Placed m.id location) ↔
    ∀ seen operation, seen ++ [operation] <+: window →
      ¬ (s.after (before ++ [.save location m] ++ seen)).Displaces m.id location.block operation := by
  obtain ⟨hreg, held, k⟩ := Keeps.of_answered hb hs hv hsaved
  simp only [after_append _ (before ++ [.save location m])]
  exact k.run hreg hw

/-- The sample machine on another block. -/
def sampleAt (block : Block) : Machine := { sampleMachine with location := block }

/-- The block that the sample machine comes to stand on. -/
def sampleHome : Block := ⟨"world", 0, 5, 0⟩

/-- A copy of the sample machine is left behind in its chunk, which comes back after a save in
another one. -/
def sampleMoves : List Operation :=
  [.save sampleMachine.location.corner sampleMachine, .deactivate sampleHome.partition,
    .save (Block.corner ⟨"world", 40, 5, 40⟩) (sampleAt ⟨"world", 40, 5, 40⟩),
    .activate sampleHome.partition]

theorem verbatim_sampleMoves : ∀ operation ∈
    sampleMoves ++ [.save sampleHome.corner (sampleAt sampleHome)],
    operation.Verbatim sampleRegistry := by
  have hm : sampleRegistry.RebuildsVerbatim sampleMachine.typeTag := rfl
  intro operation ho
  simp only [sampleMoves, List.cons_append, List.nil_append, List.mem_cons, List.not_mem_nil,
    or_false] at ho
  rcases ho with rfl | rfl | rfl | rfl | rfl
  · exact hm
  · trivial
  · exact hm
  · trivial
  · exact hm

/-- Saved beside the old copy, the sample machine is displaced by the flush of the chunk. -/
theorem displaced_after_sampleMoves :
    ¬ ∀ seen, seen <+: [.deactivate sampleHome.partition] →
      (sampleStorage.after
        (sampleMoves ++ [.save sampleHome.corner (sampleAt sampleHome)] ++ seen)).Placed
          (sampleAt sampleHome).id sampleHome.corner := by
  have hs : (start {} sampleRegistry (⟨{}, []⟩ : Refusing Memory)).value = .ok sampleStorage := rfl
  have hsaved : ((sampleStorage.after sampleMoves).save sampleHome.corner
      (sampleAt sampleHome)).value.2 = .ok () := eq_ok_of_isOk (by decide +kernel)
  have hw : ∀ operation ∈ [Operation.deactivate sampleHome.partition],
      operation.Verbatim sampleRegistry ∧
        operation.Respects (sampleAt sampleHome).id sampleHome.corner.block := by
    intro operation hx
    rcases hx with _ | ⟨_, ⟨⟩⟩
    exact ⟨trivial, trivial⟩
  have hcopy : ((sampleStorage.after
      (sampleMoves ++ [.save sampleHome.corner (sampleAt sampleHome)])).chunk?
        sampleHome.partition).bind (·.machine? sampleMachine.location) = some sampleMachine := by
    decide +kernel
  obtain ⟨c, hc, hm⟩ := Option.bind_eq_some_iff.mp hcopy
  have hdisplaced : (sampleStorage.after
      (sampleMoves ++ [.save sampleHome.corner (sampleAt sampleHome)])).Displaces
        (sampleAt sampleHome).id sampleHome.corner.block (.deactivate sampleHome.partition) := by
    rw [show sampleHome.corner.block = sampleHome by decide +kernel]
    exact .inl ⟨rfl, c, hc, _, _, by decide, hm, rfl⟩
  intro h
  have hnever := (placed_iff_not_displaced (Refusing.empty Memory.empty []) hs
    verbatim_sampleMoves hsaved hw).mp h
  exact hnever [] _ (List.prefix_refl _) hdisplaced

end Storage

end MachineVault
