import MachineVault.Proofs.Inventory
import MachineVault.Proofs.Storage.Backed
import MachineVault.Proofs.Storage.Refreshing

/-! Loading and flushing are invisible. A storage over memory answers every call as one map from
blocks to machines does, whatever is loaded, flushed or refused in between. -/

namespace MachineVault.Storage

variable {σ : Type} [Backing σ] {s s' : Storage σ} {held held' : Block → Option Slot}
  {w : Inventory} {block : Block} {partition : Partition} {operation : Operation}

/-- A storage holds what a map says, and its cache is the map read both ways. -/
structure Mirrors (s : Storage σ) (held : Block → Option Slot) (w : Inventory) : Prop where
  holds : s.Holds held
  lives : Lives s.registry held
  entry : ∀ block, ((held block).bind Slot.machine?).map Machine.entry = w[block]?
  cached : ∀ {id block}, s.locationOf? id = some block ↔ ∃ e : Entry, w[block]? = some e ∧ e.id = id
  fits : ∀ {block : Block} {e : Entry}, w[block]? = some e → e.Fits block

/-- The answer to a call without the reports. -/
def reply (s : Storage σ) (operation : Operation) : Except Error Reply :=
  (s.perform operation).value.2.reply

/-- A deactivation is answered with an error only if it ends in one. -/
theorem reply_deactivate {q : Error → Prop} (s : Storage σ) (partition : Partition)
    (hq : ∀ {s'} {e : Error}, s.Deactivated partition s' (.error e) → q e) :
    (s.reply (.deactivate partition) = .ok .done ∨
      ∃ e, q e ∧ s.reply (.deactivate partition) = .error e) ∧
    (s.reply (.handle (.deactivated partition)) = .ok .done ∨
      ∃ e, q e ∧ s.reply (.handle (.deactivated partition)) = .error e) := by
  change ((Answer.flushed (s.deactivate partition).value.2).reply = _ ∨
      ∃ e, q e ∧ (Answer.flushed (s.deactivate partition).value.2).reply = _) ∧
    ((Answer.done ((s.deactivate partition).value.2.map fun _ => ())).reply = _ ∨
      ∃ e, q e ∧ (Answer.done ((s.deactivate partition).value.2.map fun _ => ())).reply = _)
  have d := s.deactivated partition
  cases ho : (s.deactivate partition).value.2 with
  | ok report => exact ⟨.inl rfl, .inl rfl⟩
  | error e =>
    rw [ho] at d
    exact ⟨.inr ⟨e, hq d, rfl⟩, .inr ⟨e, hq d, rfl⟩⟩

namespace Mirrors

theorem of_live {m : Machine} (h : s.Mirrors held w) (hm : held block = some (.live m)) :
    w[block]? = some m.entry := by
  rw [← h.entry, hm]
  rfl

theorem live_of {e : Entry} (h : s.Mirrors held w) (he : w[block]? = some e) :
    ∃ m, held block = some (.live m) ∧ m.entry = e := by
  rw [← h.entry] at he
  obtain ⟨m, hm, he⟩ := Option.map_eq_some_iff.mp he
  exact ⟨m, bind_machine?_eq_some.mp hm, he⟩

theorem distinct (h : s.Mirrors held w) : w.Distinct := by
  intro block block' e e' he he' hi
  have hl := h.cached.mpr ⟨e, he, rfl⟩
  rw [h.cached.mpr ⟨e', he', hi.symm⟩] at hl
  exact (Option.some.inj hl).symm

theorem locationOf?_eq (h : s.Mirrors held w) (id : MachineId) : s.locationOf? id = w.blockOf? id :=
  Option.ext fun _ => h.cached.trans (Inventory.blockOf?_eq_some h.distinct).symm

theorem byBlock_eq (h : s.Mirrors held w) : s.cache.byBlock = w.map fun _ e => e.id := by
  refine Std.ExtTreeMap.ext_getElem? fun block => Option.ext fun id => ?_
  rw [Std.ExtTreeMap.getElem?_map, Option.map_eq_some_iff, ← h.cached]
  exact IdentifierCache.idAt?_eq_some

/-- Loading a partition brings every machine back, so that nothing is lost. -/
theorem reloaded_eq (h : s.Mirrors held w) (partition : Partition) (block : Block) :
    s.reloaded partition held block = held block ∨ ∃ m, held block = some (.live m) ∧
      s.reloaded partition held block = some (.live { m with location := block }) := by
  by_cases hb : block.partition = partition ∧ s.chunk? partition = none
  · obtain ⟨rfl, hc⟩ := hb
    cases hs : held block with
    | none =>
      rw [reloaded_of_unloaded hc rfl, hs]
      exact .inl rfl
    | some slot =>
      obtain ⟨m, rfl, -⟩ := h.lives _ _ hs
      refine .inr ⟨m, rfl, ?_⟩
      rw [h.lives.reloaded_live h.holds hc hs]
      exact if_pos (h.fits (h.of_live hs)).shallow
  · exact .inl (if_neg hb)

theorem not_loses (h : s.Mirrors held w) {id : MachineId} : ¬ s.Loses partition held id block := by
  intro hx
  rcases hx with ⟨rfl, hc, slot, hs, hr, -⟩
  obtain ⟨m, rfl, -⟩ := h.lives _ _ hs
  have hb := h.lives.reloaded_live h.holds hc hs
  have hdepth : m.state.depth ≤ Machine.depthLimit := (h.fits (h.of_live hs)).shallow
  rw [reloaded_of_unloaded hc rfl, hs, Option.bind_some, hr, if_pos hdepth] at hb
  cases hb

theorem called {c : LoadedChunk} (h : s.Mirrors held w) (hc : s.Called partition held s' c) :
    s'.Mirrors (s.reloaded partition held) w where
  holds := hc.holds
  lives := by
    rw [hc.registry]
    exact h.lives.reloaded h.holds
  entry block := by
    rcases h.reloaded_eq partition block with hb | ⟨m, hm, hb⟩
    · rw [hb]
      exact h.entry block
    · rw [hb, h.of_live hm]
      rfl
  cached := (hc.cached _ _).trans ((and_iff_left h.not_loses).trans h.cached)
  fits := h.fits

theorem edited {change : Machine → Machine} {rewrite : Entry → State} (h : s.Mirrors held w)
    (ha : s.Amends (editSlot held block change) s') (hcache : s'.cache = s.cache)
    (hchange : ∀ m, change m = { m with state := rewrite m.entry })
    (hfits : ∀ e, w[block]? = some e → ({ e with state := rewrite e } : Entry).Fits block) :
    s'.Mirrors (editSlot held block change) (w.edit block change) := by
  have hget (block' : Block) : (w.edit block change)[block']? = if block' = block then
      w[block]?.map fun e => ({ e with state := rewrite e } : Entry) else w[block']? := by
    rw [Inventory.getElem?_edit]
    simp only [hchange]
    rfl
  have hid {block' : Block} {id : MachineId} :
      (∃ e : Entry, (w.edit block change)[block']? = some e ∧ e.id = id) ↔
        ∃ e : Entry, w[block']? = some e ∧ e.id = id := by
    rw [hget]
    split
    · rename_i heq
      subst heq
      cases w[block']? <;> simp
    · rfl
  refine ⟨ha.holds, ?_, fun block' => ?_, fun {id block'} => ?_, fun {block' e} he => ?_⟩
  · rw [ha.registry]
    exact h.lives.editSlot fun m => by rw [hchange]
  · rw [hget]
    split
    · rename_i heq
      subst heq
      rw [bind_machine?_editSlot, ← h.entry, Option.map_map, Option.map_map]
      congr 1
      funext m
      simp only [Function.comp, hchange]
      rfl
    · rename_i hne
      rw [editSlot_of_ne hne, h.entry]
  · rw [locationOf?, hcache, hid]
    exact h.cached
  · rw [hget] at he
    split at he
    · rename_i heq
      subst heq
      obtain ⟨e', he', rfl⟩ := Option.map_eq_some_iff.mp he
      exact hfits e' he'
    · exact h.fits he

theorem saved {m : Machine} (h : s.Mirrors held w) (ha : s.Amends held' s')
    (hm : s.registry.RebuildsVerbatim m.typeTag) (hfits : m.entry.Fits block)
    (hfree : ∀ (block' : Block) (e : Entry), w[block']? = some e → e.id = m.id → block' = block)
    (hself : held' block = some (.live m))
    (hothers : ∀ block', block' ≠ block → held' block' = held block' ∨
      held' block' = none ∧ s.locationOf? m.id = some block' ∧
        ∃ m', held block' = some (.live m') ∧ m'.id = m.id)
    (hcache : s'.cache = s.cache.insert m.id block) :
    s'.Mirrors held' (w.insert block m.entry) := by
  have hkept : ∀ block', block' ≠ block → held' block' = held block' := by
    intro block' hb
    rcases hothers block' hb with he | ⟨-, -, m', hm', hi⟩
    · exact he
    · exact absurd (hfree block' _ (h.of_live hm') hi) hb
  refine ⟨ha.holds, ?_, fun block' => ?_, fun {id block'} => ?_, fun {block' e} he => ?_⟩
  · rw [ha.registry]
    exact h.lives.saved hm hself fun block' hb => .inl (hkept block' hb)
  · rw [getElem?_insert]
    split
    · rename_i heq
      rw [heq, hself]
      rfl
    · rename_i hne
      rw [hkept block' hne, h.entry]
  · rw [locationOf?, hcache, IdentifierCache.locationOf?_insert_eq_some, getElem?_insert]
    split
    · rename_i heq
      simp only [heq, and_true, ne_eq, not_true_eq_false, false_and, and_false, or_false,
        Option.some.injEq, exists_eq_left']
      exact eq_comm
    · rename_i hne
      rw [show s.cache.locationOf? id = some block' ↔ _ from h.cached]
      simp only [hne, and_false, ne_eq, not_false_eq_true, true_and, false_or]
      refine and_iff_right_of_imp ?_
      intro hx hi
      rcases hx with ⟨e, he, rfl⟩
      exact hne (hfree block' e he hi)
  · rw [getElem?_insert] at he
    split at he
    · rename_i heq
      cases he
      exact heq ▸ hfits
    · exact h.fits he

theorem removed (h : s.Mirrors held w) (ha : s.Amends (setSlot held block none) s')
    (hcache : s'.cache = s.cache.eraseBlock block) :
    s'.Mirrors (setSlot held block none) (w.erase block) := by
  refine ⟨ha.holds, ?_, fun block' => ?_, fun {id block'} => ?_, fun {block' e} he => ?_⟩
  · rw [ha.registry]
    exact h.lives.setSlot nofun
  · rw [getElem?_erase, ← h.entry]
    split
    · rename_i heq
      rw [heq, setSlot_self]
      rfl
    · rename_i hne
      rw [setSlot_of_ne hne]
  · rw [locationOf?, hcache, IdentifierCache.locationOf?_eraseBlock_eq_some, getElem?_erase,
      show s.cache.locationOf? id = some block' ↔ _ from h.cached]
    split
    · rename_i heq
      simp [heq]
    · rename_i hne
      exact and_iff_right hne
  · rw [getElem?_erase] at he
    split at he
    · cases he
    · exact h.fits he

/-- A chunk in memory holds nothing that is not cached where it is. -/
theorem refreshed_eq {c : LoadedChunk} (h : s.Mirrors held w) (hc : s.chunk? partition = some c) :
    refreshed s.cache c = s.cache := by
  rw [Storage.refreshed_eq]
  refine refreshEach_of_cached fun e he => ?_
  obtain ⟨slot, hs, hi⟩ := LoadedChunk.mem_holdings.mp he
  have hs := ((h.holds.loaded hc).slot_eq_some.mp hs).2
  obtain ⟨m, rfl, -⟩ := h.lives _ _ hs
  exact h.cached.mpr ⟨_, h.of_live hs, hi⟩

variable {outcome : Except Error (Option FlushReport)}

theorem deactivated [Backing.Atomic σ] (h : s.Mirrors held w)
    (d : s.Deactivated partition s' outcome) : s'.Mirrors held w where
  holds := d.holds h.holds
  lives := by
    rw [d.registry]
    exact h.lives
  entry := h.entry
  cached {id block} := by
    have hcache : s'.cache = s.cache := by
      rcases d.cache with ⟨-, hcache⟩ | ⟨c, hc, hcache⟩
      · exact hcache
      · exact hcache.trans (h.refreshed_eq hc)
    rw [locationOf?, hcache]
    exact h.cached
  fits := h.fits

theorem flushed [Backing.Atomic σ] (h : s.Mirrors held w) : s.flushed.Mirrors held w :=
  flushEach_invariant (p := (Mirrors · held w)) (fun d h => h.deactivated d) _ s h

theorem saveCache [Backing.Atomic σ] (h : s.Mirrors held w) : s.saveCache.value.1.Mirrors held w :=
  ⟨h.holds.saveCache, h.lives, h.entry, h.cached, h.fits⟩

/-- A chunk in memory can be written, so that only the backing can refuse a flush. -/
theorem refused {e : Error} (h : s.Mirrors held w) (d : s.Deactivated partition s' (.error e)) :
    ∃ entries backing, (Backing.commit s.backing partition entries).value = (backing, .error e) := by
  cases d with
  | refused hc he hb => exact ⟨_, _, hb⟩
  | @unencodable c e hc he =>
    have hs := h.holds.loaded hc
    obtain ⟨index, data, hok⟩ := c.exists_encode fun {block slot} hb => by
      obtain ⟨hp, hb⟩ := hs.slot_eq_some.mp hb
      obtain ⟨m, rfl, -⟩ := h.lives _ _ hb
      obtain ⟨hheight, hworld, htag, hrecord⟩ := (h.fits (h.of_live hb)).storable
      exact ⟨hp.trans hs.serves.symm, hheight, hworld, htag, hrecord⟩
    rw [hok] at he
    cases he

/-- Every permitted call leads from mirror to mirror. -/
theorem performed [Backing.Atomic σ] (h : s.Mirrors held w)
    (p : s.Performed held operation s' held') (hp : w.Permits s.registry operation) :
    s'.Mirrors held' (w.next operation) := by
  cases p with
  | idle hr hf hh hreg hcache =>
    have hn : w.next operation = w := by
      cases operation with
      | edit | remove => cases hr
      | save location m => simp [reads?, hp.1] at hr
      | _ => rfl
    rw [hn]
    refine ⟨hh, hreg ▸ h.lives, h.entry, fun {id block} => ?_, h.fits⟩
    rw [locationOf?, hcache]
    exact h.cached
  | called hr hf hs hc =>
    have hn : w.next operation = w := by
      cases operation with
      | edit | remove | save => exact absurd trivial hs
      | _ => rfl
    rw [hn]
    exact h.called hc
  | edited hc ha hcache =>
    obtain ⟨rewrite, hchange, hfits⟩ := hp
    exact (h.called hc).edited ha hcache hchange hfits
  | saved hs hc ha hself hothers hcache =>
    obtain ⟨-, hm, hfits, hfree⟩ := hp
    rw [← hc.registry] at hm
    exact (h.called hc).saved ha hm hfits hfree hself hothers hcache
  | removed hc ha hcache => exact (h.called hc).removed ha hcache
  | emptied => exact hp.elim
  | deactivated hr hf d =>
    have hn : w.next operation = w := by
      cases operation with
      | edit | remove | save => exact ((hf _).mpr rfl).elim
      | _ => rfl
    rw [hn]
    exact h.deactivated d
  | flushedAll => exact h.flushed.saveCache

theorem machinesOf_eq {c : LoadedChunk} (h : s.Mirrors held w) (hc : s.chunk? partition = some c) :
    (c.machines.map Prod.snd).map Machine.entry = w.entriesOf partition := by
  have hs := h.holds.loaded hc
  have heq : c.machines.map (fun e => (e.1, e.2.entry)) =
      w.toList.filter fun e => e.1.partition = partition := by
    refine Ascending.eq_of_mem_iff ?_ ((ascending_toList w).filter _) fun (b, e) => ?_
    · exact List.pairwise_map.mpr c.ascending_machines
    · rw [List.mem_map, List.mem_filter, Std.ExtTreeMap.mem_toList_iff_getElem?_eq_some]
      constructor
      · intro hx
        rcases hx with ⟨⟨b', m⟩, hm, heq⟩
        cases heq
        obtain ⟨hb, hm⟩ := hs.slot_eq_some.mp (LoadedChunk.mem_machines.mp hm)
        exact ⟨h.of_live hm, decide_eq_true hb⟩
      · intro hx
        rcases hx with ⟨he, hb⟩
        obtain ⟨m, hm, rfl⟩ := h.live_of he
        have hm := hs.slot_eq_some.mpr ⟨of_decide_eq_true hb, hm⟩
        exact ⟨(b, m), LoadedChunk.mem_machines.mpr hm, rfl⟩
  rw [Inventory.entriesOf, ← heq, List.map_map, List.map_map]
  rfl

theorem reply_get (h : s.Mirrors held w) (location : Location) :
    s.reply (.get location) = .ok (w.reply (.get location)) := by
  obtain ⟨s', c, hc, hv⟩ := h.holds.get location
  change (Answer.machine (s.get location).value.2).reply = _
  rw [hv, Answer.reply, Except.map, (h.called hc).entry]
  rfl

theorem reply_edit {location : Location} {change : Machine → Machine} (h : s.Mirrors held w)
    (hp : w.Permits s.registry (.edit location change)) :
    s.reply (.edit location change) = .ok (w.reply (.edit location change)) := by
  obtain ⟨rewrite, hchange, hfits⟩ := hp
  obtain ⟨s₁, c, s', hc, ha, hcache, hv⟩ := h.holds.edit rfl change
  change (Answer.machine (s.edit location change).value.2).reply = _
  rw [hv, Answer.reply, Except.map, ((h.called hc).edited ha hcache hchange hfits).entry]
  rfl

theorem reply_remove (h : s.Mirrors held w) (location : Location) :
    s.reply (.remove location) = .ok (w.reply (.remove location)) := by
  obtain ⟨s₁, c, s', hc, -, -, hv⟩ := h.holds.remove rfl
  change (Answer.machine (s.remove location).value.2).reply = _
  rw [hv, Answer.reply, Except.map, (h.called hc).entry]
  rfl

theorem reply_getById (h : s.Mirrors held w) (id : MachineId) :
    s.reply (.getById id) = .ok (w.reply (.getById id)) := by
  change (Answer.machine (s.getById id).value.2).reply = .ok (.entry ((w.blockOf? id).bind _))
  cases hl : s.locationOf? id with
  | none =>
    rw [value_getById_of_uncached hl, ← h.locationOf?_eq, hl]
    rfl
  | some block =>
    obtain ⟨s', c, hc, hv⟩ := h.holds.getById hl
    obtain ⟨e, he, rfl⟩ := h.cached.mp hl
    obtain ⟨m, hm, rfl⟩ := (h.called hc).live_of he
    rw [hv, ← h.locationOf?_eq, hl, Option.bind_some, he, hm]
    simp [Answer.reply, Except.map, Slot.machine?, Option.filter, Machine.entry]

theorem reply_save {location : Location} {m : Machine} (h : s.Mirrors held w)
    (hp : w.Permits s.registry (.save location m)) :
    s.reply (.save location m) = .ok (w.reply (.save location m)) := by
  obtain ⟨s₁, c, s', held', -, -, -, -, -, hv⟩ := h.holds.save rfl hp.1
  change (Answer.done (s.save location m).value.2).reply = _
  rw [hv]
  rfl

theorem reply_machinesOf (h : s.Mirrors held w) (partition : Partition) :
    s.reply (.machinesOf partition) = .ok (w.reply (.machinesOf partition)) := by
  obtain ⟨s', c, hc, hv⟩ := h.holds.machinesOf partition
  change (Answer.machines (s.machinesOf partition).value.2).reply = _
  rw [hv, Answer.reply, Except.map, (h.called hc).machinesOf_eq hc.chunk]
  rfl

theorem reply_activate (h : s.Mirrors held w) (partition : Partition) :
    s.reply (.activate partition) = .ok .done ∧
      s.reply (.handle (.activated partition)) = .ok .done := by
  obtain ⟨s', c, report, hc, hv⟩ := h.holds.activate partition
  constructor
  · change (Answer.loaded (s.activate partition).value.2).reply = _
    rw [hv]
    rfl
  · change (Answer.done ((s.activate partition).value.2.map fun _ => ())).reply = _
    rw [hv]
    rfl

theorem reply_locationOf (h : s.Mirrors held w) (id : MachineId) :
    s.reply (.locationOf id) = .ok (w.reply (.locationOf id)) := by
  change Except.ok (Reply.block (s.locationOf? id)) = _
  rw [h.locationOf?_eq]
  rfl

theorem reply_idOf (h : s.Mirrors held w) (location : Location) :
    s.reply (.idOf location) = .ok (w.reply (.idOf location)) := by
  change Except.ok (Reply.id s.cache.byBlock[location.block]?) = _
  rw [h.byBlock_eq, Std.ExtTreeMap.getElem?_map]
  rfl

theorem reply_contains (h : s.Mirrors held w) (location : Location) :
    s.reply (.contains location) = .ok (w.reply (.contains location)) := by
  change Except.ok (Reply.flag (s.cache.byBlock.contains location.block)) = _
  rw [h.byBlock_eq, Std.ExtTreeMap.contains_map]
  rfl

theorem reply_keys (h : s.Mirrors held w) : s.reply .keys = .ok (w.reply .keys) := by
  change Except.ok (Reply.blocks s.cache.byBlock.keys) = _
  rw [h.byBlock_eq, Std.ExtTreeMap.keys_map]
  rfl

end Mirrors

/-- The errors that commits are still refused with are among those of a plan. -/
def Planned (plan : List (Option Error)) (b : Refusing Memory) : Prop :=
  ∀ e, some e ∈ b.plan → some e ∈ plan

section

variable {s s' : Storage (Refusing Memory)} {plan : List (Option Error)}

theorem Planned.committed {b b' : Refusing Memory} {entries : List (String × Bytes)}
    {outcome : Except Error Unit} (h : (Backing.commit b partition entries).value = (b', outcome))
    (hp : Planned plan b) : Planned plan b' := by
  intro e he
  rw [Refusing.plan_of_commit h] at he
  exact hp e (List.mem_of_mem_tail he)

theorem Planned.deactivated {outcome : Except Error (Option FlushReport)}
    (hp : Planned plan s.backing) (d : s.Deactivated partition s' outcome) :
    Planned plan s'.backing :=
  d.backing_invariant (fun h hp => hp.committed h) hp

theorem Planned.performed (p : s.Performed held operation s' held') (hp : Planned plan s.backing) :
    Planned plan s'.backing :=
  p.backing_invariant (fun h hp => hp.committed h) (fun _ _ hp => hp) hp

/-- A flush that is answered with an error has been refused by the plan. -/
theorem Mirrors.planned {e : Error} (h : s.Mirrors held w) (hp : Planned plan s.backing)
    (d : s.Deactivated partition s' (.error e)) : some e ∈ plan := by
  obtain ⟨entries, backing, hb⟩ := h.refused d
  exact hp e (Refusing.mem_plan_of_commit hb)

theorem Mirrors.reply_flushAll (h : s.Mirrors held w) (hp : Planned plan s.backing) :
    s.reply .flushAll = .ok .done ∨ ∃ e, some e ∈ plan ∧ s.reply .flushAll = .error e := by
  change (Answer.done s.flushAll.value.2).reply = _ ∨
    ∃ e, some e ∈ plan ∧ (Answer.done s.flushAll.value.2).reply = _
  rw [value_flushAll]
  cases he : (s.flushEach s.loadedPartitions).value.2 with
  | nil => exact .inl rfl
  | cons e rest =>
    refine .inr ⟨e, ?_, rfl⟩
    refine error_of_flushEach (p := fun s => s.Mirrors held w ∧ Planned plan s.backing)
      (fun d h => ⟨h.1.deactivated d, h.2.deactivated d⟩) (fun d h => h.1.planned h.2 d)
      s.loadedPartitions s ⟨h, hp⟩ e ?_
    rw [he]
    exact List.mem_cons_self

/-- A permitted call is answered from the map, unless it flushes and the plan refuses the commit. -/
theorem Mirrors.reply_eq (h : s.Mirrors held w) (hp : Planned plan s.backing)
    (ho : w.Permits s.registry operation) : s.reply operation = .ok (w.reply operation) ∨
      (∃ partition, operation.flushes partition) ∧
        ∃ e, some e ∈ plan ∧ s.reply operation = .error e := by
  cases operation with
  | get location => exact .inl (h.reply_get location)
  | edit location change => exact .inl (h.reply_edit ho)
  | getById id => exact .inl (h.reply_getById id)
  | save location m => exact .inl (h.reply_save ho)
  | remove location => exact .inl (h.reply_remove location)
  | machinesOf partition => exact .inl (h.reply_machinesOf partition)
  | locationOf id => exact .inl (h.reply_locationOf id)
  | idOf location => exact .inl (h.reply_idOf location)
  | contains location => exact .inl (h.reply_contains location)
  | keys => exact .inl h.reply_keys
  | activate partition => exact .inl (h.reply_activate partition).1
  | saveCache => exact .inl rfl
  | isLoaded | loadedPartitions | generationOf | chunkOf | activateEmpty => exact ho.elim
  | deactivate partition =>
    have hr := (reply_deactivate s partition fun d => h.planned hp d).1
    exact hr.imp_right fun he => ⟨⟨partition, rfl⟩, he⟩
  | flushAll => exact (h.reply_flushAll hp).imp_right fun he => ⟨⟨⟨"", 0, 0⟩, trivial⟩, he⟩
  | handle notice =>
    cases notice with
    | activated partition => exact .inl (h.reply_activate partition).2
    | deactivated partition =>
      have hr := (reply_deactivate s partition fun d => h.planned hp d).2
      exact hr.imp_right fun he => ⟨⟨partition, rfl⟩, he⟩

/-- What a permitted run leads to. -/
theorem Mirrors.after {operations : List Operation} {s : Storage (Refusing Memory)}
    {held : Block → Option Slot} {w : Inventory} (h : s.Mirrors held w)
    (hp : Planned plan s.backing) (ho : Inventory.Permitted s.registry w operations) :
    (s.after operations).registry = s.registry ∧ Planned plan (s.after operations).backing ∧
      ∃ held', (s.after operations).Mirrors held' (w.after operations) := by
  induction operations generalizing s held w with
  | nil => exact ⟨rfl, hp, held, h⟩
  | cons operation rest ih =>
    obtain ⟨held', p⟩ := h.holds.performed operation
    have h' := h.performed p ho.1
    have ho' := ho.2
    rw [after_cons, ← p.registry] at *
    exact ih h' (hp.performed p) ho'

theorem mirrors_start {config : Config} {registry : Registry}
    (hs : (start config registry (⟨{}, plan⟩ : Refusing Memory)).value = .ok s) :
    s.Mirrors (fun _ => none) ∅ ∧ Planned plan s.backing ∧ s.registry = registry := by
  obtain ⟨hh, hreg, hcache⟩ := holds_start (Refusing.empty Memory.empty plan) hs
  obtain ⟨-, table, -, rfl⟩ := start_eq_ok.mp hs
  refine ⟨⟨hh, nofun, fun block => ?_, fun {id block} => ?_, fun {block e} he => ?_⟩,
    fun e he => he, hreg⟩
  · rw [Std.ExtTreeMap.getElem?_empty]
    rfl
  · rw [locationOf?, hcache, IdentifierCache.locationOf?_empty, Std.ExtTreeMap.getElem?_empty]
    simp
  · rw [Std.ExtTreeMap.getElem?_empty] at he
    cases he

/-- Over memory every permitted run is answered as by a map that is empty at first, whatever is
loaded and unloaded on the way and whichever commits are refused. Only a flush may be answered with
an error, and then with one that a commit was refused with. -/
theorem reply_of_permitted {config : Config} (hc : config.validate = .ok ()) (registry : Registry)
    (plan : List (Option Error)) : ∃ s : Storage (Refusing Memory),
    (start config registry ⟨{}, plan⟩).value = .ok s ∧ ∀ before operation,
      Inventory.Permitted registry ∅ (before ++ [operation]) →
      (s.after before).reply operation = .ok ((Inventory.after ∅ before).reply operation) ∨
        (∃ partition, operation.flushes partition) ∧
          ∃ e, some e ∈ plan ∧ (s.after before).reply operation = .error e := by
  obtain ⟨s, hs⟩ : ∃ s, (start config registry (⟨{}, plan⟩ : Refusing Memory)).value = .ok s :=
    ⟨_, start_eq_ok.mpr ⟨hc, none, rfl, rfl⟩⟩
  refine ⟨s, hs, fun before operation ho => ?_⟩
  obtain ⟨h, hp, rfl⟩ := mirrors_start hs
  obtain ⟨ho, hlast⟩ := Inventory.permitted_append.mp ho
  obtain ⟨hreg, hp, held, h⟩ := h.after hp ho
  rw [← hreg] at hlast
  exact h.reply_eq hp hlast.1

theorem fits_sampleMachine : sampleMachine.entry.Fits sampleMachine.location.corner.block where
  storable := by
    constructor
    · decide +kernel
    · decide +kernel
    · decide +kernel
    · decide +kernel
  shallow := Nat.zero_le _

theorem permitted_sampleRun : Inventory.Permitted sampleRegistry ∅
    (sampleRun ++ [.get sampleMachine.location.corner]) := by
  have hsaveable : checkSaveable sampleMachine.location.corner.block sampleMachine = .ok () :=
    eq_ok_of_isOk (by decide +kernel)
  refine ⟨⟨hsaveable, rfl, fits_sampleMachine, fun block e he => ?_⟩, trivial, trivial, trivial⟩
  rw [Std.ExtTreeMap.getElem?_empty] at he
  cases he

/-- The sample machine is still there when the flush of its partition has been refused. -/
theorem reply_after_sampleRun : ∃ s : Storage (Refusing Memory),
    (start {} sampleRegistry ⟨{}, [some (Outages.error .commit)]⟩).value = .ok s ∧
      (s.after sampleRun).reply (.get sampleMachine.location.corner) =
        .ok (.entry (some sampleMachine.entry)) := by
  have hc : ({} : Config).validate = .ok () := rfl
  obtain ⟨s, hs, h⟩ := reply_of_permitted hc sampleRegistry [some (Outages.error .commit)]
  refine ⟨s, hs, ?_⟩
  rcases h sampleRun _ permitted_sampleRun with h | ⟨⟨partition, hf⟩, -⟩
  · rw [h]
    decide +kernel
  · exact hf.elim

end

end MachineVault.Storage
