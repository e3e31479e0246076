import MachineVault.Proofs.Storage.Performing

/-! Storages that hold only machines whose factories give back what was recorded. A load brings such
a machine back on the block it was stored for, unless its state is too deep to be read, and calls
that save no others keep it so. -/

namespace MachineVault

/-- A call by which only machines that come back verbatim are put into storage. -/
def Operation.Verbatim (registry : Registry) : Operation → Prop
  | save _ m => registry.RebuildsVerbatim m.typeTag
  | edit _ change => ∀ m, (change m).id = m.id ∧ (change m).typeTag = m.typeTag
  | activateEmpty _ => False
  | _ => True

namespace Storage

/-- All that is held are machines with such factories. -/
def Lives (registry : Registry) (held : Block → Option Slot) : Prop :=
  ∀ block slot, held block = some slot →
    ∃ m, slot = .live m ∧ registry.RebuildsVerbatim m.typeTag

variable {σ : Type} {s s' : Storage σ} {held : Block → Option Slot} {registry : Registry}
  {block : Block}

theorem Lives.setSlot (h : Lives registry held) {slot : Option Slot}
    (hs : ∀ {slot'}, slot = some slot' →
      ∃ m, slot' = .live m ∧ registry.RebuildsVerbatim m.typeTag) :
    Lives registry (setSlot held block slot) := by
  intro block' slot' hb
  by_cases heq : block' = block
  · subst heq
    rw [setSlot_self] at hb
    exact hs hb
  · rw [setSlot_of_ne heq] at hb
    exact h _ _ hb

theorem Lives.editSlot (h : Lives registry held) {change : Machine → Machine}
    (hc : ∀ m, (change m).typeTag = m.typeTag) : Lives registry (editSlot held block change) := by
  intro block' slot hs
  rcases editSlot_eq_or held block change block' with he | ⟨m, rfl, hm, he⟩
  · exact h _ _ (he.symm.trans hs)
  · obtain ⟨_, ⟨⟩, hv⟩ := h _ _ hm
    rw [he] at hs
    cases hs
    exact ⟨_, rfl, (hc m).symm ▸ hv⟩

theorem Lives.saved {held' : Block → Option Slot} {m : Machine} (h : Lives registry held)
    (hm : registry.RebuildsVerbatim m.typeTag) (hself : held' block = some (.live m))
    (hothers : ∀ block', block' ≠ block → held' block' = held block' ∨ held' block' = none) :
    Lives registry held' := by
  intro block' slot hs
  by_cases hb : block' = block
  · subst hb
    rw [hself] at hs
    cases hs
    exact ⟨m, rfl, hm⟩
  · rcases hothers block' hb with he | he
    · exact h _ _ (he.symm.trans hs)
    · rw [he] at hs
      cases hs

variable [Backing σ]

/-- What comes back of a machine when its partition is loaded. -/
theorem Lives.reloaded_live {m : Machine} (h : Lives s.registry held) (hh : s.Holds held)
    (hc : s.chunk? block.partition = none) (hm : held block = some (.live m)) :
    s.reloaded block.partition held block =
      if m.state.depth ≤ Machine.depthLimit then some (.live { m with location := block })
      else none := by
  obtain ⟨_, ⟨⟩, hv⟩ := h _ _ hm
  rw [reloaded_of_unloaded hc rfl, hm, Option.bind_some, Slot.reload_live hv (hh.length_lt hc hm)]

/-- Whatever comes back was held as a machine of the same identifier and tag. -/
theorem Lives.of_reloaded {partition : Partition} {slot : Slot} (h : Lives s.registry held)
    (hh : s.Holds held) (hs : s.reloaded partition held block = some slot) :
    held block = some slot ∨ ∃ m, held block = some (.live m) ∧
      slot = .live { m with location := block } := by
  by_cases hb : block.partition = partition ∧ s.chunk? partition = none
  · obtain ⟨rfl, hc⟩ := hb
    cases hslot : held block with
    | none =>
      rw [reloaded_of_unloaded hc rfl, hslot] at hs
      cases hs
    | some slot' =>
      obtain ⟨m, rfl, -⟩ := h _ _ hslot
      rw [h.reloaded_live hh hc hslot] at hs
      split at hs
      · cases hs
        exact .inr ⟨m, rfl, rfl⟩
      · cases hs
  · rw [reloaded, if_neg hb] at hs
    exact .inl hs

theorem Lives.reloaded {partition : Partition} (h : Lives s.registry held) (hh : s.Holds held) :
    Lives s.registry (s.reloaded partition held) := by
  intro block slot hs
  rcases h.of_reloaded hh hs with hslot | ⟨m, hslot, rfl⟩
  · exact h _ _ hslot
  · obtain ⟨_, ⟨⟩, hv⟩ := h _ _ hslot
    exact ⟨_, rfl, hv⟩

theorem Performed.lives {operation : Operation} {held' : Block → Option Slot}
    (p : s.Performed held operation s' held') (hh : s.Holds held) (h : Lives s.registry held)
    (hv : operation.Verbatim s.registry) : Lives s.registry held' := by
  cases p with
  | idle | deactivated | flushedAll => exact h
  | called => exact h.reloaded hh
  | edited => exact (h.reloaded hh).editSlot fun m => (hv m).2
  | saved hs hc ha hself hothers =>
    exact (h.reloaded hh).saved hv hself fun block' hb => (hothers block' hb).imp_right And.left
  | removed => exact (h.reloaded hh).setSlot nofun
  | emptied => exact hv.elim

/-- What a run of such calls leads to. -/
theorem Lives.after [Backing.Atomic σ] {operations : List Operation} {s : Storage σ}
    {held : Block → Option Slot} (h : Lives s.registry held) (hh : s.Holds held)
    (hv : ∀ operation ∈ operations, operation.Verbatim s.registry) :
    (s.after operations).registry = s.registry ∧
      ∃ held', (s.after operations).Holds held' ∧ Lives s.registry held' := by
  induction operations generalizing s held with
  | nil => exact ⟨rfl, held, hh, h⟩
  | cons operation rest ih =>
    obtain ⟨held', p⟩ := hh.performed operation
    have h' := p.lives hh h (hv operation List.mem_cons_self)
    rw [after_cons, ← p.registry] at *
    exact ih h' (p.holds hh) fun o ho => hv o (List.mem_cons_of_mem _ ho)

end Storage

end MachineVault
