import MachineVault.Proofs.RoundTrip
import MachineVault.Proofs.Storage.Flushable

/-! What has been saved and flushed is there again when its partition is next activated, whatever
was stored before and on whatever backing. Saving accepts any state, though, and one that is too
deep to be read is written all the same, so its machine is lost. -/

namespace MachineVault.Storage

open LoadedChunk

variable {σ : Type}

/-- Every chunk in memory serves the partition that it is kept under, and is sound. -/
def Sound (s : Storage σ) : Prop :=
  ∀ partition c, s.chunk? partition = some c → c.partition = partition ∧ c.Sound

variable {s s' s₁ s₂ : Storage σ} {partition : Partition} {c : LoadedChunk} {operation : Operation}
  {location : Location} {m : Machine}

theorem Sound.putChunk (h : s.Sound) (hp : c.partition = partition) (hc : c.Sound) :
    (s.putChunk partition c).Sound := by
  intro partition' c' hc'
  rw [chunk?_putChunk] at hc'
  split at hc'
  · rename_i heq
    cases hc'
    exact ⟨hp.trans heq.symm, hc⟩
  · exact h _ _ hc'

/-- A machine that leaves for a block does not touch what is on that block. -/
theorem slot?_leave {block : Block} {slot : Slot} (hc : s.chunk? block.partition = some c)
    (hs : c.slot? block = some slot) (id : MachineId) :
    ∃ c', (s.leave id block).value.chunk? block.partition = some c' ∧
      c'.slot? block = some slot := by
  have hl := s.left id block
  generalize (s.leave id block).value = s' at hl ⊢
  cases hl with
  | stayed => exact ⟨c, hc, hs⟩
  | evicted _ hne ho =>
    rw [chunk?_putChunk]
    split
    · rename_i hp
      cases hc.symm.trans (hp ▸ ho)
      exact ⟨_, rfl, by rw [slot?_remove, if_neg (Ne.symm hne), hs]⟩
    · exact ⟨c, hc, hs⟩

variable [Backing σ]

theorem Fetched.sound (hf : s.Fetched partition s' c) (h : s.Sound) : s'.Sound := by
  cases hf with
  | present => exact h
  | read _ _ hb => exact h.putChunk hb.identity.1 hb.sound

theorem Entered.sound (he : s.Entered operation s') (h : s.Sound) : s'.Sound := by
  cases he with
  | same => exact h
  | fetched hf => exact hf.sound h
  | emptied =>
    exact h.putChunk rfl (sound_of_empty fun _ => Std.ExtTreeMap.getElem?_empty)

theorem Step.sound (hs : s.Step operation s') (h : s.Sound) : s'.Sound := by
  cases hs with
  | recached | tableSaved => exact h
  | placed _ _ hc hp => exact h.putChunk hp.symm ((h _ _ hc).2.place hp)
  | cleared _ hc | evicted hc => exact h.putChunk (h _ _ hc).1 (h _ _ hc).2.remove
  | @edited location change c _ hc =>
    obtain ⟨hp, hsound⟩ := h _ _ hc
    unfold LoadedChunk.edit
    cases hm : c.machine? location.block with
    | none => exact h.putChunk hp hsound
    | some m => exact h.putChunk hp (hsound.place (hsound.partition (machine?_eq_some.mp hm)))
  | flushed _ d => exact fun partition c hc => h _ _ (d.chunk_eq_some hc)

theorem Sound.after (h : s.Sound) (operations : List Operation) : (s.after operations).Sound :=
  run_invariant (fun _ _ _ h => after_invariant Entered.sound Step.sound h) h

/-- Whatever is stored, chunks are sound from the start. -/
theorem sound_start {config : Config} {registry : Registry} {backing : σ}
    (hs : (start config registry backing).value = .ok s) : s.Sound := by
  obtain ⟨-, table, -, rfl⟩ := start_eq_ok.mp hs
  intro partition c hc
  rw [chunk?, Std.ExtTreeMap.getElem?_empty] at hc
  cases hc

/-- A machine that has been saved is on its block. -/
theorem slot?_of_save (h : (s.save location m).value = (s', .ok ())) : ∃ c,
    s'.chunk? location.block.partition = some c ∧ c.slot? location.block = some (.live m) := by
  cases hs : checkSaveable location.block m with
  | error e =>
    rw [value_save_of_refused hs] at h
    cases h
  | ok u =>
    obtain ⟨next, hsave, hnext⟩ := value_save (s := s) hs
    rcases fetched_or_error s location.block.partition with ⟨s₁, c, report, hl, hf⟩ | ⟨e, hl⟩
    · rw [hsave, value_withChunk hl, hnext] at h
      split at h
      · cases h
        refine slot?_leave (c := c.place location.block (.live m)) ?_ ?_ m.id
        · rw [chunk?_putChunk, if_pos rfl]
        · rw [slot?_place, if_pos rfl]
      · cases h
    · rw [hsave, value_withChunk_of_error hl] at h
      cases h

/-- What has been flushed without an error is stored, unless there was nothing to store. -/
theorem Deactivated.stored [Backing.Durable σ] {flush : Option FlushReport}
    (d : s.Deactivated partition s' (.ok flush)) (ht : s.config.indexTag ≠ s.config.dataTag)
    (hc : s.chunk? partition = some c) (hne : c.isEmpty = true → c.persisted = true) :
    s'.Stored partition c := by
  cases d with
  | unloaded hn => cases hc.symm.trans hn
  | dropped hc' he hp =>
    cases hc.symm.trans hc'
    cases (hne he).symm.trans hp
  | @committed _ index data _ _ hc' he hb =>
    cases hc.symm.trans hc'
    exact ⟨index, data, he, Backing.Durable.kept hb (lastBytes?_pair ht).1,
      Backing.Durable.kept hb (lastBytes?_pair ht).2⟩

/-- A partition that has been stored can be activated, and each of its slots comes back. -/
theorem activate_of_stored (hn : s.chunk? partition = none) (hc : c.Sound)
    (hp : c.partition = partition) (h : s.Stored partition c) :
    ∃ s' c' report, (s.activate partition).value = (s', .ok report) ∧
      s'.chunk? partition = some c' ∧ ∀ block, c'.slot? block =
        (c.slot? block).bind (Slot.reload s.registry s.config.preserveUnknown block) := by
  have ⟨_, _, he, _⟩ := h
  have hload := load_encode hc he s.nextGeneration s.registry s.config.preserveUnknown
  obtain ⟨report, hl⟩ := load_of_read hn (readChunk_of_stored hp h)
  rw [activate, Logged.value_bind, hl]
  refine ⟨_, _, report, rfl, ?_, hload.slot⟩
  rw [hload.identity.2.2.2.1, hp]
  exact (chunk?_putChunk ..).trans (if_pos rfl)

/-- A machine that has been saved, and flushed with its partition, is there after the next
activation if its state can be read, and else nothing is. -/
theorem retrieved_of_save [Backing.Durable σ] {config : Config} {registry : Registry} {backing : σ}
    {before : List Operation} {flush : Option FlushReport}
    (hs : (start config registry backing).value = .ok s)
    (hv : registry.RebuildsVerbatim m.typeTag)
    (hm : ((s.after before).save location m).value = (s₁, .ok ()))
    (hd : (s₁.deactivate location.block.partition).value = (s₂, .ok flush)) :
    ∃ s₃ report, (s₂.activate location.block.partition).value = (s₃, .ok report) ∧
      (s₃.get location).value = (s₃, .ok (if m.state.depth ≤ Machine.depthLimit then
        some { m with location := location.block } else none)) := by
  -- the save is one more call of the run
  have hrun : s.after (before ++ [.save location m]) = s₁ :=
    (after_append ..).trans (congrArg Prod.fst hm)
  obtain ⟨hvalid, hconfig, hregistry⟩ := settings_after hs (before ++ [.save location m])
  have hsound := (sound_start hs).after (before ++ [.save location m])
  rw [hrun] at hconfig hregistry hsound
  obtain ⟨c, hc, hslot⟩ := slot?_of_save hm
  obtain ⟨hp, hcs⟩ := hsound _ _ hc
  have d := s₁.deactivated location.block.partition
  rw [hd] at d
  have hstored := d.stored (hconfig ▸ tags_of_validate hvalid) hc fun he => by
    cases (isEmpty_iff.mp he _).symm.trans hslot
  obtain ⟨s₃, c₃, report, ha, hc₃, hback⟩ := activate_of_stored d.chunk_of_ok hcs hp hstored
  obtain ⟨_, _, he, -⟩ := hstored
  refine ⟨s₃, report, ha, ?_⟩
  have hv₂ : s₂.registry.RebuildsVerbatim m.typeTag := by
    rw [d.registry, hregistry]
    exact hv
  rw [get, value_withChunk (load_of_chunk hc₃), machine?, hback, hslot, Option.bind_some,
    Slot.reload_live hv₂ (length_lt_of_encode he hslot)]
  split <;> rfl

/-- A list in a list and so on, of this depth. -/
def nest : Nat → State
  | 0 => .null
  | n + 1 => .list [nest n]

theorem depth_nest (n : Nat) : (nest n).depth = n := by
  induction n with
  | zero => rfl
  | succ n ih =>
    change max (nest n).depth 0 + 1 = n + 1
    rw [ih, Nat.max_zero]

theorem length_encode_nest (n : Nat) : (nest n).encode.length = n + 1 := by
  induction n with
  | zero => rfl
  | succ n ih =>
    change ([0x91] ++ ((nest n).encode ++ [])).length = n + 1 + 1
    rw [List.append_nil, List.length_append, ih, List.length_singleton, Nat.add_comm]

/-- A record grows as its state does. -/
theorem length_encode_state (m : Machine) : m.encode.length + 1 =
    ({ m with state := .null } : Machine).encode.length + m.state.encode.length := by
  have hnull : State.null.document.toValue.write.length = 1 := rfl
  simp only [Machine.encode, Machine.toValue, MessagePack.Value.ofFields, List.map_cons,
    List.map_nil, List.length_cons, List.length_nil, MessagePack.Value.write, Prod.map_apply, id,
    MessagePack.Value.writeFields, List.length_append, State.encode, hnull]
  omega

/-- The sample machine with a state that is one level too deep. -/
def deepMachine : Machine := { sampleMachine with state := nest 1023 }

theorem not_depth_deepMachine : ¬ deepMachine.state.depth ≤ Machine.depthLimit := by
  rw [show deepMachine.state = nest 1023 from rfl, depth_nest]
  decide

theorem fits_deepMachine : (Slot.live deepMachine).Fits deepMachine.location := by
  have hl := length_encode_state deepMachine
  rw [show deepMachine.state = nest 1023 from rfl, length_encode_nest,
    show ({ deepMachine with state := .null } : Machine) = sampleMachine from rfl] at hl
  have hsample : sampleMachine.encode.length < 100 := by decide +kernel
  refine ⟨by decide, by decide, ?_⟩
  rw [show (Slot.live deepMachine).encode deepMachine.location = deepMachine.encode from rfl]
  omega

/-- What the deep machine is saved in. -/
def deepChunk : LoadedChunk :=
  ({ partition := deepMachine.location.partition, generation := 1 } : LoadedChunk).place
    deepMachine.location (.live deepMachine)

theorem slot?_deepChunk {block : Block} {slot : Slot} (h : deepChunk.slot? block = some slot) :
    block = deepMachine.location ∧ slot = .live deepMachine :=
  eq_of_slot?_place (fun _ => Std.ExtTreeMap.getElem?_empty) h

theorem lost_after_deepMachine : ∃ s₁ s₂ s₃ : Storage (Refusing Memory), ∃ flush report,
    (sampleStorage.save deepMachine.location.corner deepMachine).value = (s₁, .ok ()) ∧
    (s₁.deactivate deepMachine.location.partition).value = (s₂, .ok flush) ∧
    (s₂.activate deepMachine.location.partition).value = (s₃, .ok report) ∧
      (s₃.get deepMachine.location.corner).value = (s₃, .ok none) := by
  have hs : (start {} sampleRegistry (⟨{}, []⟩ : Refusing Memory)).value = .ok sampleStorage := rfl
  have hblock : deepMachine.location.corner.block = deepMachine.location := by decide +kernel
  have hv : sampleRegistry.RebuildsVerbatim deepMachine.typeTag := rfl
  obtain ⟨⟨⟩, hsave⟩ := exists_ok_of_isOk
    (show (sampleStorage.save deepMachine.location.corner deepMachine).value.2.isOk by
      decide +kernel)
  have hc : (sampleStorage.save deepMachine.location.corner deepMachine).value.1.chunk?
      deepMachine.location.partition = some deepChunk := by rfl
  have hb : (sampleStorage.save deepMachine.location.corner deepMachine).value.1.backing =
      ⟨{}, []⟩ := by rfl
  generalize (sampleStorage.save deepMachine.location.corner deepMachine).value.1 = s₁
    at hsave hc hb
  have hok : (s₁.deactivate deepMachine.location.partition).value.2.isOk := by
    have hlies : deepChunk.LiesIn deepMachine.location.partition :=
      ⟨rfl, fun h => (slot?_deepChunk h).1 ▸ rfl⟩
    have d := s₁.deactivated deepMachine.location.partition
    obtain ⟨flush, hflush⟩ := d.ok_of_heightFits hc hlies
      (fun block slot h => by
        obtain ⟨rfl, rfl⟩ := slot?_deepChunk h
        exact fits_deepMachine)
      (fun entries => by
        rw [hb]
        rfl)
      (fun block slot h => by
        obtain ⟨rfl, -⟩ := slot?_deepChunk h
        decide)
    rw [hflush]
    rfl
  obtain ⟨flush, hd⟩ := exists_ok_of_isOk hok
  rw [← hblock] at hd
  rw [← after_nil sampleStorage] at hsave
  obtain ⟨s₃, report, ha, hget⟩ := retrieved_of_save hs hv hsave hd
  rw [if_neg not_depth_deepMachine] at hget
  rw [hblock] at hd ha
  exact ⟨s₁, _, s₃, flush, report, hsave, hd, ha, hget⟩

end MachineVault.Storage
