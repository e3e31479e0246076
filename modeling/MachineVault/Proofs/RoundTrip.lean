import Mathlib.Data.List.Forall2
import MachineVault.Proofs.Reload

/-! What is written for a chunk is what it held. However the chunk came about, the stored index and
the stored records run side by side, the next load finds nothing to complain of, and what it brings
back is written as the same bytes again. -/

namespace MachineVault

/-- Every factory gives back what was recorded. -/
def Registry.Verbatim (r : Registry) : Prop :=
  ∀ tag, (r.resolve? tag).isSome → r.RebuildsVerbatim tag

/-- Only an unknown type keeps a record from being rebuilt. -/
theorem Registry.Verbatim.rebuild_eq_error {r : Registry} {m : Machine} {cause : Error}
    (h : r.Verbatim) (hr : r.rebuild m = .error cause) : cause = .unknownType m.typeTag := by
  cases hf : r.resolve? m.typeTag with
  | none =>
    rw [Registry.rebuild_of_resolve?_eq_none hf] at hr
    cases hr
    rfl
  | some factory =>
    have hv : r.RebuildsVerbatim m.typeTag := h _ (by rw [hf]; rfl)
    rw [hv.rebuild] at hr
    cases hr

namespace Slot

/-- The state of a machine, or the one that its record keeps. -/
def state? : Slot → Option State
  | live m => some m.state
  | raw record => (Machine.decode record.bytes).toOption.map Machine.state

/-- The record of a slot can be read back, unless the state of a live machine is too deep. -/
theorem Genuine.stored {block : Block} {slot : Slot} (hg : slot.Genuine block)
    (hl : (slot.encode block).length < 2 ^ 32)
    (hd : ∀ m, slot = .live m → m.state.depth ≤ Machine.depthLimit) :
    ∃ state, slot.state? = some state ∧
      slot.stored? block = some ⟨slot.id, slot.typeTag, block, state⟩ := by
  cases slot with
  | live m => exact ⟨m.state, rfl, (stored?_live hl).trans (if_pos (hd m rfl))⟩
  | raw record =>
    obtain ⟨state, hdecode⟩ := hg
    refine ⟨state, ?_, stored?_eq_some.mpr hdecode⟩
    rw [state?, hdecode]
    rfl

end Slot

/-- A slot that a load leaves on a block is genuine. -/
theorem genuine_of_slotFor? {registry : Registry} {preserve : Bool} {records : List Bytes}
    {block : Block} {slot : Slot} (h : slotFor? registry preserve records block = some slot) :
    slot.Genuine block := by
  obtain ⟨⟨bytes, record⟩, hr, hs⟩ := Option.bind_eq_some_iff.mp h
  obtain ⟨_, _, _, hd, rfl, _⟩ := recordFor?_eq_some.mp hr
  change Slot.ofRecord? registry preserve bytes record = some slot at hs
  unfold Slot.ofRecord? at hs
  split at hs
  · cases hs
    trivial
  · split at hs
    · cases hs
      exact ⟨record.state, hd⟩
    · cases hs

namespace LoadedChunk

/-- A chunk as it is after a fresh start or a load of any records, and after calls on it. -/
inductive Formed : LoadedChunk → Prop
  | fresh (partition : Partition) (generation : Nat) : Formed { partition, generation }
  | superseding (partition : Partition) (generation : Nat) :
      Formed (.superseding partition generation)
  | loaded (partition : Partition) (generation : Nat) (index : ChunkIndex) (records : List Bytes)
      (registry : Registry) (preserve : Bool) :
      Formed (load partition generation index records registry preserve).value.1
  | saved {c c' : LoadedChunk} {block : Block} {m : Machine} (h : Formed c)
      (hs : c.save block m = .ok c') : Formed c'
  | removed {c : LoadedChunk} (block : Block) (h : Formed c) : Formed (c.remove block)
  | edited {c : LoadedChunk} (block : Block) (change : Machine → Machine) (h : Formed c) :
      Formed (c.edit block change)

variable {c c' : LoadedChunk} {block : Block}

theorem sound_of_empty (h : ∀ block, c.slot? block = none) : c.Sound where
  partition hs := by
    rw [h] at hs
    cases hs
  genuine hs := by
    rw [h] at hs
    cases hs

theorem Brought.sound {partition : Partition} {generation : Nat} {index : ChunkIndex}
    {records : List Bytes} {registry : Registry} {preserve : Bool}
    {outcome : LoadedChunk × LoadReport}
    (h : Brought partition generation index records registry preserve outcome) :
    outcome.1.Sound where
  partition hs := by
    rw [h.slot] at hs
    split at hs
    · rename_i hp
      rw [hp, h.identity.1]
    · cases hs
  genuine hs := by
    rw [h.slot] at hs
    split at hs
    · exact genuine_of_slotFor? hs
    · cases hs

theorem Sound.place {m : Machine} (h : c.Sound) (hp : block.partition = c.partition) :
    (c.place block (.live m)).Sound where
  partition hs := by
    rw [slot?_place] at hs
    split at hs
    · rename_i hb
      rw [hb, hp]
      rfl
    · exact h.partition hs
  genuine hs := by
    rw [slot?_place] at hs
    split at hs
    · cases hs
      trivial
    · exact h.genuine hs

theorem Sound.remove (h : c.Sound) : (c.remove block).Sound where
  partition hs := by
    rw [slot?_remove] at hs
    split at hs
    · cases hs
    · exact h.partition hs
  genuine hs := by
    rw [slot?_remove] at hs
    split at hs
    · cases hs
    · exact h.genuine hs

theorem Formed.sound (h : c.Formed) : c.Sound := by
  induction h with
  | fresh | superseding => exact sound_of_empty fun _ => Std.ExtTreeMap.getElem?_empty
  | loaded => exact (brought_load ..).sound
  | @saved c c' block m h hs ih =>
    unfold LoadedChunk.save at hs
    split at hs
    · rename_i hp
      cases hs
      exact ih.place (of_decide_eq_true hp)
    · cases hs
  | removed block h ih => exact ih.remove
  | @edited c block change h ih =>
    unfold LoadedChunk.edit
    cases hm : c.machine? block with
    | none => exact ih
    | some m => exact ih.place (ih.partition (machine?_eq_some.mp hm))

/-- What is written depends on the tags and the records alone. -/
theorem encode_congr (hp : c'.partition = c.partition)
    (h : ∀ block, (c'.slot? block).map (fun slot => (slot.typeTag, slot.encode block)) =
      (c.slot? block).map fun slot => (slot.typeTag, slot.encode block)) :
    c'.encode = c.encode := by
  have hindex : c'.index = c.index := by
    have htags : (c'.contents.map fun _ slot => slot.typeTag) =
        c.contents.map fun _ slot => slot.typeTag := by
      refine Std.ExtTreeMap.ext_getElem? fun block => ?_
      rw [Std.ExtTreeMap.getElem?_map, Std.ExtTreeMap.getElem?_map]
      simpa [slot?, Function.comp_def] using congrArg (Option.map Prod.fst) (h block)
    rw [LoadedChunk.index, LoadedChunk.index, hp, htags]
  have hrecords : (c'.contents.toList.map fun e => e.2.encode e.1) =
      c.contents.toList.map fun e => e.2.encode e.1 := by
    have hmap : c'.contents.map (fun block slot => slot.encode block) =
        c.contents.map fun block slot => slot.encode block := by
      refine Std.ExtTreeMap.ext_getElem? fun block => ?_
      rw [Std.ExtTreeMap.getElem?_map, Std.ExtTreeMap.getElem?_map]
      simpa [slot?, Function.comp_def] using congrArg (Option.map Prod.snd) (h block)
    have hlist := congrArg (fun t => t.toList.map Prod.snd) hmap
    simpa [Std.ExtTreeMap.toList_map, Function.comp_def] using hlist
  unfold LoadedChunk.encode
  rw [hindex]
  simp only [hrecords]

/-- A load has brought a chunk back in full: as a machine where the registry knows the tag, and as
the stored record elsewhere. -/
structure Restored (c : LoadedChunk) (registry : Registry) (outcome : LoadedChunk × LoadReport) :
    Prop where
  report : outcome.2.inconsistent = 0 ∧ outcome.2.failedRecords = 0 ∧
    outcome.2.missingRecords = [] ∧ outcome.2.dropped = []
  empty : ∀ {block}, c.slot? block = none → outcome.1.slot? block = none
  known : ∀ {block slot}, c.slot? block = some slot → (registry.resolve? slot.typeTag).isSome →
    ∃ state, slot.state? = some state ∧
      outcome.1.slot? block = some (.live ⟨slot.id, slot.typeTag, block, state⟩)
  unknown : ∀ {block slot}, c.slot? block = some slot → registry.resolve? slot.typeTag = none →
    outcome.1.slot? block = some (.raw ⟨slot.id, slot.typeTag, slot.encode block⟩)

/-- What is stored for a chunk: its index, the records in the order of the index, and bytes that
lead to the same chunk and then to the same bytes. -/
structure RoundTrips (c : LoadedChunk) (index data : Bytes) (records : List Bytes) : Prop where
  listed : ChunkIndex.decode index = .ok c.index
  split : RecordList.decode data = .ok records
  aligned : List.Forall₂ (fun bytes entry => ∃ record, Machine.decode bytes = .ok record ∧
    record.location = entry.1 ∧ record.typeTag = entry.2) records c.index.entries.toList
  restored : ∀ generation registry, registry.Verbatim →
    c.Restored registry (load c.partition generation c.index records registry true).value
  rewritten : ∀ generation registry, registry.Verbatim →
    (∀ block record, c.slot? block = some (.raw record) →
      registry.resolve? record.typeTag = none) →
    (load c.partition generation c.index records registry true).value.1.encode =
      .ok (index, data)

section Written

variable {index data : Bytes} (hs : c.Sound)
  (hd : ∀ block m, c.machine? block = some m → m.state.depth ≤ Machine.depthLimit)
  (h : c.encode = .ok (index, data))
include hs hd h

theorem stored_of_encode {slot : Slot} (hslot : c.slot? block = some slot) :
    ∃ state, slot.state? = some state ∧
      slot.stored? block = some ⟨slot.id, slot.typeTag, block, state⟩ := by
  refine (hs.genuine hslot).stored (length_lt_of_encode h hslot) ?_
  rintro m rfl
  exact hd block m (machine?_eq_some.mpr hslot)

theorem aligned_of_encode : List.Forall₂ (fun bytes entry => ∃ record,
    Machine.decode bytes = .ok record ∧ record.location = entry.1 ∧ record.typeTag = entry.2)
      (c.contents.toList.map fun e => e.2.encode e.1) c.index.entries.toList := by
  rw [LoadedChunk.index, Std.ExtTreeMap.toList_map, List.forall₂_map_left_iff,
    List.forall₂_map_right_iff, List.forall₂_same]
  rintro ⟨block, slot⟩ he
  obtain ⟨state, -, hst⟩ := stored_of_encode hs hd h (mem_toList.mp he)
  exact ⟨_, Slot.stored?_eq_some.mp hst, rfl, rfl⟩

/-- None of the written records fails. -/
theorem not_isFailed_records {registry : Registry} (hv : registry.Verbatim)
    {before after : List Bytes} {bytes : Bytes}
    (heq : (c.contents.toList.map fun e => e.2.encode e.1) = before ++ bytes :: after) :
    (Loading.verdict c.partition registry before bytes).isFailed = false := by
  obtain ⟨block, slot, hslot, rfl, hfirst⟩ := slot_of_records hs (length_lt_of_encode h) heq
  obtain ⟨state, -, hst⟩ := stored_of_encode hs hd h hslot
  have hdecode := Slot.stored?_eq_some.mp hst
  have j := Loading.judged c.partition registry before (slot.encode block)
  generalize Loading.verdict c.partition registry before (slot.encode block) = v at j
  cases j with
  | undecodable hd' => cases hdecode.symm.trans hd'
  | outside hd' hp =>
    cases hdecode.symm.trans hd'
    exact absurd (hs.partition hslot) hp
  | repeated hd' hp hsome =>
    cases hdecode.symm.trans hd'
    rw [hfirst] at hsome
    cases hsome
  | rebuilt => rfl
  | unbuilt hd' hp hf hr =>
    rw [hv.rebuild_eq_error hr]
    rfl

theorem restored_of_encode (generation : Nat) {registry : Registry} (hv : registry.Verbatim) :
    c.Restored registry (load c.partition generation c.index
      (c.contents.toList.map fun e => e.2.encode e.1) registry true).value := by
  have r := load_encode hs h generation registry true
  have b := brought_load c.partition generation c.index
    (c.contents.toList.map fun e => e.2.encode e.1) registry true
  have hknown {block slot} (hslot : c.slot? block = some slot)
      (hk : (registry.resolve? slot.typeTag).isSome) : ∃ state, slot.state? = some state ∧
        slot.reload registry true block =
          some (.live ⟨slot.id, slot.typeTag, block, state⟩) := by
    obtain ⟨state, hstate, hst⟩ := stored_of_encode hs hd h hslot
    exact ⟨state, hstate, Slot.reload_of_verbatim hst (hv _ hk)⟩
  have hunknown {block slot} (hslot : c.slot? block = some slot)
      (hk : registry.resolve? slot.typeTag = none) : slot.reload registry true block =
        some (.raw ⟨slot.id, slot.typeTag, slot.encode block⟩) := by
    obtain ⟨state, -, hst⟩ := stored_of_encode hs hd h hslot
    exact Slot.reload_of_unresolved hst hk
  refine ⟨⟨r.identity.2.2.2.2, ?_, ?_, ?_⟩, fun hn => ?_, fun hslot hk => ?_, fun hslot hk => ?_⟩
  · rw [b.report]
    exact Loading.countP_verdicts_eq_zero.mpr fun _ _ _ => not_isFailed_records hs hd h hv
  · refine List.eq_nil_iff_forall_not_mem.mpr fun block hm => ?_
    obtain ⟨slot, hslot, hn⟩ := (r.missing block).mp hm
    obtain ⟨state, -, hst⟩ := stored_of_encode hs hd h hslot
    cases hn.symm.trans hst
  · refine List.eq_nil_iff_forall_not_mem.mpr fun entry hm => ?_
    obtain ⟨slot, hslot, -, -, hn⟩ := (r.dropped entry.1 entry.2).mp hm
    cases hk : registry.resolve? slot.typeTag with
    | none => cases hn.symm.trans (hunknown hslot hk)
    | some factory =>
      obtain ⟨state, -, hlive⟩ := hknown hslot (by rw [hk]; rfl)
      cases hn.symm.trans hlive
  · rw [r.slot, hn, Option.bind_none]
  · rw [r.slot, hslot, Option.bind_some]
    exact hknown hslot hk
  · rw [r.slot, hslot, Option.bind_some]
    exact hunknown hslot hk

end Written

/-- A chunk that is restored, its raw records as they were, is written as before. -/
theorem Restored.encode_eq {registry : Registry} {outcome : LoadedChunk × LoadReport}
    (r : c.Restored registry outcome) (hp : outcome.1.partition = c.partition)
    (hraw : ∀ block record, c.slot? block = some (.raw record) →
      registry.resolve? record.typeTag = none) : outcome.1.encode = c.encode := by
  refine encode_congr hp fun block => ?_
  cases hslot : c.slot? block with
  | none => rw [r.empty hslot]
  | some slot =>
    cases hk : registry.resolve? slot.typeTag with
    | none =>
      rw [r.unknown hslot hk]
      rfl
    | some factory =>
      cases slot with
      | live m =>
        obtain ⟨state, hstate, hlive⟩ := r.known hslot (by rw [hk]; rfl)
        cases hstate
        rw [hlive]
        rfl
      | raw record => cases (hraw block record hslot).symm.trans hk

/-- Whatever can be written for a chunk is read back in full and written as the same bytes again. -/
theorem roundTrips_of_encode {index data : Bytes} (hc : c.Formed)
    (hd : ∀ block m, c.machine? block = some m → m.state.depth ≤ Machine.depthLimit)
    (h : c.encode = .ok (index, data)) : ∃ records, c.RoundTrips index data records := by
  have hs := hc.sound
  obtain ⟨hindex, hrecords⟩ := decode_encode h
  refine ⟨_, hindex, hrecords, aligned_of_encode hs hd h, ?_, ?_⟩
  · exact fun generation registry hv => restored_of_encode hs hd h generation hv
  · intro generation registry hv hraw
    rw [← h]
    exact (restored_of_encode hs hd h generation hv).encode_eq (brought_load ..).identity.1 hraw

/-- A chunk read with a record of unknown type, after which a machine is saved off the block that it
reports. -/
def patchedChunk : LoadedChunk :=
  (load ⟨"world", ⟨0, 0⟩⟩ 1 ⟨⟨0, 0⟩, ∅⟩
    [Machine.encode ⟨.ofRandom 1, "relic", ⟨"world", 8, 5, 8⟩, .null⟩] {} true).value.1.place
      ⟨"world", 1, 5, 1⟩ (.live ⟨.ofRandom 2, "furnace", ⟨"world", 40, 5, 40⟩, .null⟩)

theorem roundTrips_patchedChunk : ∃ index data records, patchedChunk.Formed ∧
    (∀ block m, patchedChunk.machine? block = some m → m.state.depth ≤ Machine.depthLimit) ∧
    patchedChunk.encode = .ok (index, data) ∧ patchedChunk.RoundTrips index data records := by
  have hplace : patchedChunk.partition.contains ⟨"world", 1, 5, 1⟩ := by decide +kernel
  have hc : patchedChunk.Formed := .saved (.loaded ..) (if_pos hplace)
  have hmachines : ∀ e ∈ patchedChunk.machines, e.2.state.depth ≤ Machine.depthLimit := by
    decide +kernel
  have hd (block : Block) (m : Machine) (hm : patchedChunk.machine? block = some m) :
      m.state.depth ≤ Machine.depthLimit :=
    hmachines _ (mem_machines.mpr (machine?_eq_some.mp hm))
  obtain ⟨⟨index, data⟩, h⟩ := exists_of_isOk (show patchedChunk.encode.isOk by decide +kernel)
  obtain ⟨records, hr⟩ := roundTrips_of_encode hc hd h
  exact ⟨index, data, records, hc, hd, h, hr⟩

end LoadedChunk

end MachineVault
