import MachineVault.Proofs.ChunkIndex
import MachineVault.Proofs.Loading
import MachineVault.Proofs.Record
import MachineVault.Proofs.RecordList

/-! Loading what a chunk was encoded to. Each slot comes back by itself: as a machine where its
record is readable and a factory rebuilds it, as a raw record where none does and such records are
preserved, and else not at all. -/

namespace MachineVault

/-- The factory of a tag gives back what was recorded. -/
def Registry.RebuildsVerbatim (r : Registry) (tag : String) : Prop :=
  r.resolve? tag = some (.verbatim tag)

theorem Registry.RebuildsVerbatim.rebuild {r : Registry} {m : Machine}
    (h : r.RebuildsVerbatim m.typeTag) : r.rebuild m = .ok m := by
  unfold Registry.rebuild
  rw [show r.resolve? m.typeTag = _ from h]
  rfl

theorem Registry.rebuild_of_resolve?_eq_none {r : Registry} {m : Machine}
    (h : r.resolve? m.typeTag = none) : r.rebuild m = .error (.unknownType m.typeTag) := by
  rw [Registry.rebuild, h]

namespace Slot

/-- The record that is read back of what is stored for a slot. -/
def stored? (block : Block) (slot : Slot) : Option Machine :=
  (Machine.decode (slot.encode block)).toOption

theorem stored?_eq_some {block : Block} {slot : Slot} {record : Machine} :
    slot.stored? block = some record ↔ Machine.decode (slot.encode block) = .ok record := by
  unfold stored?
  cases Machine.decode (slot.encode block) <;> simp [Except.toOption]

/-- What a later load makes of a slot. -/
def reload (registry : Registry) (preserve : Bool) (block : Block) (slot : Slot) : Option Slot :=
  (slot.stored? block).bind fun record =>
    match registry.rebuild record with
    | .ok machine => some (.live machine)
    | .error _ =>
      if preserve then some (.raw ⟨record.id, record.typeTag, slot.encode block⟩) else none

/-- A raw record is the record of the block it is kept on, and of the machine it names. -/
def Genuine (block : Block) : Slot → Prop
  | live _ => True
  | raw record =>
    ∃ state, Machine.decode record.bytes = .ok ⟨record.id, record.typeTag, block, state⟩

theorem stored?_live {block : Block} {m : Machine}
    (h : ({ m with location := block } : Machine).encode.length < 2 ^ 32) :
    (live m).stored? block =
      if m.state.depth ≤ Machine.depthLimit then some { m with location := block } else none := by
  have hd := Machine.decode_encode { m with location := block } [] h
  rw [List.append_nil] at hd
  rw [stored?, encode, hd]
  split <;> rfl

theorem stored?_raw {block : Block} {record : RawRecord} (h : (raw record).Genuine block) :
    ∃ state, (raw record).stored? block = some ⟨record.id, record.typeTag, block, state⟩ := by
  obtain ⟨state, hd⟩ := h
  exact ⟨state, by rw [stored?, encode, hd, Except.toOption]⟩

/-- What is read back of a slot belongs to its block and to its machine. -/
theorem Genuine.of_stored {block : Block} {slot : Slot} {record : Machine}
    (hg : slot.Genuine block) (hl : (slot.encode block).length < 2 ^ 32)
    (h : slot.stored? block = some record) :
    record.location = block ∧ record.id = slot.id ∧ record.typeTag = slot.typeTag := by
  cases slot with
  | live m =>
    rw [stored?_live hl] at h
    split at h
    · cases h
      exact ⟨rfl, rfl, rfl⟩
    · cases h
  | raw raw =>
    obtain ⟨state, hs⟩ := stored?_raw hg
    rw [hs] at h
    cases h
    exact ⟨rfl, rfl, rfl⟩

/-- A slot that comes back is genuine again. -/
theorem Genuine.of_reload {registry : Registry} {preserve : Bool} {block : Block}
    {slot slot' : Slot} (hg : slot.Genuine block) (hl : (slot.encode block).length < 2 ^ 32)
    (h : slot.reload registry preserve block = some slot') : slot'.Genuine block := by
  unfold reload at h
  obtain ⟨record, hs, h⟩ := Option.bind_eq_some_iff.mp h
  split at h
  · cases h
    trivial
  · split at h
    · cases h
      obtain ⟨hb, -, -⟩ := hg.of_stored hl hs
      subst hb
      exact ⟨record.state, stored?_eq_some.mp hs⟩
    · cases h

theorem reload_eq_none_of_stored {registry : Registry} {preserve : Bool} {block : Block}
    {slot : Slot} (h : slot.stored? block = none) : slot.reload registry preserve block = none := by
  rw [reload, h, Option.bind_none]

theorem reload_of_verbatim {registry : Registry} {preserve : Bool} {block : Block} {slot : Slot}
    {record : Machine} (hs : slot.stored? block = some record)
    (h : registry.RebuildsVerbatim record.typeTag) :
    slot.reload registry preserve block = some (.live record) := by
  rw [reload, hs, Option.bind_some, Registry.RebuildsVerbatim.rebuild h]

theorem reload_of_unresolved {registry : Registry} {block : Block} {slot : Slot} {record : Machine}
    (hs : slot.stored? block = some record) (h : registry.resolve? record.typeTag = none) :
    slot.reload registry true block =
      some (.raw ⟨record.id, record.typeTag, slot.encode block⟩) := by
  rw [reload, hs, Option.bind_some, Registry.rebuild_of_resolve?_eq_none h]
  rfl

theorem reload_live {registry : Registry} {preserve : Bool} {block : Block} {m : Machine}
    (h : registry.RebuildsVerbatim m.typeTag)
    (hl : ((live m).encode block).length < 2 ^ 32) :
    (live m).reload registry preserve block =
      if m.state.depth ≤ Machine.depthLimit then some (.live { m with location := block })
      else none := by
  split
  · rename_i hd
    exact reload_of_verbatim ((stored?_live hl).trans (if_pos hd)) h
  · rename_i hd
    exact reload_eq_none_of_stored ((stored?_live hl).trans (if_neg hd))

end Slot

/-- Every slot lies in the partition and is genuine. -/
structure LoadedChunk.Sound (c : LoadedChunk) : Prop where
  partition : ∀ {block slot}, c.slot? block = some slot → block.partition = c.partition
  genuine : ∀ {block slot}, c.slot? block = some slot → slot.Genuine block

namespace LoadedChunk

/-- A later load of what a chunk was encoded to: every slot comes back, is counted as dropped, or
leaves its index entry without a record. -/
structure Reloaded (c : LoadedChunk) (generation : Nat) (registry : Registry) (preserve : Bool)
    (outcome : LoadedChunk × LoadReport) : Prop where
  identity : outcome.1.partition = c.partition ∧ outcome.1.generation = generation ∧
    outcome.1.persisted = true ∧ outcome.2.partition = c.partition ∧ outcome.2.inconsistent = 0
  slot : ∀ block, outcome.1.slot? block = (c.slot? block).bind (Slot.reload registry preserve block)
  dropped : ∀ id block, (id, block) ∈ outcome.2.dropped ↔
    ∃ slot, c.slot? block = some slot ∧ slot.id = id ∧ (slot.stored? block).isSome ∧
      slot.reload registry preserve block = none
  missing : ∀ block, block ∈ outcome.2.missingRecords ↔
    ∃ slot, c.slot? block = some slot ∧ slot.stored? block = none

/-- The index and the records of an encoded chunk. -/
theorem decode_encode {c : LoadedChunk} {index data : Bytes} (h : c.encode = .ok (index, data)) :
    ChunkIndex.decode index = .ok c.index ∧
      RecordList.decode data = .ok (c.contents.toList.map fun e => e.2.encode e.1) := by
  obtain ⟨_, hi, h⟩ := bind_eq_ok.mp h
  obtain ⟨_, hd, h⟩ := bind_eq_ok.mp h
  cases h
  exact ⟨ChunkIndex.decode_encode hi, RecordList.decode_encode hd⟩

theorem length_lt_of_encode {c : LoadedChunk} {index data : Bytes}
    (h : c.encode = .ok (index, data)) {block : Block} {slot : Slot}
    (hs : c.slot? block = some slot) : (slot.encode block).length < 2 ^ 32 := by
  obtain ⟨_, _, h⟩ := bind_eq_ok.mp h
  obtain ⟨_, hd, _⟩ := bind_eq_ok.mp h
  exact RecordList.length_lt_of_encode hd _ (List.mem_map.mpr ⟨_, mem_toList.mpr hs, rfl⟩)

/-- Each stored record is that of a slot, and the first one for its block. -/
theorem slot_of_records {c : LoadedChunk} (hs : c.Sound)
    (hl : ∀ {block slot}, c.slot? block = some slot → (slot.encode block).length < 2 ^ 32)
    {before after : List Bytes} {bytes : Bytes}
    (h : (c.contents.toList.map fun e => e.2.encode e.1) = before ++ bytes :: after) :
    ∃ block slot, c.slot? block = some slot ∧ bytes = slot.encode block ∧
      recordFor? before block = none := by
  obtain ⟨front, back, heq, rfl, hback⟩ := List.map_eq_append_iff.mp h
  obtain ⟨⟨block, slot⟩, back, rfl, rfl, -⟩ := List.map_eq_cons_iff.mp hback
  have hmem {e : Block × Slot} (he : e ∈ front ++ (block, slot) :: back) :
      c.slot? e.1 = some e.2 := mem_toList.mp (heq ▸ he)
  have hslot := hmem (List.mem_append_right front List.mem_cons_self)
  refine ⟨block, slot, hslot, rfl, recordFor?_eq_none.mpr ?_⟩
  intro bytes hb record hd hloc
  obtain ⟨⟨block', slot'⟩, hm, rfl⟩ := List.mem_map.mp hb
  have hslot' := hmem (List.mem_append_left _ hm)
  have hst := (hs.genuine hslot').of_stored (hl hslot') (Slot.stored?_eq_some.mpr hd)
  -- the slots are in ascending order, so the blocks of two of them differ
  have ha := ascending_toList c.contents
  rw [heq] at ha
  have hlt := (List.pairwise_append.mp ha).2.2 _ hm _ List.mem_cons_self
  rw [show block' = block from hst.1.symm.trans hloc] at hlt
  exact Std.OrientedCmp.not_lt_of_lt hlt hlt

/-- The stored record for a block is that of the slot on it. -/
theorem recordFor?_records {c : LoadedChunk} (hs : c.Sound)
    (hl : ∀ {block slot}, c.slot? block = some slot → (slot.encode block).length < 2 ^ 32)
    (block : Block) : recordFor? (c.contents.toList.map fun e => e.2.encode e.1) block =
      (c.slot? block).bind fun slot => (slot.stored? block).map (slot.encode block, ·) := by
  have hof {bytes record}
      (h : recordFor? (c.contents.toList.map fun e => e.2.encode e.1) block =
        some (bytes, record)) : ∃ slot, c.slot? block = some slot ∧ bytes = slot.encode block ∧
          slot.stored? block = some record := by
    obtain ⟨before, after, heq, hd, rfl, -⟩ := recordFor?_eq_some.mp h
    obtain ⟨block, slot, hslot, rfl, -⟩ := slot_of_records hs hl heq
    have hst := Slot.stored?_eq_some.mpr hd
    obtain ⟨rfl, -, -⟩ := (hs.genuine hslot).of_stored (hl hslot) hst
    exact ⟨slot, hslot, rfl, hst⟩
  refine Option.ext fun entry => ⟨fun h => ?_, fun h => ?_⟩
  · obtain ⟨slot, hslot, hb, hst⟩ := hof h
    simp [hslot, hst, ← hb]
  · obtain ⟨slot, hslot, h⟩ := Option.bind_eq_some_iff.mp h
    obtain ⟨record, hst, rfl⟩ := Option.map_eq_some_iff.mp h
    have hloc := (hs.genuine hslot).of_stored (hl hslot) hst
    cases hr : recordFor? (c.contents.toList.map fun e => e.2.encode e.1) block with
    | none =>
      refine absurd hloc.1 (recordFor?_eq_none.mp hr _ ?_ record (Slot.stored?_eq_some.mp hst))
      exact List.mem_map.mpr ⟨_, mem_toList.mpr hslot, rfl⟩
    | some entry =>
      obtain ⟨slot', hslot', hb, hst'⟩ := hof hr
      rw [hslot] at hslot'
      cases hslot'
      rw [hst] at hst'
      cases hst'
      rw [← hb]

/-- The index lists each stored record as it is. -/
theorem isDisputed_records {c : LoadedChunk} (hs : c.Sound)
    (hl : ∀ {block slot}, c.slot? block = some slot → (slot.encode block).length < 2 ^ 32)
    {registry : Registry} {before after : List Bytes} {bytes : Bytes}
    (h : (c.contents.toList.map fun e => e.2.encode e.1) = before ++ bytes :: after) :
    (Loading.verdict c.partition registry before bytes).isDisputed c.index = false := by
  obtain ⟨block, slot, hslot, rfl, -⟩ := slot_of_records hs hl h
  have hn {record} (hd : Machine.decode (slot.encode block) = .ok record) :
      Loading.indexDispute? c.index record = none := by
    obtain ⟨hb, -, htag⟩ := (hs.genuine hslot).of_stored (hl hslot) (Slot.stored?_eq_some.mpr hd)
    rw [Loading.indexDispute?, get?_index, hb, hslot, htag]
    exact if_pos rfl
  have j := Loading.judged c.partition registry before (slot.encode block)
  generalize Loading.verdict c.partition registry before (slot.encode block) = v at j
  cases j with
  | undecodable | outside | repeated => rfl
  | rebuilt hd | unbuilt hd =>
    rw [Verdict.isDisputed, hn hd]
    rfl

theorem load_encode {c : LoadedChunk} {index data : Bytes} (hs : c.Sound)
    (h : c.encode = .ok (index, data)) (generation : Nat) (registry : Registry) (preserve : Bool) :
    c.Reloaded generation registry preserve (load c.partition generation c.index
      (c.contents.toList.map fun e => e.2.encode e.1) registry preserve).value := by
  have hl {block slot} : c.slot? block = some slot → (slot.encode block).length < 2 ^ 32 :=
    length_lt_of_encode h
  have hrecord := recordFor?_records hs hl
  have b := brought_load c.partition generation c.index
    (c.contents.toList.map fun e => e.2.encode e.1) registry preserve
  refine ⟨⟨b.identity.1, b.identity.2, persisted_load .., ?_, ?_⟩, fun block => ?_,
    fun id block => ?_, fun block => ?_⟩
  · rw [b.report]
    rfl
  · rw [b.report]
    exact Loading.countP_verdicts_eq_zero.mpr fun _ _ _ => isDisputed_records hs hl
  · rw [b.slot, slotFor?, hrecord]
    cases hslot : c.slot? block with
    | none => simp
    | some slot =>
      rw [if_pos (hs.partition hslot), Option.bind_some, Option.bind_some, Option.bind_map]
      rfl
  · rw [b.mem_dropped]
    constructor
    · intro h
      rcases h with ⟨before, bytes, after, record, heq, hd, rfl, rfl, hlost⟩
      obtain ⟨block, slot, hslot, rfl, hf⟩ := slot_of_records hs hl heq
      have hst := Slot.stored?_eq_some.mpr hd
      obtain ⟨rfl, hid, -⟩ := (hs.genuine hslot).of_stored (hl hslot) hst
      refine ⟨slot, hslot, hid.symm, by rw [hst]; rfl, ?_⟩
      rcases hlost with hne | hsome | hnone
      · exact absurd (hs.partition hslot) hne
      · rw [hf] at hsome
        cases hsome
      · rw [Slot.reload, hst]
        exact hnone
    · intro h
      rcases h with ⟨slot, hslot, rfl, hst, hreload⟩
      obtain ⟨record, hst⟩ := Option.isSome_iff_exists.mp hst
      obtain ⟨rfl, hid, -⟩ := (hs.genuine hslot).of_stored (hl hslot) hst
      obtain ⟨before, after, heq⟩ := List.append_of_mem (List.mem_map.mpr
        ⟨_, mem_toList.mpr hslot, rfl⟩ : slot.encode record.location ∈
          c.contents.toList.map fun e => e.2.encode e.1)
      refine ⟨before, _, after, record, heq, Slot.stored?_eq_some.mp hst, hid, rfl,
        .inr (.inr ?_)⟩
      rw [Slot.reload, hst] at hreload
      exact hreload
  · rw [b.missing, get?_index, hrecord]
    cases hslot : c.slot? block with
    | none => simp
    | some slot => simp [hs.partition hslot]

end LoadedChunk

end MachineVault
