import MachineVault.Proofs.Ascending
import MachineVault.Storage.Flushing

/-! A loaded chunk is a function from blocks to slots; its lists are that function in order. -/

namespace MachineVault.LoadedChunk

variable {c : LoadedChunk} {block : Block}

@[simp] theorem slot?_place (c : LoadedChunk) (block block' : Block) (slot : Slot) :
    (c.place block slot).slot? block' = if block' = block then some slot else c.slot? block' :=
  getElem?_insert c.contents block block' slot

@[simp] theorem slot?_remove (c : LoadedChunk) (block block' : Block) :
    (c.remove block).slot? block' = if block' = block then none else c.slot? block' :=
  getElem?_erase c.contents block block'

/-- What has been placed in an empty chunk is all that is in it. -/
theorem eq_of_slot?_place {block' : Block} {slot slot' : Slot} (h : ∀ block, c.slot? block = none)
    (hs : (c.place block slot).slot? block' = some slot') : block' = block ∧ slot' = slot := by
  rw [slot?_place] at hs
  split at hs
  · cases hs
    exact ⟨‹_›, rfl⟩
  · cases (h block').symm.trans hs

theorem mem_toList {slot : Slot} : (block, slot) ∈ c.contents.toList ↔ c.slot? block = some slot :=
  Std.ExtTreeMap.mem_toList_iff_getElem?_eq_some

/-- Two chunks are the same if they are alike on every block. -/
theorem ext_slot? {c' : LoadedChunk} (hp : c.partition = c'.partition)
    (hg : c.generation = c'.generation) (hs : c.persisted = c'.persisted)
    (h : ∀ block, c.slot? block = c'.slot? block) : c = c' := by
  have hcontents : c.contents = c'.contents := Std.ExtTreeMap.ext_getElem? fun block => h block
  cases c
  cases c'
  cases hp
  cases hg
  cases hs
  cases hcontents
  rfl

/-- What is placed on a free block comes to the rest. -/
theorem toList_place_perm (h : c.slot? block = none) (slot : Slot) :
    (c.place block slot).contents.toList.Perm ((block, slot) :: c.contents.toList) := by
  have hnew : (block, slot) ∉ c.contents.toList := fun hm => by
    cases h.symm.trans (mem_toList.mp hm)
  refine (List.perm_ext_iff_of_nodup (ascending_toList _).nodup
    (List.nodup_cons.mpr ⟨hnew, (ascending_toList _).nodup⟩)).mpr fun entry => ?_
  obtain ⟨block', slot'⟩ := entry
  rw [List.mem_cons, mem_toList, mem_toList, slot?_place]
  by_cases hb : block' = block
  · subst hb
    simp [h, eq_comm]
  · simp [hb]

theorem machineCount_place (h : c.slot? block = none) (slot : Slot) :
    (c.place block slot).machineCount = c.machineCount + if slot.machine?.isSome then 1 else 0 := by
  rw [machineCount, machines, ((toList_place_perm h slot).filterMap _).length_eq]
  cases slot <;> rfl

theorem rawCount_place (h : c.slot? block = none) (slot : Slot) :
    (c.place block slot).rawCount = c.rawCount + if slot.record?.isSome then 1 else 0 := by
  rw [rawCount, rawRecords, ((toList_place_perm h slot).filterMap _).length_eq]
  cases slot <;> rfl

theorem holds_eq (c : LoadedChunk) (block : Block) : c.holds block = (c.slot? block).isSome := by
  rw [holds, slot?, Std.ExtTreeMap.isSome_getElem?_eq_contains]

theorem isEmpty_iff : c.isEmpty = true ↔ ∀ block, c.slot? block = none := by
  rw [isEmpty, Std.ExtTreeMap.isEmpty_iff]
  constructor
  · intro h block
    rw [slot?, h, Std.ExtTreeMap.getElem?_empty]
  · intro h
    refine Std.ExtTreeMap.ext_getElem? fun block => ?_
    rw [Std.ExtTreeMap.getElem?_empty]
    exact h block

theorem machine?_eq_some {m : Machine} :
    c.machine? block = some m ↔ c.slot? block = some (.live m) := by
  rw [machine?, Option.bind_eq_some_iff]
  constructor
  · intro hx
    rcases hx with ⟨slot | record, hs, hm⟩
    · cases hm
      exact hs
    · cases hm
  · exact fun h => ⟨_, h, rfl⟩

theorem mem_machines {m : Machine} : (block, m) ∈ c.machines ↔ c.slot? block = some (.live m) := by
  rw [machines, List.mem_filterMap]
  constructor
  · intro hx
    rcases hx with ⟨⟨b, slot⟩, hm, he⟩
    cases slot with
    | live m' =>
      cases he
      exact mem_toList.mp hm
    | raw record => cases he
  · exact fun h => ⟨_, mem_toList.mpr h, rfl⟩

theorem mem_rawRecords {record : RawRecord} :
    (block, record) ∈ c.rawRecords ↔ c.slot? block = some (.raw record) := by
  rw [rawRecords, List.mem_filterMap]
  constructor
  · intro hx
    rcases hx with ⟨⟨b, slot⟩, hm, he⟩
    cases slot with
    | live m => cases he
    | raw record' =>
      cases he
      exact mem_toList.mp hm
  · exact fun h => ⟨_, mem_toList.mpr h, rfl⟩

theorem rawRecords_eq_nil (h : ∀ {block slot}, c.slot? block = some slot → ∃ m, slot = .live m) :
    c.rawRecords = [] := by
  refine List.eq_nil_iff_forall_not_mem.mpr ?_
  intro entry hr
  rcases entry with ⟨block, record⟩
  obtain ⟨m, hm⟩ := h (mem_rawRecords.mp hr)
  cases hm

theorem ascending_machines (c : LoadedChunk) : Ascending c.machines := by
  refine (ascending_toList c.contents).filterMap fun e e' h => ?_
  obtain ⟨m, -, rfl⟩ := Option.map_eq_some_iff.mp h
  rfl

theorem ascending_rawRecords (c : LoadedChunk) : Ascending c.rawRecords := by
  refine (ascending_toList c.contents).filterMap fun e e' h => ?_
  obtain ⟨record, -, rfl⟩ := Option.map_eq_some_iff.mp h
  rfl

theorem get?_index (c : LoadedChunk) (block : Block) :
    c.index.get? block = (c.slot? block).map Slot.typeTag := by
  rw [ChunkIndex.get?, index, Std.ExtTreeMap.getElem?_map, slot?]

theorem mem_holdings {id : MachineId} :
    (id, block) ∈ Storage.holdings c ↔ ∃ slot, c.slot? block = some slot ∧ slot.id = id := by
  rw [Storage.holdings, List.mem_append, List.mem_map, List.mem_map]
  constructor
  · intro h
    rcases h with ⟨⟨b, m⟩, hm, he⟩ | ⟨⟨b, record⟩, hm, he⟩
    · cases he
      exact ⟨_, mem_machines.mp hm, rfl⟩
    · cases he
      exact ⟨_, mem_rawRecords.mp hm, rfl⟩
  · intro h
    rcases h with ⟨m | record, hs, hi⟩
    · exact .inl ⟨_, mem_machines.mpr hs, congrArg (·, block) hi⟩
    · exact .inr ⟨_, mem_rawRecords.mpr hs, congrArg (·, block) hi⟩

/-- No block is held twice. -/
theorem pairwise_holdings (c : LoadedChunk) :
    (Storage.holdings c).Pairwise fun a b => a.2 ≠ b.2 := by
  refine List.pairwise_append.mpr ⟨?_, ?_, ?_⟩
  · exact List.pairwise_map.mpr c.ascending_machines.pairwise_ne
  · exact List.pairwise_map.mpr c.ascending_rawRecords.pairwise_ne
  · intro a ha b hb heq
    obtain ⟨⟨block, m⟩, hm, rfl⟩ := List.mem_map.mp ha
    obtain ⟨⟨block', record⟩, hr, rfl⟩ := List.mem_map.mp hb
    dsimp only at heq
    subst heq
    cases (mem_machines.mp hm).symm.trans (mem_rawRecords.mp hr)

end MachineVault.LoadedChunk
