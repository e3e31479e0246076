import Mathlib.Data.List.Basic
import MachineVault.Proofs.Loading

/-! A chunk in two maps, one of its machines and one of its raw records. Nothing in their type keeps
a block from being in both: a save has to take the raw record out itself, and a load writes to one
map without a look at the other. Whatever is loaded and written, they are the two halves of one map
from blocks to slots, and so they stay apart. -/

namespace MachineVault

structure ChunkMaps where
  partition : Partition
  machines : Std.ExtTreeMap Block Machine := ∅
  raw : Std.ExtTreeMap Block RawRecord := ∅

/-- A write to a chunk in memory. -/
inductive LoadedChunk.Write
  | save (block : Block) (machine : Machine)
  | remove (block : Block)
  | edit (block : Block) (change : Machine → Machine)

/-- The chunk after a write, and the machine that a save or a removal gives back. -/
def LoadedChunk.perform (c : LoadedChunk) : Write → LoadedChunk × Except Error (Option Machine)
  | .save block machine =>
    match c.save block machine with
    | .ok saved => (saved, .ok (c.machine? block))
    | .error e => (c, .error e)
  | .remove block => (c.remove block, .ok (c.machine? block))
  | .edit block change => (c.edit block change, .ok none)

def LoadedChunk.performAll (c : LoadedChunk) (writes : List Write) : LoadedChunk :=
  writes.foldl (fun c write => (c.perform write).1) c

namespace ChunkMaps

/-- Writes to the one map and leaves the other alone. -/
def put (maps : ChunkMaps) (block : Block) : Slot → ChunkMaps
  | .live machine => { maps with machines := maps.machines.insert block machine }
  | .raw record => { maps with raw := maps.raw.insert block record }

/-- Puts a machine on a block of the partition, and gives back the one it replaces. -/
def save (maps : ChunkMaps) (block : Block) (machine : Machine) :
    Except Error (ChunkMaps × Option Machine) :=
  if maps.partition.contains block then
    .ok ({ maps with raw := maps.raw.erase block }.put block (.live machine), maps.machines[block]?)
  else .error (.precondition (.outsidePartition block maps.partition))

def remove (maps : ChunkMaps) (block : Block) : ChunkMaps × Option Machine :=
  ({ maps with machines := maps.machines.erase block, raw := maps.raw.erase block },
    maps.machines[block]?)

def edit (maps : ChunkMaps) (block : Block) (change : Machine → Machine) : ChunkMaps :=
  { maps with machines := maps.machines.modify block change }

def perform (maps : ChunkMaps) :
    LoadedChunk.Write → ChunkMaps × Except Error (Option Machine)
  | .save block machine =>
    match maps.save block machine with
    | .ok (saved, replaced) => (saved, .ok replaced)
    | .error e => (maps, .error e)
  | .remove block => ((maps.remove block).1, .ok (maps.remove block).2)
  | .edit block change => (maps.edit block change, .ok none)

def performAll (maps : ChunkMaps) (writes : List LoadedChunk.Write) : ChunkMaps :=
  writes.foldl (fun maps write => (maps.perform write).1) maps

def holds (maps : ChunkMaps) (block : Block) : Bool :=
  maps.machines.contains block || maps.raw.contains block

/-- The machines are entered first, then the raw records. -/
def index (maps : ChunkMaps) : ChunkIndex where
  chunk := maps.partition.chunk
  entries := maps.machines.map (fun _ machine => machine.typeTag) ∪
    maps.raw.map fun _ record => record.typeTag

/-- What is written for a block that the index lists. A machine is looked for first. -/
def encodeAt? (maps : ChunkMaps) (block : Block) : Option Bytes :=
  match maps.machines[block]? with
  | some machine => some { machine with location := block }.encode
  | none => maps.raw[block]?.map RawRecord.bytes

def encode (maps : ChunkMaps) : Except FormatError (Bytes × Bytes) := do
  let index ← maps.index.encode
  let records ← RecordList.encode (maps.index.entries.keys.filterMap maps.encodeAt?)
  return (index, records)

/-- A load under way, with the blocks that have had their record. -/
structure Filling where
  maps : ChunkMaps
  seen : Std.ExtTreeSet Block := ∅

/-- One more stored record. Neither map is searched for what may be on its block. -/
def Filling.add (registry : Registry) (preserve : Bool) (f : Filling) (bytes : Bytes) : Filling :=
  match Machine.decode bytes with
  | .error _ => f
  | .ok record =>
    if ¬ f.maps.partition.contains record.location then f
    else if f.seen.contains record.location then f
    else
      let f := { f with seen := f.seen.insert record.location }
      match registry.rebuild record with
      | .ok machine => { f with maps := f.maps.put record.location (.live machine) }
      | .error _ =>
        if preserve then
          { f with maps := f.maps.put record.location (.raw ⟨record.id, record.typeTag, bytes⟩) }
        else f

def load (partition : Partition) (records : List Bytes) (registry : Registry) (preserve : Bool) :
    ChunkMaps :=
  (records.foldl (Filling.add registry preserve) { maps := { partition } }).maps

/-- No block is in both maps. -/
def Apart (maps : ChunkMaps) : Prop :=
  ∀ block : Block, maps.machines[block]? = none ∨ maps.raw[block]? = none

theorem ext_getElem? {maps maps' : ChunkMaps} (hp : maps.partition = maps'.partition)
    (hm : ∀ block : Block, maps.machines[block]? = maps'.machines[block]?)
    (hr : ∀ block : Block, maps.raw[block]? = maps'.raw[block]?) : maps = maps' := by
  have hmachines : maps.machines = maps'.machines :=
    Std.ExtTreeMap.ext_getElem? fun block => hm block
  have hraw : maps.raw = maps'.raw := Std.ExtTreeMap.ext_getElem? fun block => hr block
  cases maps
  cases maps'
  cases hp
  cases hmachines
  cases hraw
  rfl

end ChunkMaps

namespace LoadedChunk

/-- The two halves of a chunk. -/
def maps (c : LoadedChunk) : ChunkMaps where
  partition := c.partition
  machines := c.contents.filterMap fun _ slot => slot.machine?
  raw := c.contents.filterMap fun _ slot => slot.record?

@[simp] theorem getElem?_machines_maps (c : LoadedChunk) (block : Block) :
    c.maps.machines[block]? = c.machine? block :=
  Std.ExtTreeMap.getElem?_filterMap'

@[simp] theorem getElem?_raw_maps (c : LoadedChunk) (block : Block) :
    c.maps.raw[block]? = (c.slot? block).bind Slot.record? :=
  Std.ExtTreeMap.getElem?_filterMap'

/-- Maps that agree with a chunk on every block are its own. -/
theorem eq_maps {maps : ChunkMaps} {c : LoadedChunk} (hp : maps.partition = c.partition)
    (h : ∀ block : Block, maps.machines[block]? = c.machine? block ∧
      maps.raw[block]? = (c.slot? block).bind Slot.record?) : maps = c.maps := by
  refine ChunkMaps.ext_getElem? hp (fun block => ?_) fun block => ?_
  · rw [getElem?_machines_maps, (h block).1]
  · rw [getElem?_raw_maps, (h block).2]

theorem apart_maps (c : LoadedChunk) : c.maps.Apart := by
  intro block
  rw [getElem?_machines_maps, getElem?_raw_maps, machine?]
  rcases c.slot? block with _ | machine | record
  · exact .inl rfl
  · exact .inr rfl
  · exact .inl rfl

theorem maps_of_empty {c : LoadedChunk} (h : c.contents = ∅) :
    { partition := c.partition } = c.maps := by
  refine eq_maps rfl fun block => ?_
  simp [machine?, slot?, h]

theorem remove_maps (c : LoadedChunk) (block : Block) :
    c.maps.remove block = ((c.remove block).maps, c.machine? block) := by
  refine Prod.ext (eq_maps rfl fun b => ?_) (getElem?_machines_maps c block)
  simp only [ChunkMaps.remove, getElem?_erase, getElem?_machines_maps, getElem?_raw_maps, machine?,
    slot?_remove]
  split <;> exact ⟨rfl, rfl⟩

/-- A machine is written to its own map, once a raw record has been taken out of the other. -/
theorem put_erase_maps (c : LoadedChunk) (block : Block) (machine : Machine) :
    { c.maps with raw := c.maps.raw.erase block }.put block (.live machine) =
      (c.place block (.live machine)).maps := by
  refine eq_maps rfl fun b => ?_
  simp only [ChunkMaps.put, getElem?_insert, getElem?_erase, getElem?_machines_maps,
    getElem?_raw_maps, machine?, slot?_place]
  split <;> exact ⟨rfl, rfl⟩

/-- On a free block nothing has to be taken out of the other map. -/
theorem put_maps {c : LoadedChunk} {block : Block} (h : c.slot? block = none) (slot : Slot) :
    c.maps.put block slot = (c.place block slot).maps := by
  refine eq_maps (by cases slot <;> rfl) fun b => ?_
  by_cases hb : b = block
  · subst hb
    cases slot <;> simp [ChunkMaps.put, machine?, h, Slot.machine?, Slot.record?]
  · cases slot <;> simp [ChunkMaps.put, getElem?_insert, machine?, hb]

theorem save_maps (c : LoadedChunk) (block : Block) (machine : Machine) :
    c.maps.save block machine =
      (c.save block machine).map fun saved => (saved.maps, c.machine? block) := by
  unfold ChunkMaps.save save
  change (if c.partition.contains block then _ else _) = _
  split
  · rw [put_erase_maps, getElem?_machines_maps]
    rfl
  · rfl

theorem edit_maps (c : LoadedChunk) (block : Block) (change : Machine → Machine) :
    c.maps.edit block change = (c.edit block change).maps := by
  unfold edit
  cases hm : c.machine? block with
  | none =>
    refine eq_maps rfl fun b => ⟨?_, getElem?_raw_maps c b⟩
    rw [ChunkMaps.edit, Std.ExtTreeMap.getElem?_modify]
    by_cases hb : b = block
    · simp [hb, hm]
    · simp [Ne.symm hb]
  | some machine =>
    have hs := machine?_eq_some.mp hm
    refine eq_maps rfl fun b => ?_
    rw [ChunkMaps.edit, Std.ExtTreeMap.getElem?_modify]
    by_cases hb : b = block
    · simp [hb, hs, machine?, Slot.machine?, Slot.record?]
    · simp [hb, Ne.symm hb, machine?]

/-- A write to the two maps does what it does to the chunk, and gives back the same. -/
theorem perform_maps (c : LoadedChunk) (write : Write) :
    c.maps.perform write = ((c.perform write).1.maps, (c.perform write).2) := by
  cases write with
  | save block machine =>
    rw [ChunkMaps.perform, perform, save_maps]
    cases c.save block machine <;> rfl
  | remove block =>
    rw [ChunkMaps.perform, remove_maps]
    rfl
  | edit block change =>
    rw [ChunkMaps.perform, edit_maps]
    rfl

theorem performAll_maps (c : LoadedChunk) (writes : List Write) :
    c.maps.performAll writes = (c.performAll writes).maps := by
  induction writes generalizing c with
  | nil => rfl
  | cons write writes ih =>
    refine Eq.trans ?_ (ih (c.perform write).1)
    rw [ChunkMaps.performAll, List.foldl_cons, perform_maps]
    rfl

theorem holds_maps (c : LoadedChunk) (block : Block) : c.maps.holds block = c.holds block := by
  rw [ChunkMaps.holds, holds_eq, ← Std.ExtTreeMap.isSome_getElem?_eq_contains,
    ← Std.ExtTreeMap.isSome_getElem?_eq_contains, getElem?_machines_maps, getElem?_raw_maps,
    machine?]
  rcases c.slot? block with _ | machine | record <;> rfl

theorem toList_machines_maps (c : LoadedChunk) : c.maps.machines.toList = c.machines :=
  toList_eq_of_mem_iff c.ascending_machines fun block machine => by
    rw [mem_machines, getElem?_machines_maps, machine?_eq_some]

theorem toList_raw_maps (c : LoadedChunk) : c.maps.raw.toList = c.rawRecords :=
  toList_eq_of_mem_iff c.ascending_rawRecords fun block record => by
    rw [mem_rawRecords, getElem?_raw_maps]
    rcases c.slot? block with _ | machine | record' <;> simp [Slot.record?]

/-- Both maps are entered in the index, and neither overwrites an entry of the other. -/
theorem index_maps (c : LoadedChunk) : c.maps.index = c.index := by
  have hentries : c.maps.index.entries = c.index.entries := by
    refine Std.ExtTreeMap.ext_getElem? fun block => ?_
    rw [ChunkMaps.index, Std.ExtTreeMap.getElem?_union, Std.ExtTreeMap.getElem?_map,
      Std.ExtTreeMap.getElem?_map, getElem?_machines_maps, getElem?_raw_maps]
    refine Eq.trans ?_ (get?_index c block).symm
    rw [machine?]
    rcases c.slot? block with _ | machine | record <;> rfl
  rw [show c.maps.index = { c.index with entries := c.maps.index.entries } from rfl, hentries]

theorem encodeAt?_maps {c : LoadedChunk} {block : Block} :
    c.maps.encodeAt? block = (c.slot? block).map (Slot.encode block) := by
  rw [ChunkMaps.encodeAt?, getElem?_machines_maps, getElem?_raw_maps, machine?]
  rcases c.slot? block with _ | machine | record <;> rfl

/-- The two maps have the stored form of the chunk. -/
theorem encode_maps (c : LoadedChunk) : c.maps.encode = c.encode := by
  have hrecords : c.index.entries.keys.filterMap c.maps.encodeAt? =
      c.contents.toList.map fun entry => entry.2.encode entry.1 := by
    rw [index, Std.ExtTreeMap.keys_map, ← Std.ExtTreeMap.map_fst_toList_eq_keys,
      List.filterMap_map]
    refine List.filterMap_eq_map_iff_forall_eq_some.mpr fun entry hm => ?_
    rw [Function.comp_apply, encodeAt?_maps, mem_toList.mp hm]
    rfl
  rw [ChunkMaps.encode, index_maps, hrecords]
  rfl

end LoadedChunk

namespace Loading

variable {l : Loading} {partition : Partition} {generation : Nat} {index : ChunkIndex}
  {registry : Registry} {preserve : Bool} {records : List Bytes}

def filling (l : Loading) : ChunkMaps.Filling where
  maps := l.chunk.maps
  seen := l.seen

/-- A block without a record so far is in neither map. -/
theorem Surveyed.free_of_not_seen
    (t : l.Surveyed partition generation index registry preserve records) {block : Block}
    (hp : block.partition = partition) (hs : block ∉ l.seen) : l.chunk.slot? block = none :=
  t.free hp (Option.not_isSome_iff_eq_none.mp fun hf => hs ((t.seen block).mpr ⟨hp, hf⟩))

theorem filling_rebuilt {record machine : Machine} (h : l.chunk.slot? record.location = none) :
    (l.settle index preserve (.rebuilt record machine)).filling =
      ⟨l.chunk.maps.put record.location (.live machine), l.seen.insert record.location⟩ := by
  rw [LoadedChunk.put_maps h]
  rfl

theorem filling_unbuilt {record : Machine} {bytes : Bytes} {cause : Error}
    (h : l.chunk.slot? record.location = none) :
    (l.settle index preserve (.unbuilt record bytes cause)).filling =
      ⟨if preserve then
          l.chunk.maps.put record.location (.raw ⟨record.id, record.typeTag, bytes⟩)
        else l.chunk.maps, l.seen.insert record.location⟩ := by
  rw [LoadedChunk.put_maps h]
  cases preserve <;> cases cause <;> rfl

/-- One more record comes to the same in the two maps and in the one. -/
theorem Surveyed.add_filling
    (t : l.Surveyed partition generation index registry preserve records) (bytes : Bytes) :
    l.filling.add registry preserve bytes =
      (l.add index registry preserve bytes).value.filling := by
  change _ = (l.settle index preserve (l.judge registry bytes)).filling
  unfold ChunkMaps.Filling.add Loading.judge
  cases Machine.decode bytes with
  | error cause => rfl
  | ok record =>
    have hpartition : l.filling.maps.partition = l.chunk.partition := rfl
    have hseen : l.filling.seen = l.seen := rfl
    simp only [hpartition, hseen]
    by_cases hp : l.chunk.partition.contains record.location = true
    · by_cases hs : l.seen.contains record.location = true
      · simp only [hp, hs, not_true_eq_false, if_false, if_true]
        rfl
      · have hfree : l.chunk.slot? record.location = none := by
          refine t.free_of_not_seen ?_ (fun hm => hs (Std.ExtTreeSet.contains_iff_mem.mpr hm))
          rw [← t.identity.1]
          exact of_decide_eq_true hp
        simp only [hp, hs, not_true_eq_false, if_false, Bool.false_eq_true]
        cases registry.rebuild record with
        | ok machine => exact (filling_rebuilt hfree).symm
        | error cause =>
          refine Eq.trans ?_ (filling_unbuilt hfree).symm
          cases preserve <;> rfl
    · rw [if_pos hp, if_pos hp]
      rfl

theorem foldl_add_filling (partition : Partition) (generation : Nat) (index : ChunkIndex)
    (registry : Registry) (preserve : Bool) (records : List Bytes) :
    records.foldl (ChunkMaps.Filling.add registry preserve) { maps := { partition } } =
      (records.foldl (fun l bytes => (Loading.add index registry preserve l bytes).value)
        (start partition generation)).filling := by
  induction records using List.reverseRecOn with
  | nil =>
    rw [List.foldl_nil, List.foldl_nil, filling, ← LoadedChunk.maps_of_empty rfl]
    rfl
  | append_singleton records bytes ih =>
    rw [List.foldl_append, List.foldl_append, ih]
    exact (surveyed_foldl ..).add_filling bytes

end Loading

namespace ChunkMaps

/-- What is stored comes into the two maps as it comes into the chunk. -/
theorem load_eq (partition : Partition) (generation : Nat) (index : ChunkIndex)
    (records : List Bytes) (registry : Registry) (preserve : Bool) :
    load partition records registry preserve = (LoadedChunk.load partition generation index records
      registry preserve).value.1.maps := by
  rw [load, LoadedChunk.load, Logged.value_bind, Logged.value_foldlM,
    Loading.foldl_add_filling partition generation index]
  rfl

/-- Whatever is stored and whatever is written to the chunk then, no block is in both maps. -/
theorem apart_performAll_load (partition : Partition) (records : List Bytes) (registry : Registry)
    (preserve : Bool) (writes : List LoadedChunk.Write) :
    ((load partition records registry preserve).performAll writes).Apart := by
  -- the index and the number leave no trace in the maps, so any will do
  rw [load_eq partition 0 ⟨partition.chunk, ∅⟩, LoadedChunk.performAll_maps]
  exact LoadedChunk.apart_maps _

end ChunkMaps

end MachineVault
