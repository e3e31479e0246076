import MachineVault.Proofs.Storage.Flushing
import MachineVault.Storage.Operation

/-! Generation numbers matter to reports only. Storages that differ in nothing else answer every call
alike, and go on differing in nothing else. -/

namespace MachineVault

def LoadedChunk.numbered (c : LoadedChunk) (generation : Nat) : LoadedChunk := { c with generation }

def LoadReport.numbered (r : LoadReport) (generation : Nat) : LoadReport := { r with generation }

def FlushReport.numbered (r : FlushReport) (generation : Nat) : FlushReport := { r with generation }

/-- An answer without its generation number. -/
def Answer.unnumbered : Answer → Answer
  | loaded outcome => loaded (outcome.map (·.numbered 0))
  | flushed outcome => flushed (outcome.map (Option.map (·.numbered 0)))
  | generation g => generation (g.map fun _ => 0)
  | chunk c => chunk (c.map (·.numbered 0))
  | answer => answer

namespace Loading

variable {index : ChunkIndex} {registry : Registry} {preserve : Bool}

def numbered (l : Loading) (generation : Nat) : Loading :=
  { l with chunk := l.chunk.numbered generation, report := l.report.numbered generation }

theorem add_numbered (l : Loading) (generation : Nat) (bytes : Bytes) :
    (add index registry preserve (l.numbered generation) bytes).value =
      (add index registry preserve l bytes).value.numbered generation := by
  change (l.numbered generation).settle index preserve (l.judge registry bytes) =
    (l.settle index preserve (l.judge registry bytes)).numbered generation
  cases l.judge registry bytes with
  | undecodable | outside | repeated | rebuilt => rfl
  | unbuilt record bytes cause => cases cause <;> cases preserve <;> rfl

theorem foldl_numbered (records : List Bytes) (l : Loading) (generation : Nat) :
    records.foldl (fun l bytes => (add index registry preserve l bytes).value)
        (l.numbered generation) =
      (records.foldl (fun l bytes => (add index registry preserve l bytes).value) l).numbered
        generation := by
  induction records generalizing l with
  | nil => rfl
  | cons bytes records ih =>
    rw [List.foldl_cons, List.foldl_cons, add_numbered]
    exact ih _

end Loading

theorem LoadedChunk.load_numbered (partition : Partition) (generation generation' : Nat)
    (index : ChunkIndex) (records : List Bytes) (registry : Registry) (preserve : Bool) :
    (load partition generation' index records registry preserve).value =
      (load partition generation index records registry preserve).value.map
        (·.numbered generation') (·.numbered generation') := by
  simp only [load, Logged.value_bind, Logged.value_foldlM]
  rw [show Loading.start partition generation' =
    (Loading.start partition generation).numbered generation' from rfl, Loading.foldl_numbered]
  rfl

theorem eq_error_of_map_eq {ε α β : Type} {f : α → β} {x : Except ε α} {e : ε}
    (h : x.map f = (Except.error e : Except ε α).map f) : x = .error e := by
  cases x with
  | error e' =>
    cases h
    rfl
  | ok a => cases h

theorem exists_ok_of_map_eq {ε α β : Type} {f : α → β} {x : Except ε α} {a : α}
    (h : x.map f = (Except.ok a : Except ε α).map f) : ∃ a', x = .ok a' := by
  cases x with
  | error e => cases h
  | ok a' => exact ⟨a', rfl⟩

/-- Whether there is an error does not depend on what is made of the rest. -/
theorem map_unit_eq {ε α β : Type} {f : α → β} {x y : Except ε α} (h : x.map f = y.map f) :
    (x.map fun _ => ()) = y.map fun _ => () := by
  cases y with
  | error e =>
    rw [eq_error_of_map_eq h]
  | ok a =>
    obtain ⟨a', rfl⟩ := exists_ok_of_map_eq h
    rfl

namespace Storage

variable {σ : Type}

/-- Two storages that differ in generation numbers only. -/
structure Alike (s t : Storage σ) : Prop where
  config : t.config = s.config
  registry : t.registry = s.registry
  backing : t.backing = s.backing
  cache : t.cache = s.cache
  chunk : ∀ partition,
    (t.chunk? partition).map (·.numbered 0) = (s.chunk? partition).map (·.numbered 0)

variable {s t : Storage σ} {partition : Partition} {c : LoadedChunk} {generation : Nat}

namespace Alike

theorem chunk_eq_none (h : s.Alike t) (hc : s.chunk? partition = none) :
    t.chunk? partition = none := by
  have hm := h.chunk partition
  rw [hc] at hm
  exact Option.map_eq_none_iff.mp hm

theorem chunk_eq_some (h : s.Alike t) (hc : s.chunk? partition = some c) :
    ∃ generation, t.chunk? partition = some (c.numbered generation) := by
  have hm := h.chunk partition
  rw [hc, Option.map_some] at hm
  obtain ⟨c', hc', heq⟩ := Option.map_eq_some_iff.mp hm
  refine ⟨c'.generation, hc'.trans (congrArg some ?_)⟩
  have hn := congrArg (·.numbered c'.generation) heq
  exact hn

theorem release (h : s.Alike t) (r : FlushReport) (generation : Nat) :
    (s.release r).value.1.Alike (t.release (r.numbered generation)).value.1 ∧
      (t.release (r.numbered generation)).value.2.map (Option.map (·.numbered 0)) =
        (s.release r).value.2.map (Option.map (·.numbered 0)) := by
  refine ⟨⟨h.config, h.registry, h.backing, h.cache, fun partition => ?_⟩, rfl⟩
  change ((t.chunks.erase r.partition)[partition]?).map _ =
    ((s.chunks.erase r.partition)[partition]?).map _
  rw [chunk?_erase, chunk?_erase]
  split
  · rfl
  · exact h.chunk partition

theorem put (h : s.Alike t) (partition : Partition) (c : LoadedChunk) (generation : Nat) :
    (s.putChunk partition c).Alike (t.putChunk partition (c.numbered generation)) := by
  refine ⟨h.config, h.registry, h.backing, h.cache, fun partition' => ?_⟩
  rw [chunk?_putChunk, chunk?_putChunk]
  split
  · rfl
  · exact h.chunk partition'

theorem isLoaded (h : s.Alike t) (partition : Partition) :
    t.isLoaded partition = s.isLoaded partition := by
  have hs := congrArg Option.isSome (h.chunk partition)
  rw [Option.isSome_map, Option.isSome_map] at hs
  rw [Storage.isLoaded, Storage.isLoaded, ← Std.ExtTreeMap.isSome_getElem?_eq_contains,
    ← Std.ExtTreeMap.isSome_getElem?_eq_contains]
  exact hs

theorem generationOf? (h : s.Alike t) (partition : Partition) :
    (t.generationOf? partition).map (fun _ => 0) = (s.generationOf? partition).map fun _ => 0 := by
  have hg := congrArg (Option.map fun _ => 0) (h.chunk partition)
  rw [Option.map_map, Option.map_map] at hg
  rw [Storage.generationOf?, Storage.generationOf?, Option.map_map, Option.map_map]
  exact hg

theorem loadedPartitions (h : s.Alike t) : t.loadedPartitions = s.loadedPartitions := by
  have heq : (t.chunks.map fun _ c => c.numbered 0) = s.chunks.map fun _ c => c.numbered 0 := by
    refine Std.ExtTreeMap.ext_getElem? fun partition => ?_
    rw [Std.ExtTreeMap.getElem?_map, Std.ExtTreeMap.getElem?_map]
    exact h.chunk partition
  have hkeys := congrArg Std.ExtTreeMap.keys heq
  rwa [Std.ExtTreeMap.keys_map, Std.ExtTreeMap.keys_map] at hkeys

theorem buildChunk (h : s.Alike t) (partition : Partition) (index data : Option Bytes) :
    (t.buildChunk partition index data).value = (s.buildChunk partition index data).value.map
      fun o => (o.1.numbered t.nextGeneration, o.2.numbered t.nextGeneration) := by
  unfold Storage.buildChunk
  split
  · rfl
  · simp only [Logged.value_bind, h.registry, h.config]
    cases (readIndex partition index).value with
    | error e => rfl
    | ok index =>
      simp only [Logged.value_bind]
      cases (readRecords partition data).value with
      | error e => rfl
      | ok records =>
        simp only [Logged.value_bind, Logged.value_pure]
        rw [LoadedChunk.load_numbered partition s.nextGeneration t.nextGeneration]
        rfl

theorem adopt (h : s.Alike t) (c : LoadedChunk) (r : LoadReport) (generation : Nat) :
    (s.adopt c r).value.1.Alike (t.adopt (c.numbered generation) (r.numbered generation)).value.1 ∧
      (t.adopt (c.numbered generation) (r.numbered generation)).value.2 =
        (s.adopt c r).value.2.numbered generation := by
  have hput := h.put r.partition c generation
  unfold Storage.adopt
  simp only [Logged.value_bind, Logged.value_pure, h.config, h.cache]
  exact ⟨⟨hput.config, hput.registry, hput.backing, rfl, hput.chunk⟩, rfl⟩

theorem evict (h : s.Alike t) (id : MachineId) (block : Block) :
    (s.evict id block).1.Alike (t.evict id block).1 := by
  unfold Storage.evict
  cases hc : s.chunk? block.partition with
  | none =>
    rw [h.chunk_eq_none hc]
    exact h
  | some c =>
    obtain ⟨generation, hc'⟩ := h.chunk_eq_some hc
    have hm : (c.numbered generation).machine? block = c.machine? block := rfl
    rw [hc']
    dsimp only
    rw [hm]
    split
    · exact h.put _ (c.remove block) generation
    · exact h

theorem leave (h : s.Alike t) (id : MachineId) (target : Block) :
    (s.leave id target).value.Alike (t.leave id target).value := by
  unfold Storage.leave
  rw [h.cache]
  split
  · exact h
  · exact h.evict ..

theorem activateEmpty (h : s.Alike t) (partition : Partition) :
    (s.activateEmpty partition).value.1.Alike (t.activateEmpty partition).value.1 ∧
      (t.activateEmpty partition).value.2.numbered 0 =
        (s.activateEmpty partition).value.2.numbered 0 := by
  unfold Storage.activateEmpty
  cases hc : s.chunk? partition with
  | some c =>
    obtain ⟨generation, hc'⟩ := h.chunk_eq_some hc
    rw [hc']
    exact ⟨h, rfl⟩
  | none =>
    rw [h.chunk_eq_none hc, h.cache]
    have hput := h.put partition (.superseding partition s.nextGeneration) t.nextGeneration
    exact ⟨⟨hput.config, hput.registry, hput.backing, rfl, hput.chunk⟩, rfl⟩

end Alike

variable [Backing σ]

/-- Two calls with the same result that lead to alike storages. -/
def Agree {α : Type} (call call' : Logged (Storage σ × α)) : Prop :=
  call.value.1.Alike call'.value.1 ∧ call'.value.2 = call.value.2

namespace Alike

theorem readChunk (h : s.Alike t) (partition : Partition) :
    (t.readChunk partition).value = (s.readChunk partition).value.map
      fun o => (o.1.numbered t.nextGeneration, o.2.numbered t.nextGeneration) := by
  unfold Storage.readChunk
  rw [h.backing, h.config]
  split
  · rfl
  · rfl
  · exact h.buildChunk ..

/-- A load fails in both storages with the same error, or brings the same chunk into both. -/
theorem load (h : s.Alike t) (partition : Partition) :
    (∃ e, (s.load partition).value = (s, .error e) ∧ (t.load partition).value = (t, .error e)) ∨
      ∃ s' t' c r generation, s'.Alike t' ∧ (s.load partition).value = (s', .ok (c, r)) ∧
        (t.load partition).value = (t', .ok (c.numbered generation, r.numbered generation)) := by
  unfold Storage.load
  cases hc : s.chunk? partition with
  | some c =>
    obtain ⟨generation, hc'⟩ := h.chunk_eq_some hc
    rw [hc']
    exact .inr ⟨s, t, c, c.reportLoaded, generation, h, rfl, rfl⟩
  | none =>
    rw [h.chunk_eq_none hc]
    have hr := h.readChunk partition
    simp only [Logged.value_bind]
    cases ho : (s.readChunk partition).value with
    | error e =>
      rw [ho] at hr
      simp only [hr, Except.map]
      exact .inl ⟨e, rfl, rfl⟩
    | ok o =>
      rw [ho] at hr
      simp only [hr, Except.map, Logged.value_bind, Logged.value_pure]
      obtain ⟨ha, hreport⟩ := h.adopt o.1 o.2 t.nextGeneration
      exact .inr ⟨_, _, _, _, _, ha, rfl, by rw [hreport]⟩

theorem withChunk {α : Type}
    {next : Storage σ → LoadedChunk → Logged (Storage σ × Except Error α)} (h : s.Alike t)
    (partition : Partition) (hnext : ∀ {s' t' : Storage σ} (c : LoadedChunk) (generation : Nat),
      s'.Alike t' → Agree (next s' c) (next t' (c.numbered generation))) :
    Agree (s.withChunk partition next) (t.withChunk partition next) := by
  unfold Agree Storage.withChunk
  simp only [Logged.value_bind]
  rcases h.load partition with ⟨e, hs, ht⟩ | ⟨s', t', c, r, generation, h', hs, ht⟩
  · rw [hs, ht]
    exact ⟨h, rfl⟩
  · rw [hs, ht]
    exact hnext c generation h'

theorem get (h : s.Alike t) (location : Location) : Agree (s.get location) (t.get location) :=
  h.withChunk _ fun _ _ h' => ⟨h', rfl⟩

theorem edit (h : s.Alike t) (location : Location) (change : Machine → Machine) :
    Agree (s.edit location change) (t.edit location change) := by
  refine h.withChunk _ fun c generation h' => ?_
  have hedit : (c.numbered generation).edit location.block change =
      (c.edit location.block change).numbered generation := by
    have hm : (c.numbered generation).machine? location.block = c.machine? location.block := rfl
    rw [LoadedChunk.edit, LoadedChunk.edit, hm]
    cases c.machine? location.block with
    | none => rfl
    | some m => rfl
  rw [hedit]
  exact ⟨h'.put _ _ generation, rfl⟩

theorem machinesOf (h : s.Alike t) (partition : Partition) :
    Agree (s.machinesOf partition) (t.machinesOf partition) :=
  h.withChunk _ fun _ _ h' => ⟨h', rfl⟩

theorem getById (h : s.Alike t) (id : MachineId) : Agree (s.getById id) (t.getById id) := by
  unfold Storage.getById
  rw [h.cache]
  split
  · exact ⟨h, rfl⟩
  · rename_i block hl
    refine h.withChunk _ fun c generation h' => ?_
    have hm : (c.numbered generation).machine? block = c.machine? block := rfl
    rw [hm]
    cases c.machine? block with
    | none => exact ⟨h', rfl⟩
    | some m =>
      by_cases hi : m.id = id
      · simp only [hi, if_true]
        exact ⟨h', rfl⟩
      · simp only [hi, if_false]
        exact ⟨h', rfl⟩

theorem remove (h : s.Alike t) (location : Location) :
    Agree (s.remove location) (t.remove location) := by
  refine h.withChunk _ fun {s' t'} c generation h' => ?_
  have hput := h'.put location.block.partition (c.remove location.block) generation
  have hm : (c.numbered generation).machine? location.block = c.machine? location.block := rfl
  have hcache := congrArg (IdentifierCache.eraseBlock · location.block) h'.cache
  unfold Agree
  simp only [hm, h'.cache]
  cases c.machine? location.block with
  | none => exact ⟨⟨hput.config, hput.registry, hput.backing, rfl, hput.chunk⟩, rfl⟩
  | some m =>
    dsimp only
    split
    · split
      · exact ⟨⟨hput.config, hput.registry, hput.backing, rfl, hput.chunk⟩, rfl⟩
      · exact ⟨⟨hput.config, hput.registry, hput.backing, rfl, hput.chunk⟩, rfl⟩
    · exact ⟨⟨hput.config, hput.registry, hput.backing, rfl, hput.chunk⟩, rfl⟩

theorem save (h : s.Alike t) (location : Location) (m : Machine) :
    Agree (s.save location m) (t.save location m) := by
  unfold Storage.save
  dsimp only
  cases checkSaveable location.block m with
  | error e => exact ⟨h, rfl⟩
  | ok u =>
    dsimp only
    -- the event before the chunk is called for makes no difference
    split
    all_goals
      refine h.withChunk _ fun {s' t'} c generation h' => ?_
      have hsave : (c.numbered generation).save location.block m =
          (c.save location.block m).map (·.numbered generation) := by
        unfold LoadedChunk.save
        split
        · rw [if_pos (by assumption)]
          rfl
        · rw [if_neg (by assumption)]
          rfl
      rw [hsave]
      cases c.save location.block m with
      | error e => exact ⟨h', rfl⟩
      | ok saved =>
        have hl := (h'.put location.block.partition saved generation).leave m.id location.block
        have hcache := congrArg (IdentifierCache.insert · m.id location.block) hl.cache
        exact ⟨⟨hl.config, hl.registry, hl.backing, hcache, hl.chunk⟩, rfl⟩

theorem activate (h : s.Alike t) (partition : Partition) :
    (s.activate partition).value.1.Alike (t.activate partition).value.1 ∧
      (t.activate partition).value.2.map (·.numbered 0) =
        (s.activate partition).value.2.map (·.numbered 0) := by
  unfold Storage.activate
  simp only [Logged.value_bind, Logged.value_pure]
  rcases h.load partition with ⟨e, hs, ht⟩ | ⟨s', t', c, r, generation, h', hs, ht⟩
  · rw [hs, ht]
    exact ⟨h, rfl⟩
  · rw [hs, ht]
    exact ⟨h', rfl⟩

theorem commit (h : s.Alike t) (r : FlushReport) (generation : Nat) (index data : Bytes) :
    (s.commit r index data).value.1.Alike (t.commit (r.numbered generation) index data).value.1 ∧
      (t.commit (r.numbered generation) index data).value.2.map (Option.map (·.numbered 0)) =
        (s.commit r index data).value.2.map (Option.map (·.numbered 0)) := by
  have hp : (r.numbered generation).partition = r.partition := rfl
  unfold Storage.commit
  simp only [Logged.value_bind, h.config, h.backing, hp]
  cases (Backing.commit s.backing r.partition
      [(s.config.indexTag, index), (s.config.dataTag, data)]).value with
  | mk backing outcome =>
    have hb : ({ s with backing } : Storage σ).Alike { t with config := s.config, backing } :=
      ⟨rfl, h.registry, rfl, h.cache, h.chunk⟩
    cases outcome with
    | error e => exact ⟨hb, rfl⟩
    | ok u =>
      exact hb.release { r with
        committed := true, indexBytes := index.length, dataBytes := data.length } generation

theorem deactivate (h : s.Alike t) (partition : Partition) :
    (s.deactivate partition).value.1.Alike (t.deactivate partition).value.1 ∧
      (t.deactivate partition).value.2.map (Option.map (·.numbered 0)) =
        (s.deactivate partition).value.2.map (Option.map (·.numbered 0)) := by
  unfold Storage.deactivate
  cases hc : s.chunk? partition with
  | none =>
    rw [h.chunk_eq_none hc]
    exact ⟨h, rfl⟩
  | some c =>
    obtain ⟨generation, hc'⟩ := h.chunk_eq_some hc
    have hcache : ({ s with cache := refreshed s.cache c } : Storage σ).Alike
        { t with cache := refreshed s.cache c } := ⟨h.config, h.registry, h.backing, rfl, h.chunk⟩
    have hsame : holdings (c.numbered generation) = holdings c ∧
        (c.numbered generation).isEmpty = c.isEmpty ∧
        (c.numbered generation).persisted = c.persisted ∧
        (c.numbered generation).encode = c.encode := ⟨rfl, rfl, rfl, rfl⟩
    rw [hc']
    simp only [Logged.value_bind, h.cache, hsame]
    let report : FlushReport :=
      ⟨partition, c.generation, c.machineCount, c.rawCount, false, 0, 0⟩
    split
    · exact hcache.release report generation
    · cases c.encode with
      | error e => exact ⟨hcache, rfl⟩
      | ok bytes => exact hcache.commit report generation bytes.1 bytes.2

theorem flushEach (h : s.Alike t) (partitions : List Partition) :
    (s.flushEach partitions).value.1.Alike (t.flushEach partitions).value.1 ∧
      (t.flushEach partitions).value.2 = (s.flushEach partitions).value.2 := by
  induction partitions generalizing s t with
  | nil => exact ⟨h, rfl⟩
  | cons partition rest ih =>
    obtain ⟨hd, ho⟩ := h.deactivate partition
    obtain ⟨hr, he⟩ := ih hd
    rw [value_flushEach_cons, value_flushEach_cons]
    refine ⟨hr, ?_⟩
    dsimp only
    rw [he]
    cases hs : (s.deactivate partition).value.2 with
    | error e =>
      rw [hs] at ho
      rw [eq_error_of_map_eq ho]
    | ok report =>
      rw [hs] at ho
      obtain ⟨report', ht⟩ := exists_ok_of_map_eq ho
      rw [ht]

theorem saveCache (h : s.Alike t) : Agree s.saveCache t.saveCache := by
  unfold Agree
  rw [value_saveCache, value_saveCache, h.backing, h.cache]
  exact ⟨⟨h.config, h.registry, rfl, rfl, h.chunk⟩, rfl⟩

theorem flushAll (h : s.Alike t) : Agree s.flushAll t.flushAll := by
  obtain ⟨hf, he⟩ := h.flushEach s.loadedPartitions
  obtain ⟨hs, ho⟩ := hf.saveCache
  unfold Agree
  rw [value_flushAll, value_flushAll, flushed, flushed, h.loadedPartitions, he]
  refine ⟨hs, ?_⟩
  dsimp only
  split
  · exact ho
  · rfl

/-- Storages that differ in generation numbers only answer a call alike, and go on so. -/
theorem perform (h : s.Alike t) (operation : Operation) :
    (s.after [operation]).Alike (t.after [operation]) ∧
      (t.perform operation).value.2.unnumbered = (s.perform operation).value.2.unnumbered := by
  have agree {α : Type} {answer : α → Answer} {call call' : Logged (Storage σ × α)}
      (ha : Agree call call') : call.value.1.Alike call'.value.1 ∧
        (answer call'.value.2).unnumbered = (answer call.value.2).unnumbered :=
    ⟨ha.1, by rw [ha.2]⟩
  cases operation with
  | get location => exact agree (h.get location)
  | edit location change => exact agree (h.edit location change)
  | getById id => exact agree (h.getById id)
  | save location m => exact agree (h.save location m)
  | remove location => exact agree (h.remove location)
  | machinesOf partition => exact agree (h.machinesOf partition)
  | locationOf id =>
    exact ⟨h, congrArg (fun c : IdentifierCache => Answer.block (c.locationOf? id)) h.cache⟩
  | idOf location =>
    exact ⟨h, congrArg (fun c : IdentifierCache => Answer.id (c.idAt? location.block)) h.cache⟩
  | contains location =>
    exact ⟨h, congrArg (fun c : IdentifierCache => Answer.flag (c.contains location.block)) h.cache⟩
  | keys => exact ⟨h, congrArg (fun c : IdentifierCache => Answer.blocks c.blocks) h.cache⟩
  | isLoaded partition => exact ⟨h, congrArg Answer.flag (h.isLoaded partition)⟩
  | loadedPartitions => exact ⟨h, congrArg Answer.partitions h.loadedPartitions⟩
  | generationOf partition => exact ⟨h, congrArg Answer.generation (h.generationOf? partition)⟩
  | chunkOf partition => exact ⟨h, congrArg Answer.chunk (h.chunk partition)⟩
  | activate partition =>
    obtain ⟨ha, ho⟩ := h.activate partition
    exact ⟨ha, congrArg Answer.loaded ho⟩
  | activateEmpty partition =>
    obtain ⟨ha, ho⟩ := h.activateEmpty partition
    exact ⟨ha, congrArg (Answer.loaded ∘ Except.ok) ho⟩
  | deactivate partition =>
    obtain ⟨hd, ho⟩ := h.deactivate partition
    exact ⟨hd, congrArg Answer.flushed ho⟩
  | handle notice =>
    cases notice with
    | activated partition =>
      obtain ⟨ha, ho⟩ := h.activate partition
      exact ⟨ha, congrArg Answer.done (map_unit_eq ho)⟩
    | deactivated partition =>
      obtain ⟨hd, ho⟩ := h.deactivate partition
      exact ⟨hd, congrArg Answer.done (map_unit_eq ho)⟩
  | flushAll => exact agree h.flushAll
  | saveCache => exact agree h.saveCache

/-- A run keeps storages alike and is answered alike. -/
theorem run (h : s.Alike t) (operations : List Operation) :
    (s.after operations).Alike (t.after operations) ∧
      (t.answers operations).map Answer.unnumbered =
        (s.answers operations).map Answer.unnumbered := by
  induction operations generalizing s t with
  | nil => exact ⟨h, rfl⟩
  | cons operation rest ih =>
    obtain ⟨hp, ha⟩ := h.perform operation
    obtain ⟨hr, has⟩ := ih hp
    rw [after_cons, after_cons]
    refine ⟨hr, ?_⟩
    change _ :: (Storage.answers (t.after [operation]) rest).map _ = _
    rw [ha, has]
    rfl

end Alike

end Storage

end MachineVault
