import MachineVault.IdentifierCache
import MachineVault.Proofs.Ascending

/-! The identifier cache is the set of its pairs, and its table is read back as the same cache. -/

namespace MachineVault.IdentifierCache

variable {cache cache' : IdentifierCache} {id : MachineId} {block : Block}

theorem idAt?_eq_some : cache.idAt? block = some id ↔ cache.locationOf? id = some block :=
  (cache.inverse id block).symm

theorem locationOf?_empty : empty.locationOf? id = none := Std.ExtTreeMap.getElem?_empty

theorem ext_locationOf? (h : ∀ id, cache.locationOf? id = cache'.locationOf? id) :
    cache = cache' := by
  have hi : cache.byId = cache'.byId := Std.ExtTreeMap.ext_getElem? fun id => h id
  have hb : cache.byBlock = cache'.byBlock := by
    refine Std.ExtTreeMap.ext_getElem? fun block => Option.ext fun id => ?_
    rw [← cache.inverse, ← cache'.inverse, hi]
  cases cache
  cases cache'
  cases hi
  cases hb
  rfl

/-- Pairs of a cache are told apart by each half. -/
theorem block_eq_iff {id' : MachineId} {block' : Block} (h : cache.locationOf? id = some block)
    (h' : cache.locationOf? id' = some block') : block = block' ↔ id = id' := by
  constructor
  · rintro rfl
    rw [← idAt?_eq_some] at h h'
    exact Option.some.inj (h.symm.trans h')
  · rintro rfl
    exact Option.some.inj (h.symm.trans h')

theorem insert_of_cached (h : cache.locationOf? id = some block) :
    cache.insert id block = cache := by
  refine ext_locationOf? fun id' => ?_
  rw [locationOf?_insert]
  split
  · rename_i heq
    rw [heq, h]
  · rename_i hne
    rw [if_neg fun h' => hne ((block_eq_iff h' h).mp rfl)]

theorem locationOf?_insert_eq_some {id' : MachineId} {block' : Block} :
    (cache.insert id block).locationOf? id' = some block' ↔
      (id' = id ∧ block' = block) ∨
        (id' ≠ id ∧ block' ≠ block ∧ cache.locationOf? id' = some block') := by
  rw [locationOf?_insert]
  by_cases hi : id' = id
  · simp [hi, eq_comm]
  · rw [if_neg hi]
    by_cases hb : cache.locationOf? id' = some block
    · simp only [hb, if_true, reduceCtorEq, Option.some.injEq, hi, false_and, false_or, false_iff]
      exact fun ⟨_, hne, heq⟩ => hne heq.symm
    · rw [if_neg hb]
      constructor
      · exact fun h => .inr ⟨hi, fun heq => hb (heq ▸ h), h⟩
      · intro hx
        rcases hx with ⟨heq, -⟩ | ⟨-, -, h⟩
        · exact absurd heq hi
        · exact h

theorem locationOf?_eraseBlock_eq_some {block' : Block} :
    (cache.eraseBlock block).locationOf? id = some block' ↔
      block' ≠ block ∧ cache.locationOf? id = some block' := by
  rw [locationOf?_eraseBlock]
  split
  · rename_i h
    simp [h, eq_comm]
  · rename_i h
    exact ⟨fun h' => ⟨fun heq => h (heq ▸ h'), h'⟩, fun h' => h'.2⟩

theorem locationOf?_eraseId_eq_some {id' : MachineId} :
    (cache.eraseId id).locationOf? id' = some block ↔
      id' ≠ id ∧ cache.locationOf? id' = some block := by
  rw [locationOf?_eraseId]
  split
  · rename_i heq
    simp [heq]
  · rename_i hne
    exact ⟨fun h => ⟨hne, h⟩, fun h => h.2⟩

theorem leaves?_eq_some {old : Block} :
    cache.leaves? id block = some old ↔ cache.locationOf? id = some old ∧ old ≠ block := by
  simp [leaves?, Option.filter_eq_some_iff]

theorem locationOf?_foldl_eraseBlock (blocks : List Block) (cache : IdentifierCache) :
    (blocks.foldl eraseBlock cache).locationOf? id = some block ↔
      block ∉ blocks ∧ cache.locationOf? id = some block := by
  induction blocks generalizing cache with
  | nil => simp
  | cons b blocks ih =>
    rw [List.foldl_cons, ih, locationOf?_eraseBlock_eq_some, List.mem_cons, not_or, and_left_comm,
      and_assoc]

theorem mem_blocks : block ∈ cache.blocks ↔ ∃ id, cache.locationOf? id = some block := by
  rw [blocks, Std.ExtTreeMap.mem_keys, Std.ExtTreeMap.mem_iff_isSome_getElem?,
    Option.isSome_iff_exists]
  exact exists_congr fun id => idAt?_eq_some

/-- Pairs that share no half with each other or with the cache are all added. -/
theorem locationOf?_foldl_insert (entries : List CacheEntry) (cache : IdentifierCache)
    (hd : entries.Pairwise fun a b => a.id ≠ b.id ∧ a.location ≠ b.location)
    (hn : ∀ e ∈ entries, ∀ id block, cache.locationOf? id = some block →
      id ≠ e.id ∧ block ≠ e.location) :
    (entries.foldl (fun cache e => cache.insert e.id e.location) cache).locationOf? id = some block ↔
      cache.locationOf? id = some block ∨ ⟨id, block⟩ ∈ entries := by
  induction entries generalizing cache with
  | nil => simp
  | cons e entries ih =>
    obtain ⟨hd, hds⟩ := List.pairwise_cons.mp hd
    rw [List.foldl_cons, ih _ hds, locationOf?_insert_eq_some, List.mem_cons]
    · constructor
      · intro hx
        rcases hx with (⟨rfl, rfl⟩ | ⟨-, -, h⟩) | h
        · exact .inr (.inl rfl)
        · exact .inl h
        · exact .inr (.inr h)
      · intro hx
        rcases hx with h | rfl | h
        · obtain ⟨hi, hb⟩ := hn e List.mem_cons_self _ _ h
          exact .inl (.inr ⟨hi, hb, h⟩)
        · exact .inl (.inl ⟨rfl, rfl⟩)
        · exact .inr h
    · intro e' he' id block h
      rcases locationOf?_insert_eq_some.mp h with ⟨rfl, rfl⟩ | ⟨-, -, h⟩
      · exact hd e' he'
      · exact hn e' (List.mem_cons_of_mem _ he') id block h

theorem mem_toTable : ⟨id, block⟩ ∈ cache.toTable.entries ↔ cache.locationOf? id = some block := by
  rw [toTable, List.mem_map, ← idAt?_eq_some]
  constructor
  · intro hx
    rcases hx with ⟨⟨b, i⟩, hm, he⟩
    cases he
    exact Std.ExtTreeMap.mem_toList_iff_getElem?_eq_some.mp hm
  · intro h
    exact ⟨(block, id), Std.ExtTreeMap.mem_toList_iff_getElem?_eq_some.mpr h, rfl⟩

theorem toTable_pairwise (cache : IdentifierCache) :
    cache.toTable.entries.Pairwise fun a b => a.id ≠ b.id ∧ a.location ≠ b.location := by
  have ha := ascending_toList cache.byBlock
  rw [toTable, List.pairwise_map]
  refine List.Pairwise.imp_of_mem ?_ ha
  rintro ⟨b, i⟩ ⟨b', i'⟩ hm hm' hlt
  have hne : b ≠ b' := by
    rintro rfl
    exact Std.OrientedCmp.not_lt_of_lt hlt hlt
  have h := idAt?_eq_some.mp (Std.ExtTreeMap.mem_toList_iff_getElem?_eq_some.mp hm)
  have h' := idAt?_eq_some.mp (Std.ExtTreeMap.mem_toList_iff_getElem?_eq_some.mp hm')
  exact ⟨fun heq => hne ((block_eq_iff h h').mpr heq), hne⟩

theorem value_insertEntry (cache : IdentifierCache) (e : CacheEntry) :
    (cache.insertEntry e).value = cache.insert e.id e.location := by
  unfold insertEntry
  split <;> split <;> rfl

theorem value_ofTable (table : CacheTable) :
    (ofTable table).value =
      table.entries.foldl (fun cache e => cache.insert e.id e.location) empty := by
  simp only [ofTable, Logged.value_foldlM, value_insertEntry]

/-- A table of which no two entries share a half is read entry for entry. -/
theorem locationOf?_ofTable {entries : List CacheEntry}
    (hd : entries.Pairwise fun a b => a.id ≠ b.id ∧ a.location ≠ b.location) :
    (ofTable ⟨entries⟩).value.locationOf? id = some block ↔ ⟨id, block⟩ ∈ entries := by
  rw [value_ofTable, locationOf?_foldl_insert _ _ hd]
  · simp [locationOf?_empty]
  · intro _ _ _ _ h
    rw [locationOf?_empty] at h
    cases h

/-- What is saved of a cache is the cache. -/
theorem ofTable_toTable (cache : IdentifierCache) : (ofTable cache.toTable).value = cache := by
  refine ext_locationOf? fun id => Option.ext fun block => ?_
  exact (locationOf?_ofTable cache.toTable_pairwise).trans mem_toTable

end MachineVault.IdentifierCache
