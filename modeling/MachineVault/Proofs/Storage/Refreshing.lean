import MachineVault.Proofs.IdentifierCache
import MachineVault.Proofs.Storage.Flushing

/-! How a flush brings the cache in line with a chunk. A machine that the cache places in another
partition stays there; of several blocks of the chunk that hold one machine, the last counts. -/

namespace MachineVault.Storage

variable {cache : IdentifierCache} {id : MachineId} {block : Block}

theorem value_refresh_of_elsewhere {block' : Block} (h : cache.locationOf? id = some block')
    (hne : block'.partition ≠ block.partition) : (refresh cache (id, block)).value = cache := by
  unfold refresh
  simp [h, Option.filter, hne]

theorem value_refresh_of_here
    (h : ∀ block', cache.locationOf? id = some block' → block'.partition = block.partition) :
    (refresh cache (id, block)).value = cache.insert id block := by
  have hf : (cache.locationOf? id).filter (fun cached => cached.partition ≠ block.partition) =
      none := by
    rw [Option.filter_eq_none_iff]
    intro block' hb
    simp [h block' hb]
  unfold refresh
  simp only [hf]
  split <;> rfl

/-- A refresh leaves the cache alone or places the machine on the block. -/
theorem value_refresh (cache : IdentifierCache) (entry : MachineId × Block) :
    (refresh cache entry).value = cache ∨
      (refresh cache entry).value = cache.insert entry.1 entry.2 := by
  by_cases h : ∃ block', cache.locationOf? entry.1 = some block' ∧
      block'.partition ≠ entry.2.partition
  · obtain ⟨block', h, hne⟩ := h
    exact .inl (value_refresh_of_elsewhere h hne)
  · refine .inr (value_refresh_of_here fun block' hb => ?_)
    by_cases hp : block'.partition = entry.2.partition
    · exact hp
    · exact absurd ⟨block', hb, hp⟩ h

/-- The cache refreshed by one machine after another. -/
def refreshEach (cache : IdentifierCache) (entries : List (MachineId × Block)) : IdentifierCache :=
  entries.foldl (fun cache entry => (refresh cache entry).value) cache

theorem refreshEach_cons (cache : IdentifierCache) (entry : MachineId × Block)
    (rest : List (MachineId × Block)) :
    refreshEach cache (entry :: rest) = refreshEach (refresh cache entry).value rest := rfl

theorem refreshEach_append (cache : IdentifierCache) (entries rest : List (MachineId × Block)) :
    refreshEach cache (entries ++ rest) = refreshEach (refreshEach cache entries) rest :=
  List.foldl_append

theorem refreshed_eq (cache : IdentifierCache) (c : LoadedChunk) :
    refreshed cache c = refreshEach cache (holdings c) := Logged.value_foldlM ..

/-- Machines that are cached where they are held change nothing. -/
theorem refreshEach_of_cached {entries : List (MachineId × Block)}
    (h : ∀ e ∈ entries, cache.locationOf? e.1 = some e.2) : refreshEach cache entries = cache := by
  induction entries with
  | nil => rfl
  | cons e rest ih =>
    have he := h e List.mem_cons_self
    have hr : (refresh cache e).value = cache := by
      rcases value_refresh cache e with hr | hr
      · exact hr
      · rw [hr, IdentifierCache.insert_of_cached he]
    rw [refreshEach_cons, hr]
    exact ih fun e' he' => h e' (List.mem_cons_of_mem _ he')

/-- What the cache places after a refresh, it placed before or is held there. -/
theorem cached_of_refreshEach {entries : List (MachineId × Block)} {cache : IdentifierCache}
    (h : (refreshEach cache entries).locationOf? id = some block) :
    cache.locationOf? id = some block ∨ (id, block) ∈ entries := by
  induction entries generalizing cache with
  | nil => exact .inl h
  | cons e rest ih =>
    rw [refreshEach_cons] at h
    rcases ih h with h | h
    · rcases value_refresh cache e with hr | hr
      · rw [hr] at h
        exact .inl h
      · rw [hr] at h
        rcases IdentifierCache.locationOf?_insert_eq_some.mp h with ⟨rfl, rfl⟩ | ⟨-, -, h⟩
        · exact .inr List.mem_cons_self
        · exact .inl h
    · exact .inr (List.mem_cons_of_mem _ h)

/-- A machine keeps its block if it is held nowhere else in the partition of that block, and nothing
else is held on the block. -/
theorem refreshEach_keeps {entries : List (MachineId × Block)} {cache : IdentifierCache}
    (hid : ∀ e ∈ entries, e.1 = id → e.2 = block ∨ e.2.partition ≠ block.partition)
    (hblock : ∀ e ∈ entries, e.2 = block → e.1 = id) (h : cache.locationOf? id = some block) :
    (refreshEach cache entries).locationOf? id = some block := by
  induction entries generalizing cache with
  | nil => exact h
  | cons e rest ih =>
    rw [refreshEach_cons]
    refine ih (fun e' he' => hid e' (List.mem_cons_of_mem _ he'))
      (fun e' he' => hblock e' (List.mem_cons_of_mem _ he')) ?_
    by_cases hi : e.1 = id
    · rcases hid e List.mem_cons_self hi with hb | hne
      · rcases value_refresh cache e with hr | hr
        · rw [hr]
          exact h
        · rw [hr, hi, hb, IdentifierCache.insert_of_cached h]
          exact h
      · rw [value_refresh_of_elsewhere (hi ▸ h) hne.symm]
        exact h
    · rcases value_refresh cache e with hr | hr
      · rw [hr]
        exact h
      · rw [hr, IdentifierCache.locationOf?_insert_eq_some]
        exact .inr ⟨Ne.symm hi, fun hb => hi (hblock e List.mem_cons_self hb.symm), h⟩

/-- A machine that is cached in a partition, if at all, stays so when that partition is flushed. -/
theorem partition_of_refreshEach {partition : Partition} {entries : List (MachineId × Block)}
    {cache : IdentifierCache} (hp : ∀ e ∈ entries, e.2.partition = partition)
    (hc : ∀ block, cache.locationOf? id = some block → block.partition = partition) (block : Block)
    (h : (refreshEach cache entries).locationOf? id = some block) :
    block.partition = partition := by
  rcases cached_of_refreshEach h with h | h
  · exact hc block h
  · exact hp _ h

/-- Of the blocks of one partition that hold a machine, the last one gets it. -/
theorem refreshEach_last {before after : List (MachineId × Block)}
    (hp : ∀ e ∈ before, e.2.partition = block.partition)
    (hc : ∀ block', cache.locationOf? id = some block' → block'.partition = block.partition)
    (hid : ∀ e ∈ after, e.1 ≠ id) (hblock : ∀ e ∈ after, e.2 ≠ block) :
    (refreshEach cache (before ++ (id, block) :: after)).locationOf? id = some block := by
  rw [refreshEach_append, refreshEach_cons,
    value_refresh_of_here (partition_of_refreshEach hp hc)]
  refine refreshEach_keeps (fun e he hi => absurd hi (hid e he))
    (fun e he hb => absurd hb (hblock e he)) ?_
  exact IdentifierCache.locationOf?_insert_eq_some.mpr (.inl ⟨rfl, rfl⟩)

theorem exists_last {α : Type} {p : α → Prop} [DecidablePred p] {as : List α} {a : α} (ha : a ∈ as)
    (hp : p a) : ∃ before b after, as = before ++ b :: after ∧ p b ∧ ∀ x ∈ after, ¬ p x := by
  have hs : (as.reverse.find? fun x => p x).isSome := by
    rw [List.find?_isSome]
    exact ⟨a, List.mem_reverse.mpr ha, decide_eq_true hp⟩
  obtain ⟨b, hb⟩ := Option.isSome_iff_exists.mp hs
  obtain ⟨hpb, front, back, heq, hn⟩ := List.find?_eq_some_iff_append.mp hb
  refine ⟨back.reverse, b, front.reverse, ?_, of_decide_eq_true hpb, fun x hx => ?_⟩
  · rw [← List.reverse_inj, heq]
    simp
  · simpa using hn x (List.mem_reverse.mp hx)

section Distinct

variable {partition : Partition} {entries : List (MachineId × Block)}

/-- A machine that the partition holds has an entry once it is flushed. -/
theorem exists_cached_of_refreshEach (hp : ∀ e ∈ entries, e.2.partition = partition)
    (hd : entries.Pairwise fun a b => a.2 ≠ b.2) (hm : (id, block) ∈ entries) :
    ∃ block', (refreshEach cache entries).locationOf? id = some block' := by
  by_cases hc : ∃ block', cache.locationOf? id = some block' ∧ block'.partition ≠ partition
  · obtain ⟨block', hl, hne⟩ := hc
    refine ⟨block', refreshEach_keeps (fun e he _ => .inr ?_) (fun e he hb => ?_) hl⟩
    · rw [hp e he]
      exact hne.symm
    · exact absurd (hb ▸ hp e he) hne
  · obtain ⟨before, ⟨id', block'⟩, after, rfl, hi, hafter⟩ :=
      exists_last (p := fun e : MachineId × Block => e.1 = id) hm rfl
    dsimp only at hi
    subst hi
    have hp' := hp (id', block') (List.mem_append_right _ List.mem_cons_self)
    refine ⟨block', refreshEach_last (fun e he => ?_) (fun b hb => ?_) hafter (fun e he => ?_)⟩
    · exact (hp e (List.mem_append_left _ he)).trans hp'.symm
    · by_contra hne
      exact hc ⟨b, hb, hp' ▸ hne⟩
    · exact ((List.pairwise_cons.mp (List.pairwise_append.mp hd).2.1).1 e he).symm

/-- A machine that is placed in another partition, if at all placed, stays where it is. -/
theorem refreshEach_elsewhere (hp : ∀ e ∈ entries, e.2.partition = partition)
    (hne : block.partition ≠ partition) (h : cache.locationOf? id = some block) :
    (refreshEach cache entries).locationOf? id = some block := by
  refine refreshEach_keeps (fun e he _ => .inr ?_) (fun e he hb => ?_) h
  · rw [hp e he]
    exact hne.symm
  · exact absurd (hb ▸ hp e he) hne

/-- A machine that the partition does not hold loses its entry to another one on the same block,
unless the cache places that one in another partition. -/
theorem refreshEach_eq_none_iff (hp : ∀ e ∈ entries, e.2.partition = partition)
    (hd : entries.Pairwise fun a b => a.2 ≠ b.2) (hn : ∀ e ∈ entries, e.1 ≠ id) :
    (refreshEach cache entries).locationOf? id = none ↔ cache.locationOf? id = none ∨
      ∃ block id', cache.locationOf? id = some block ∧ (id', block) ∈ entries ∧
        ∀ block', cache.locationOf? id' = some block' → block'.partition = partition := by
  have hback {es : List (MachineId × Block)} {cache' : IdentifierCache} {b : Block}
      (hes : ∀ e ∈ es, e.1 ≠ id) (h : (refreshEach cache' es).locationOf? id = some b) :
      cache'.locationOf? id = some b :=
    (cached_of_refreshEach h).resolve_right fun hm => hes _ hm rfl
  constructor
  · intro h
    cases hl : cache.locationOf? id with
    | none => exact .inl rfl
    | some block =>
      by_cases hheld : ∃ id', (id', block) ∈ entries
      · obtain ⟨id', hm⟩ := hheld
        refine .inr ⟨block, id', rfl, hm, fun block' hb => ?_⟩
        by_contra hne
        -- the other machine is placed elsewhere, so its turn changes nothing
        obtain ⟨before, after, rfl⟩ := List.append_of_mem hm
        obtain ⟨-, hafter, hbefore⟩ := List.pairwise_append.mp hd
        have hskip : (refreshEach cache before).locationOf? id' = some block' :=
          refreshEach_elsewhere (fun e he => hp e (List.mem_append_left _ he)) hne hb
        have hstands : (refreshEach cache before).locationOf? id = some block := by
          refine refreshEach_keeps (fun e he hi => ?_) (fun e he hb => ?_) hl
          · exact absurd hi (hn e (List.mem_append_left _ he))
          · exact absurd hb (hbefore e he _ List.mem_cons_self)
        have hkept : (refreshEach cache (before ++ (id', block) :: after)).locationOf? id =
            some block := by
          rw [refreshEach_append, refreshEach_cons, value_refresh_of_elsewhere hskip (hp _ hm ▸ hne)]
          refine refreshEach_keeps (fun e he hi => ?_) (fun e he hb => ?_) hstands
          · exact absurd hi (hn e (List.mem_append_right _ (List.mem_cons_of_mem _ he)))
          · exact absurd hb ((List.pairwise_cons.mp hafter).1 e he).symm
        rw [hkept] at h
        cases h
      · have hkept : (refreshEach cache entries).locationOf? id = some block := by
          refine refreshEach_keeps (fun e he hi => absurd hi (hn e he)) (fun e he hb => ?_) hl
          exact absurd ⟨e.1, hb ▸ he⟩ hheld
        rw [hkept] at h
        cases h
  · intro h
    apply Option.eq_none_iff_forall_ne_some.mpr
    intro b hb
    rcases h with hnone | ⟨block, id', hl, hm, hhere⟩
    · rw [hback hn hb] at hnone
      cases hnone
    · have hb₀ := hback hn hb
      obtain ⟨before, after, rfl⟩ := List.append_of_mem hm
      have hpb : ∀ e ∈ before, e.2.partition = partition := fun e he =>
        hp e (List.mem_append_left _ he)
      rw [refreshEach_append, refreshEach_cons, value_refresh_of_here (by
        rw [hp _ hm]
        exact partition_of_refreshEach hpb hhere)] at hb
      have hb := hback (fun e he => hn e (List.mem_append_right _ (List.mem_cons_of_mem _ he))) hb
      rcases IdentifierCache.locationOf?_insert_eq_some.mp hb with ⟨hi, -⟩ | ⟨-, hne, -⟩
      · exact hn _ hm hi.symm
      · rw [hl] at hb₀
        cases hb₀
        exact hne rfl

end Distinct

end MachineVault.Storage
