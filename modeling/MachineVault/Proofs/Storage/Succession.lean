import MachineVault.Proofs.Storage.Stepping

/-! Where the chunks in memory come from, whatever is stored and whatever is called. After a call
the chunk of a partition stems from the one before it or was brought in by the call, so it always
lies in its partition. -/

namespace MachineVault

/-- At a height that the format can hold. -/
def Block.HeightFits (b : Block) : Prop := 0 ≤ b.y ∧ b.y ≤ ChunkIndex.maxHeight

instance (b : Block) : Decidable b.HeightFits := inferInstanceAs (Decidable (_ ∧ _))

namespace LoadedChunk

/-- A chunk has come of another one: it holds nothing on other blocks, except for what could be
saved there. -/
structure StemsFrom (c' c : LoadedChunk) : Prop where
  partition : c'.partition = c.partition
  slot : ∀ {block slot'}, c'.slot? block = some slot' → (∃ slot, c.slot? block = some slot) ∨
    (block.partition = c.partition ∧ block.HeightFits)

/-- A chunk serves a partition and holds nothing outside it. -/
structure LiesIn (c : LoadedChunk) (partition : Partition) : Prop where
  serves : c.partition = partition
  inside : ∀ {block slot}, c.slot? block = some slot → block.partition = partition

theorem StemsFrom.refl (c : LoadedChunk) : c.StemsFrom c := ⟨rfl, fun h => .inl ⟨_, h⟩⟩

theorem StemsFrom.trans {c c' c'' : LoadedChunk} (h' : c''.StemsFrom c') (h : c'.StemsFrom c) :
    c''.StemsFrom c where
  partition := h'.partition.trans h.partition
  slot hs := by
    rcases h'.slot hs with ⟨slot, hs⟩ | hnew
    · exact h.slot hs
    · rw [h.partition] at hnew
      exact .inr hnew

theorem StemsFrom.liesIn {c c' : LoadedChunk} {partition : Partition} (h : c'.StemsFrom c)
    (hc : c.LiesIn partition) : c'.LiesIn partition where
  serves := h.partition.trans hc.serves
  inside hs := by
    rcases h.slot hs with ⟨slot, hs⟩ | ⟨hp, -⟩
    · exact hc.inside hs
    · exact hp.trans hc.serves

theorem LiesIn.holdings {c : LoadedChunk} {partition : Partition} (h : c.LiesIn partition) :
    ∀ e ∈ Storage.holdings c, e.2.partition = partition := by
  intro e he
  obtain ⟨slot, hs, -⟩ := mem_holdings.mp he
  exact h.inside hs

theorem stemsFrom_remove (c : LoadedChunk) (block : Block) : (c.remove block).StemsFrom c where
  partition := rfl
  slot hs := by
    rw [slot?_remove] at hs
    split at hs
    · cases hs
    · exact .inl ⟨_, hs⟩

theorem stemsFrom_edit (c : LoadedChunk) (block : Block) (change : Machine → Machine) :
    (c.edit block change).StemsFrom c := by
  unfold edit
  cases hm : c.machine? block with
  | none => exact .refl c
  | some m =>
    refine ⟨rfl, fun {block' slot'} hs => .inl ?_⟩
    dsimp only at hs
    rw [slot?_place] at hs
    split at hs
    · rename_i hb
      subst hb
      exact ⟨_, machine?_eq_some.mp hm⟩
    · exact ⟨_, hs⟩

theorem stemsFrom_place (c : LoadedChunk) {block : Block} (slot : Slot)
    (hp : block.partition = c.partition) (hy : block.HeightFits) :
    (c.place block slot).StemsFrom c where
  partition := rfl
  slot hs := by
    rw [slot?_place] at hs
    split at hs
    · rename_i hb
      subst hb
      exact .inr ⟨hp, hy⟩
    · exact .inl ⟨_, hs⟩

theorem Brought.liesIn {partition : Partition} {generation : Nat} {index : ChunkIndex}
    {records : List Bytes} {registry : Registry} {preserve : Bool}
    {outcome : LoadedChunk × LoadReport}
    (h : Brought partition generation index records registry preserve outcome) :
    outcome.1.LiesIn partition where
  serves := h.identity.1
  inside {block slot} hs := by
    rw [h.slot] at hs
    split at hs
    · assumption
    · cases hs

end LoadedChunk

namespace Storage

theorem heightFits_of_checkSaveable {block : Block} {m : Machine}
    (h : checkSaveable block m = .ok ()) : block.HeightFits := by
  by_contra hy
  have hy : ¬(0 ≤ block.y ∧ block.y ≤ ChunkIndex.maxHeight) := hy
  unfold checkSaveable at h
  simp only [if_neg hy] at h
  by_cases hw : block.world.isEmpty
  · rw [if_pos hw] at h
    cases h
  · rw [if_neg hw] at h
    by_cases ht : m.typeTag.isEmpty
    · rw [if_pos ht] at h
      cases h
    · rw [if_neg ht] at h
      cases h

variable {σ : Type}

/-- What is in memory later stems from what is in memory now. -/
def Retains (s s' : Storage σ) : Prop := ∀ partition c', s'.chunk? partition = some c' →
  ∃ c, s.chunk? partition = some c ∧ c'.StemsFrom c

theorem Retains.refl (s : Storage σ) : s.Retains s := fun _ c hc => ⟨c, hc, .refl c⟩

theorem Retains.of_chunk {s s' : Storage σ}
    (h : ∀ {partition c}, s'.chunk? partition = some c → s.chunk? partition = some c) :
    s.Retains s' := fun _ c hc => ⟨c, h hc, .refl c⟩

theorem Retains.trans {s s' s'' : Storage σ} (h : s.Retains s') (h' : s'.Retains s'') :
    s.Retains s'' := by
  intro partition c'' hc
  obtain ⟨c', hc', hs'⟩ := h' _ _ hc
  obtain ⟨c, hc, hs⟩ := h _ _ hc'
  exact ⟨c, hc, hs'.trans hs⟩

theorem retains_putChunk {s : Storage σ} {partition : Partition} {c c' : LoadedChunk}
    (hc : s.chunk? partition = some c) (hs : c'.StemsFrom c) :
    s.Retains (s.putChunk partition c') := by
  intro partition' c'' h
  rw [chunk?_putChunk] at h
  split at h
  · rename_i hp
    cases h
    exact ⟨c, hp ▸ hc, hs⟩
  · exact ⟨c'', h, .refl _⟩

variable [Backing σ]

theorem Deactivated.retains {s s' : Storage σ} {partition : Partition}
    {outcome : Except Error (Option FlushReport)} (d : s.Deactivated partition s' outcome) :
    s.Retains s' :=
  .of_chunk d.chunk_eq_some

/-- Nothing comes into memory by a step, except for what is saved. -/
theorem Step.retains {s s' : Storage σ} {operation : Operation} (h : s.Step operation s') :
    s.Retains s' := by
  cases h with
  | recached | tableSaved => exact .of_chunk id
  | placed ho hs hc hp =>
    exact retains_putChunk hc (LoadedChunk.stemsFrom_place _ _ hp (heightFits_of_checkSaveable hs))
  | cleared _ hc | evicted hc => exact retains_putChunk hc (LoadedChunk.stemsFrom_remove ..)
  | edited _ hc => exact retains_putChunk hc (LoadedChunk.stemsFrom_edit ..)
  | flushed _ d => exact d.retains

/-- A chunk that a call can bring into memory: what the partition reads as, or an empty one in its
place. -/
inductive Fresh (s : Storage σ) (partition : Partition) : LoadedChunk → Prop
  | read {index : ChunkIndex} {records : List Bytes} {outcome : LoadedChunk × LoadReport}
      (hr : s.ReadsAs partition index records)
      (hb : LoadedChunk.Brought partition s.nextGeneration index records s.registry
        s.config.preserveUnknown outcome) : Fresh s partition outcome.1
  | empty : Fresh s partition (.superseding partition s.nextGeneration)

theorem Fresh.liesIn {s : Storage σ} {partition : Partition} {c : LoadedChunk}
    (h : s.Fresh partition c) : c.LiesIn partition := by
  cases h with
  | read hr hb => exact hb.liesIn
  | empty =>
    refine ⟨rfl, fun {block slot} hs => ?_⟩
    rw [LoadedChunk.slot?, LoadedChunk.superseding, Std.ExtTreeMap.getElem?_empty] at hs
    cases hs

/-- What is in memory after a call stems from what was in memory before it, or from a chunk that the
call has brought in. -/
def Succeeds (s s' : Storage σ) : Prop := ∀ partition c', s'.chunk? partition = some c' →
  (∃ c, s.chunk? partition = some c ∧ c'.StemsFrom c) ∨
    s.chunk? partition = none ∧ ∃ c, s.Fresh partition c ∧ c'.StemsFrom c

variable {s s' : Storage σ} {partition : Partition} {c : LoadedChunk}

theorem Retains.succeeds (h : s.Retains s') : s.Succeeds s' := fun _ _ hc => .inl (h _ _ hc)

theorem Succeeds.trans {s'' : Storage σ} (h : s.Succeeds s') (h' : s'.Retains s'') :
    s.Succeeds s'' := by
  intro partition c'' hc
  obtain ⟨c', hc', hs'⟩ := h' _ _ hc
  rcases h _ _ hc' with ⟨c, hc, hs⟩ | ⟨hn, c, hf, hs⟩
  · exact .inl ⟨c, hc, hs'.trans hs⟩
  · exact .inr ⟨hn, c, hf, hs'.trans hs⟩

theorem succeeds_putChunk (hn : s.chunk? partition = none) (hf : s.Fresh partition c) :
    s.Succeeds (s.putChunk partition c) := by
  intro partition' c' h
  rw [chunk?_putChunk] at h
  split at h
  · rename_i hp
    subst hp
    cases h
    exact .inr ⟨hn, c, hf, .refl c⟩
  · exact .inl ⟨c', h, .refl c'⟩

theorem Fetched.succeeds (h : s.Fetched partition s' c) : s.Succeeds s' := by
  cases h with
  | present hc => exact (Retains.refl s).succeeds
  | read hc hr hb => exact succeeds_putChunk hc (.read hr hb)

theorem Entered.succeeds {operation : Operation} (h : s.Entered operation s') : s.Succeeds s' := by
  cases h with
  | same => exact (Retains.refl s).succeeds
  | fetched hf => exact hf.succeeds
  | emptied ho hn => exact succeeds_putChunk hn .empty

/-- What any call does to the chunks in memory. -/
theorem succeeds_after (s : Storage σ) (operation : Operation) :
    s.Succeeds (s.after [operation]) := by
  obtain ⟨s₁, henter, hsteps⟩ := proceeds_after s operation
  refine henter.succeeds.trans ?_
  generalize s.after [operation] = s' at hsteps
  induction hsteps with
  | refl => exact .refl s₁
  | tail _ hstep ih => exact ih.trans hstep.retains

/-- Every chunk in memory lies in the partition that it is kept under. -/
def Housed (s : Storage σ) : Prop := ∀ partition c, s.chunk? partition = some c →
  c.LiesIn partition

theorem Housed.succeeds (h : s.Housed) (hs : s.Succeeds s') : s'.Housed := by
  intro partition c' hc
  rcases hs _ _ hc with ⟨c, hc, hstems⟩ | ⟨-, c, hf, hstems⟩
  · exact hstems.liesIn (h _ _ hc)
  · exact hstems.liesIn hf.liesIn

theorem Housed.after {s : Storage σ} (h : s.Housed) (operations : List Operation) :
    (s.after operations).Housed := by
  induction operations generalizing s with
  | nil => exact h
  | cons operation rest ih =>
    rw [after_cons]
    exact ih (h.succeeds (succeeds_after s operation))

/-- Whatever is stored, chunks lie in their partitions from the start. -/
theorem housed_start {config : Config} {registry : Registry} {backing : σ}
    (hs : (start config registry backing).value = .ok s) : s.Housed := by
  obtain ⟨-, table, -, rfl⟩ := start_eq_ok.mp hs
  intro partition c hc
  rw [chunk?, Std.ExtTreeMap.getElem?_empty] at hc
  cases hc

/-- A partition that stays in memory is served by what stems from its first chunk. -/
theorem stemsFrom_after {window : List Operation} {s : Storage σ} {c : LoadedChunk}
    (hc : s.chunk? partition = some c)
    (hw : ∀ done, done <+: window → ((s.after done).chunk? partition).isSome) :
    ∃ c', (s.after window).chunk? partition = some c' ∧ c'.StemsFrom c := by
  induction window generalizing s c with
  | nil => exact ⟨c, hc, .refl c⟩
  | cons operation rest ih =>
    obtain ⟨c₁, hc₁⟩ := Option.isSome_iff_exists.mp
      (hw [operation] (List.cons_prefix_cons.mpr ⟨rfl, List.nil_prefix⟩))
    rcases succeeds_after s operation _ _ hc₁ with ⟨c₀, hc₀, hstems⟩ | ⟨hn, -⟩
    · rw [hc] at hc₀
      cases hc₀
      obtain ⟨c', hc', hstems'⟩ := ih hc₁ fun done hd =>
        hw (operation :: done) (List.cons_prefix_cons.mpr ⟨rfl, hd⟩)
      exact ⟨c', hc', hstems'.trans hstems⟩
    · rw [hc] at hn
      cases hn

end Storage

end MachineVault
