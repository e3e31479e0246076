import MachineVault.Proofs.IdentifierCache
import MachineVault.Storage.Loading

/-! What a load takes out of the identifier cache: the pairs of dropped records, and what stands on
blocks whose record is missing. Nothing is added and nothing else is lost. -/

namespace MachineVault.Storage

variable {cache : IdentifierCache} {id : MachineId} {block : Block}

theorem locationOf?_forgetDropped (dropped : MachineId × Block) :
    (forgetDropped cache dropped).value.locationOf? id = some block ↔
      cache.locationOf? id = some block ∧ dropped ≠ (id, block) := by
  obtain ⟨id', block'⟩ := dropped
  unfold forgetDropped
  dsimp only
  by_cases hc : cache.locationOf? id' = some block'
  · rw [if_pos hc, Logged.value_bind, Logged.value_pure, IdentifierCache.locationOf?_eraseId]
    by_cases hi : id = id'
    · subst hi
      rw [if_pos rfl, hc]
      simp
    · rw [if_neg hi]
      simp [Ne.symm hi]
  · rw [if_neg hc, Logged.value_pure]
    refine ⟨fun h => ⟨h, ?_⟩, And.left⟩
    intro hx
    cases hx
    exact hc h

theorem locationOf?_foldl_forgetDropped (dropped : List (MachineId × Block))
    (cache : IdentifierCache) :
    (dropped.foldl (fun cache d => (forgetDropped cache d).value) cache).locationOf? id =
      some block ↔ cache.locationOf? id = some block ∧ (id, block) ∉ dropped := by
  induction dropped generalizing cache with
  | nil => simp
  | cons d dropped ih =>
    rw [List.foldl_cons, ih, locationOf?_forgetDropped, List.mem_cons, not_or, and_assoc,
      ne_comm (a := d)]

theorem locationOf?_forgetMissing (chunk : LoadedChunk) (missing : Block) :
    (forgetMissing chunk cache missing).value.locationOf? id = some block ↔
      cache.locationOf? id = some block ∧ ¬(missing = block ∧ chunk.holds block = false) := by
  unfold forgetMissing
  by_cases hh : chunk.holds missing = true
  · rw [if_pos hh, Logged.value_pure]
    refine ⟨fun h => ⟨h, ?_⟩, And.left⟩
    intro hx
    rcases hx with ⟨rfl, hf⟩
    rw [hh] at hf
    cases hf
  · rw [if_neg hh]
    have hf : chunk.holds missing = false := Bool.not_eq_true _ ▸ hh
    cases hi : cache.idAt? missing with
    | none =>
      refine ⟨fun (h : cache.locationOf? id = some block) => ⟨h, ?_⟩, And.left⟩
      intro hx
      rcases hx with ⟨rfl, -⟩
      rw [IdentifierCache.idAt?_eq_some.mpr h] at hi
      cases hi
    | some id' =>
      simp only [Logged.value_bind, Logged.value_pure,
        IdentifierCache.locationOf?_eraseBlock_eq_some]
      constructor
      · exact fun ⟨hne, h⟩ => ⟨h, fun ⟨heq, _⟩ => hne heq.symm⟩
      · intro hx
        rcases hx with ⟨h, hn⟩
        refine ⟨?_, h⟩
        rintro rfl
        exact hn ⟨rfl, hf⟩

theorem locationOf?_foldl_forgetMissing (chunk : LoadedChunk) (missing : List Block)
    (cache : IdentifierCache) :
    (missing.foldl (fun cache b => (forgetMissing chunk cache b).value) cache).locationOf? id =
      some block ↔
      cache.locationOf? id = some block ∧ ¬(block ∈ missing ∧ chunk.holds block = false) := by
  induction missing generalizing cache with
  | nil => simp
  | cons b missing ih =>
    rw [List.foldl_cons, ih, locationOf?_forgetMissing, List.mem_cons, and_assoc, ← not_or,
      ← or_and_right, eq_comm (a := b)]

/-- The pairs that survive a load. -/
theorem locationOf?_forgetLost (chunk : LoadedChunk) (report : LoadReport) :
    (forgetLost cache chunk report).value.locationOf? id = some block ↔
      cache.locationOf? id = some block ∧ (id, block) ∉ report.dropped ∧
        ¬(block ∈ report.missingRecords ∧ chunk.holds block = false) := by
  rw [forgetLost, Logged.value_bind, Logged.value_foldlM, Logged.value_foldlM,
    locationOf?_foldl_forgetMissing, locationOf?_foldl_forgetDropped, and_assoc]

end MachineVault.Storage
