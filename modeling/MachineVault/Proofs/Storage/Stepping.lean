import Mathlib.Logic.Relation
import MachineVault.Proofs.Storage.Performing
import MachineVault.Proofs.Storage.Reading

/-! What a call is made of, whatever is stored. At most one partition is brought into memory, and
from there on the call goes by a few kinds of steps. What all of them keep is kept by every run. -/

namespace MachineVault.Storage

variable {σ : Type}

/-- The settings and the factories are the same. -/
def SameSettings (s s' : Storage σ) : Prop := s'.config = s.config ∧ s'.registry = s.registry

theorem SameSettings.trans {s s₁ s' : Storage σ} (h : s.SameSettings s₁) (h' : s₁.SameSettings s') :
    s.SameSettings s' :=
  ⟨h'.1.trans h.1, h'.2.trans h.2⟩

variable [Backing σ]

/-- What a call brings into memory before anything else: nothing, a partition as it is stored, or an
empty one in its place. -/
inductive Entered (s : Storage σ) (operation : Operation) : Storage σ → Prop
  | same : Entered s operation s
  | fetched {partition : Partition} {s' : Storage σ} {c : LoadedChunk}
      (hf : s.Fetched partition s' c) : Entered s operation s'
  | emptied {partition : Partition} (ho : operation = .activateEmpty partition)
      (hc : s.chunk? partition = none) : Entered s operation
        { s.putChunk partition (.superseding partition s.nextGeneration) with
          nextGeneration := s.nextGeneration + 1 }

/-- One step of a call. A machine is put in place by a save alone, and cleared away by a removal or
where it has moved on. -/
inductive Step (s : Storage σ) (operation : Operation) : Storage σ → Prop
  | recached (cache : IdentifierCache) : Step s operation { s with cache }
  | placed {location : Location} {m : Machine} {c : LoadedChunk}
      (ho : operation = .save location m) (hs : checkSaveable location.block m = .ok ())
      (hc : s.chunk? location.block.partition = some c)
      (hp : location.block.partition = c.partition) : Step s operation
        (s.putChunk location.block.partition (c.place location.block (.live m)))
  | cleared {location : Location} {c : LoadedChunk} (ho : operation = .remove location)
      (hc : s.chunk? location.block.partition = some c) : Step s operation
        (s.putChunk location.block.partition (c.remove location.block))
  | evicted {block : Block} {m : Machine} {c : LoadedChunk}
      (hc : s.chunk? block.partition = some c) (hm : c.machine? block = some m) :
      Step s operation (s.putChunk block.partition (c.remove block))
  | edited {location : Location} {change : Machine → Machine} {c : LoadedChunk}
      (ho : operation = .edit location change)
      (hc : s.chunk? location.block.partition = some c) : Step s operation
        (s.putChunk location.block.partition (c.edit location.block change))
  | flushed {partition : Partition} {s' : Storage σ} {outcome : Except Error (Option FlushReport)}
      (hf : operation.flushes partition) (d : s.Deactivated partition s' outcome) :
      Step s operation s'
  | tableSaved (ho : operation = .flushAll ∨ operation = .saveCache) (table : CacheTable) :
      Step s operation { s with backing := (Backing.saveTable s.backing table).value.1 }

/-- Any number of steps. -/
abbrev Steps (operation : Operation) : Storage σ → Storage σ → Prop :=
  Relation.ReflTransGen fun s s' => s.Step operation s'

/-- A call enters and then goes by steps. -/
def Proceeds (s : Storage σ) (operation : Operation) (s' : Storage σ) : Prop :=
  ∃ s₁, s.Entered operation s₁ ∧ Steps operation s₁ s'

variable {s s' : Storage σ} {operation : Operation} {partition : Partition}

theorem Proceeds.refl (s : Storage σ) (operation : Operation) : s.Proceeds operation s :=
  ⟨s, .same, .refl⟩

theorem Steps.proceeds (h : Steps operation s s') : s.Proceeds operation s' := ⟨s, .same, h⟩

theorem Fetched.chunk {c : LoadedChunk} (h : s.Fetched partition s' c) :
    s'.chunk? partition = some c := by
  cases h with
  | present hc => exact hc
  | read hc hr hb => exact (chunk?_putChunk ..).trans (if_pos rfl)

/-- A call for a chunk proceeds as what is done with the chunk does. -/
theorem proceeds_withChunk {α : Type}
    {next : Storage σ → LoadedChunk → Logged (Storage σ × Except Error α)}
    (h : ∀ {s' c}, s.Fetched partition s' c → Steps operation s' (next s' c).value.1) :
    s.Proceeds operation (s.withChunk partition next).value.1 := by
  rw [withChunk, Logged.value_bind]
  rcases fetched_or_error s partition with ⟨s', c, report, hl, hf⟩ | ⟨e, hl⟩
  · rw [hl]
    exact ⟨s', .fetched hf, h hf⟩
  · rw [hl]
    exact .refl s operation

theorem proceeds_activate (s : Storage σ) (partition : Partition) (operation : Operation) :
    s.Proceeds operation (s.activate partition).value.1 := by
  rw [activate, Logged.value_bind]
  rcases fetched_or_error s partition with ⟨s', c, report, hl, hf⟩ | ⟨e, hl⟩
  · rw [hl]
    exact ⟨s', .fetched hf, .refl⟩
  · rw [hl]
    exact .refl s operation

theorem proceeds_activateEmpty (s : Storage σ) (partition : Partition) :
    s.Proceeds (.activateEmpty partition) (s.activateEmpty partition).value.1 := by
  unfold activateEmpty
  split
  · exact .refl s _
  · rename_i hn
    exact ⟨_, .emptied rfl hn, .single (.recached _)⟩

theorem proceeds_getById (s : Storage σ) (id : MachineId) :
    s.Proceeds operation (s.getById id).value.1 := by
  unfold getById
  split
  · exact .refl s operation
  · refine proceeds_withChunk fun {s' c} hf => ?_
    split
    · exact .refl
    · split <;> exact .refl

theorem steps_leave (s : Storage σ) (id : MachineId) (target : Block) :
    Steps operation s (s.leave id target).value := by
  have hl := s.left id target
  generalize (s.leave id target).value = s' at hl ⊢
  cases hl with
  | stayed => exact .refl
  | evicted _ _ hc hm => exact .single (.evicted hc hm)

theorem proceeds_save (s : Storage σ) (location : Location) (m : Machine) :
    s.Proceeds (.save location m) (s.save location m).value.1 := by
  cases hs : checkSaveable location.block m with
  | error e =>
    rw [value_save_of_refused hs]
    exact .refl s _
  | ok u =>
    obtain ⟨next, hsave, hnext⟩ := value_save (s := s) hs
    rw [hsave]
    refine proceeds_withChunk fun {s' c} hf => ?_
    rw [hnext]
    split
    · rename_i hp
      refine .head (.placed rfl hs hf.chunk (of_decide_eq_true hp)) ?_
      exact (steps_leave _ m.id location.block).tail (.recached _)
    · exact .refl

theorem proceeds_remove (s : Storage σ) (location : Location) :
    s.Proceeds (.remove location) (s.remove location).value.1 := by
  refine proceeds_withChunk fun {s' c} hf => ?_
  have h : Steps (.remove location) s' { s'.putChunk location.block.partition
      (c.remove location.block) with cache := s'.cache.eraseBlock location.block } :=
    .head (.cleared rfl hf.chunk) (.single (.recached _))
  dsimp only
  split
  · split
    · split <;> exact h
    · exact h
  · exact h

theorem steps_flushEach (partitions : List Partition) (s : Storage σ)
    (hf : ∀ partition, operation.flushes partition) :
    Steps operation s (s.flushEach partitions).value.1 :=
  flushEach_invariant (p := Steps operation s) (fun d h => h.tail (.flushed (hf _) d)) partitions s
    .refl

theorem proceeds_deactivate (s : Storage σ) (hf : operation.flushes partition) :
    s.Proceeds operation (s.deactivate partition).value.1 :=
  Steps.proceeds (.single (.flushed hf (s.deactivated partition)))

/-- Every call enters and then goes by steps. -/
theorem proceeds_after (s : Storage σ) (operation : Operation) :
    s.Proceeds operation (s.after [operation]) := by
  cases operation with
  | get location => exact proceeds_withChunk fun _ => .refl
  | edit location change =>
    exact proceeds_withChunk fun hf => .single (.edited rfl hf.chunk)
  | getById id => exact proceeds_getById s id
  | save location m => exact proceeds_save s location m
  | remove location => exact proceeds_remove s location
  | machinesOf partition => exact proceeds_withChunk fun _ => .refl
  | locationOf | idOf | contains | keys | isLoaded | loadedPartitions | generationOf | chunkOf =>
    exact .refl s _
  | activate partition => exact proceeds_activate s partition _
  | activateEmpty partition => exact proceeds_activateEmpty s partition
  | deactivate partition => exact proceeds_deactivate s rfl
  | handle notice =>
    cases notice with
    | activated partition => exact proceeds_activate s partition _
    | deactivated partition => exact proceeds_deactivate s rfl
  | flushAll =>
    have h : Steps .flushAll s s.flushAll.value.1 := by
      rw [value_flushAll]
      have hf : ∀ partition, Operation.flushAll.flushes partition := fun _ => trivial
      exact (steps_flushEach _ s hf).tail (.tableSaved (.inl rfl) _)
    exact h.proceeds
  | saveCache => exact Steps.proceeds (.single (.tableSaved (.inr rfl) _))

/-- What entering and every step keep is kept by a call. -/
theorem after_invariant {p : Storage σ → Prop}
    (enter : ∀ {s s'}, s.Entered operation s' → p s → p s')
    (step : ∀ {s s'}, s.Step operation s' → p s → p s') (h : p s) : p (s.after [operation]) := by
  obtain ⟨s₁, he, hs⟩ := proceeds_after s operation
  generalize s.after [operation] = s' at hs
  induction hs with
  | refl => exact enter he h
  | tail _ hstep ih => exact step hstep ih

/-- What every call of a run keeps is kept by the run. -/
theorem run_invariant {p : Storage σ → Prop} {operations : List Operation} {s : Storage σ}
    (call : ∀ operation ∈ operations, ∀ {s}, p s → p (s.after [operation])) (h : p s) :
    p (s.after operations) := by
  induction operations generalizing s with
  | nil => exact h
  | cons operation rest ih =>
    rw [after_cons]
    exact ih (fun o ho => call o (List.mem_cons_of_mem _ ho))
      (call operation List.mem_cons_self h)

theorem Fetched.sameSettings {c : LoadedChunk} (h : s.Fetched partition s' c) :
    s.SameSettings s' := by
  cases h with
  | present | read => exact ⟨rfl, rfl⟩

theorem Entered.sameSettings (h : s.Entered operation s') : s.SameSettings s' := by
  cases h with
  | same | emptied => exact ⟨rfl, rfl⟩
  | fetched hf => exact hf.sameSettings

theorem Step.sameSettings (h : s.Step operation s') : s.SameSettings s' := by
  cases h with
  | recached | placed | cleared | evicted | edited | tableSaved => exact ⟨rfl, rfl⟩
  | flushed _ d => exact ⟨d.config, d.registry⟩

theorem sameSettings_after (s : Storage σ) (operations : List Operation) :
    s.SameSettings (s.after operations) := by
  refine run_invariant (fun operation _ s' h => ?_) ⟨rfl, rfl⟩
  exact after_invariant (fun he h => h.trans he.sameSettings)
    (fun hs h => h.trans hs.sameSettings) h

/-- What a storage was started with stays in force. -/
theorem settings_after {config : Config} {registry : Registry} {backing : σ}
    (h : (start config registry backing).value = .ok s) (operations : List Operation) :
    config.validate = .ok () ∧ (s.after operations).config = config ∧
      (s.after operations).registry = registry := by
  obtain ⟨hv, table, -, rfl⟩ := start_eq_ok.mp h
  exact ⟨hv, sameSettings_after _ operations⟩

end MachineVault.Storage
