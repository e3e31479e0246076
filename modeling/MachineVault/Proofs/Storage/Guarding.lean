import MachineVault.Proofs.Medium
import MachineVault.Proofs.Storage.Stepping

/-! A partition that cannot be read is guarded: no call brings it into memory, every attempt fails
alike, and what is stored for it stays as it is. Only activating it as empty ends this. -/

namespace MachineVault

/-- The error that a call has come to. -/
def Answer.error? : Answer → Option Error
  | .machine (.error e) | .machines (.error e) | .loaded (.error e) | .flushed (.error e)
  | .done (.error e) => some e
  | _ => none

namespace Storage

section Unreadable

variable {σ : Type} [Backing σ] {s s' : Storage σ} {partition : Partition} {e : Error}
  {operation : Operation}

/-- The ways in which a partition cannot be read: one of its byte strings cannot be fetched, the
index is damaged or of another chunk, or the records cannot be told apart. -/
inductive Unreadable (s : Storage σ) (partition : Partition) : Error → Prop
  | unfetchedIndex {e : Error}
      (hi : Backing.get s.backing partition s.config.indexTag = .error e) : Unreadable s partition e
  | unfetchedData {index : Option Bytes} {e : Error}
      (hi : Backing.get s.backing partition s.config.indexTag = .ok index)
      (hd : Backing.get s.backing partition s.config.dataTag = .error e) : Unreadable s partition e
  | badIndex {bytes : Bytes} {data : Option Bytes} {e : Error}
      (hi : Backing.get s.backing partition s.config.indexTag = .ok (some bytes))
      (hd : Backing.get s.backing partition s.config.dataTag = .ok data)
      (hr : (readIndex partition (some bytes)).value = .error e) : Unreadable s partition e
  | badRecords {bytes : Bytes} {found : Option Bytes} {index : ChunkIndex} {e : Error}
      (hi : Backing.get s.backing partition s.config.indexTag = .ok found)
      (hd : Backing.get s.backing partition s.config.dataTag = .ok (some bytes))
      (hf : (readIndex partition found).value = .ok index)
      (hr : (readRecords partition (some bytes)).value = .error e) : Unreadable s partition e

theorem unreadable_of_readChunk (h : (s.readChunk partition).value = .error e) :
    s.Unreadable partition e := by
  unfold readChunk at h
  split at h
  · rename_i hi
    cases h
    exact .unfetchedIndex hi
  · rename_i hi hd
    cases h
    exact .unfetchedData hi hd
  · rename_i found data hi hd
    unfold buildChunk at h
    split at h
    · cases h
    · simp only [Logged.value_bind] at h
      cases hr : (readIndex partition found).value with
      | error e' =>
        rw [hr] at h
        cases h
        cases found with
        | none => cases hr
        | some bytes => exact .badIndex hi hd hr
      | ok index =>
        rw [hr] at h
        simp only [Logged.value_bind] at h
        cases hr' : (readRecords partition data).value with
        | error e' =>
          rw [hr'] at h
          cases h
          cases data with
          | none => cases hr'
          | some bytes => exact .badRecords hi hd hr hr'
        | ok records =>
          rw [hr'] at h
          cases h

theorem Unreadable.readChunk (h : s.Unreadable partition e) :
    (s.readChunk partition).value = .error e := by
  unfold Storage.readChunk
  cases h with
  | unfetchedIndex hi =>
    rw [hi]
    rfl
  | unfetchedData hi hd =>
    rw [hi, hd]
    rfl
  | badIndex hi hd hr =>
    rw [hi, hd]
    simp only [buildChunk, Logged.value_bind, hr]
    rfl
  | @badRecords _ found _ _ hi hd hf hr =>
    rw [hi, hd]
    cases found <;> simp only [buildChunk, Logged.value_bind, hf, hr] <;> rfl

/-- What cannot be read does not read as anything. -/
theorem Unreadable.not_readsAs {index : ChunkIndex} {records : List Bytes}
    (h : s.Unreadable partition e) : ¬ s.ReadsAs partition index records := by
  rintro ⟨_, _, hi', hd', hr', hrs'⟩
  cases h with
  | unfetchedIndex hi => cases hi.symm.trans hi'
  | unfetchedData _ hd => cases hd.symm.trans hd'
  | badIndex hi _ hr =>
    cases hi.symm.trans hi'
    cases hr.symm.trans hr'
  | badRecords _ hd _ hr =>
    cases hd.symm.trans hd'
    cases hr.symm.trans hrs'

/-- Being unreadable is a matter of the tags and of what is stored under them. -/
theorem Unreadable.congr (h : s.Unreadable partition e) (hc : s'.config = s.config)
    (hg : ∀ tag, Backing.get s'.backing partition tag = Backing.get s.backing partition tag) :
    s'.Unreadable partition e := by
  have hindex : Backing.get s'.backing partition s'.config.indexTag =
      Backing.get s.backing partition s.config.indexTag := by rw [hc, hg]
  have hdata : Backing.get s'.backing partition s'.config.dataTag =
      Backing.get s.backing partition s.config.dataTag := by rw [hc, hg]
  cases h with
  | unfetchedIndex hi => exact .unfetchedIndex (hindex.trans hi)
  | unfetchedData hi hd => exact .unfetchedData (hindex.trans hi) (hdata.trans hd)
  | badIndex hi hd hr => exact .badIndex (hindex.trans hi) (hdata.trans hd) hr
  | badRecords hi hd hf hr => exact .badRecords (hindex.trans hi) (hdata.trans hd) hf hr

theorem load_of_unreadable (hc : s.chunk? partition = none) (h : s.Unreadable partition e) :
    (s.load partition).value = (s, .error e) := by
  unfold load
  rw [hc]
  simp only [Logged.value_bind, h.readChunk]
  rfl

theorem unreadable_of_load (hc : s.chunk? partition = none)
    (h : (s.load partition).value = (s', .error e)) : s.Unreadable partition e := by
  unfold load at h
  rw [hc] at h
  simp only [Logged.value_bind] at h
  cases hr : (s.readChunk partition).value with
  | error e' =>
    rw [hr] at h
    cases h
    exact unreadable_of_readChunk hr
  | ok outcome =>
    rw [hr] at h
    cases h

omit [Backing σ] in
theorem failed_of_value {α : Type} {call : Logged (Storage σ × Except Error α)}
    {answer : Except Error α → Answer} (h : call.value = (s, .error e))
    (ha : (answer (.error e)).error? = some e) :
    ∃ a, (answering answer call).value = (s, a) ∧ a.error? = some e := by
  refine ⟨_, ?_, ha⟩
  rw [answering, Logged.value_map, h]

/-- A call that has to have the partition in memory fails as its load does. -/
theorem perform_of_load_error (hl : (s.load partition).value = (s, .error e))
    (hr : s.reads? operation = some partition) :
    ∃ a, (s.perform operation).value = (s, a) ∧ a.error? = some e := by
  cases operation with
  | get | edit | remove | machinesOf =>
    cases hr
    exact failed_of_value (value_withChunk_of_error hl _) rfl
  | getById id =>
    obtain ⟨block, hb, rfl⟩ := Option.map_eq_some_iff.mp hr
    refine failed_of_value ?_ rfl
    rw [locationOf?] at hb
    unfold getById
    rw [hb]
    exact value_withChunk_of_error hl _
  | save location m =>
    cases hs : checkSaveable location.block m with
    | error e' =>
      rw [reads?, hs] at hr
      cases hr
    | ok u =>
      rw [reads?, hs] at hr
      cases hr
      obtain ⟨next, hsave, -⟩ := value_save (s := s) hs
      refine failed_of_value ?_ rfl
      rw [hsave]
      exact value_withChunk_of_error hl _
  | activate =>
    cases hr
    refine failed_of_value ?_ rfl
    rw [activate, Logged.value_bind, hl]
    rfl
  | handle notice =>
    cases notice with
    | activated =>
      cases hr
      refine failed_of_value ?_ rfl
      rw [handle, Logged.value_bind, activate, Logged.value_bind, hl]
      rfl
    | deactivated => cases hr
  | _ => cases hr

end Unreadable

section Guarded

variable {s s' t : Storage (Faulty Medium)} {partition : Partition} {e : Error}
  {operation : Operation}

/-- The partition is not in memory, and what is stored for it is as it was. -/
structure Guarded (partition : Partition) (s t : Storage (Faulty Medium)) : Prop where
  unloaded : t.chunk? partition = none
  config : t.config = s.config
  backing : Faulty.Spares partition s.backing t.backing

/-- Whatever cannot be read is in a file, unless an outage or the operating system keeps it from
being read. -/
theorem Unreadable.hasFile (h : s.Unreadable partition e) (hos : ∀ cause, e ≠ .file cause)
    (ho : s.backing.outages.get = false) : s.backing.inner.HasFile partition := by
  have hget (tag : String) :
      Backing.get s.backing partition tag = s.backing.inner.get partition tag := by
    simp only [Backing.get, ho, Bool.false_eq_true, if_false]
  have hcause : ∀ cause, (Except.error e : Except Error (Option Bytes)) ≠ .error (.file cause) :=
    fun cause h => hos cause (Except.error.inj h)
  cases h with
  | unfetchedIndex hi => exact Medium.hasFile_of_get ((hget _).symm.trans hi) nofun hcause
  | unfetchedData _ hd => exact Medium.hasFile_of_get ((hget _).symm.trans hd) nofun hcause
  | badIndex hi => exact Medium.hasFile_of_get ((hget _).symm.trans hi) nofun nofun
  | badRecords _ hd => exact Medium.hasFile_of_get ((hget _).symm.trans hd) nofun nofun

theorem Guarded.get (g : Guarded partition s t) (h : s.Unreadable partition e)
    (hos : ∀ cause, e ≠ .file cause) (tag : String) :
    Backing.get t.backing partition tag = Backing.get s.backing partition tag :=
  g.backing.get (h.hasFile hos) tag

theorem Guarded.unreadable (g : Guarded partition s t) (h : s.Unreadable partition e)
    (hos : ∀ cause, e ≠ .file cause) : t.Unreadable partition e :=
  h.congr g.config (g.get h hos)

/-- What is in memory is of another partition. -/
theorem Guarded.ne {partition' : Partition} {c : LoadedChunk} (g : Guarded partition s t)
    (hc : t.chunk? partition' = some c) : partition' ≠ partition := by
  rintro rfl
  cases g.unloaded.symm.trans hc

/-- Another partition may come into memory. -/
theorem Guarded.chunk?_putChunk {partition' : Partition} (g : Guarded partition s t)
    (hne : partition' ≠ partition) (c : LoadedChunk) :
    (t.putChunk partition' c).chunk? partition = none := by
  rw [Storage.chunk?_putChunk, if_neg (Ne.symm hne)]
  exact g.unloaded

theorem Entered.guarded (he : t.Entered operation s') (h : s.Unreadable partition e)
    (hos : ∀ cause, e ≠ .file cause) (ho : operation ≠ .activateEmpty partition)
    (g : Guarded partition s t) : Guarded partition s s' := by
  cases he with
  | same => exact g
  | fetched hf =>
    cases hf with
    | present => exact g
    | read _ hr =>
      have hne : ∀ {partition' index records}, t.ReadsAs partition' index records →
          partition' ≠ partition := by
        rintro _ _ _ hr rfl
        exact (g.unreadable h hos).not_readsAs hr
      exact ⟨g.chunk?_putChunk (hne hr) _, g.config, g.backing⟩
  | emptied ho' =>
    exact ⟨g.chunk?_putChunk (fun hp => ho (hp ▸ ho')) _, g.config, g.backing⟩

theorem Step.guarded (hs : t.Step operation s') (ha : s.backing.inner.Aside partition)
    (g : Guarded partition s t) : Guarded partition s s' := by
  cases hs with
  | recached => exact ⟨g.unloaded, g.config, g.backing⟩
  | placed _ _ hc | cleared _ hc | evicted hc | edited _ hc =>
    exact ⟨g.chunk?_putChunk (g.ne hc) _, g.config, g.backing⟩
  | flushed _ d =>
    refine ⟨d.chunk_eq_none g.unloaded, d.config.trans g.config, ?_⟩
    cases d with
    | unloaded | dropped | unencodable => exact g.backing
    | refused hc _ hb | committed hc _ hb =>
      exact g.backing.trans (Faulty.spares_of_commit (g.ne hc) hb)
  | tableSaved _ table =>
    have ha' := g.backing.inner.aside ha
    exact ⟨g.unloaded, g.config, g.backing.trans (Faulty.spares_saveTable ha' table)⟩

/-- What a run has left of a partition that cannot be read: the same error for every call that needs
it, and all that was stored for it. -/
structure Withheld (s : Storage (Faulty Medium)) (partition : Partition) (e : Error)
    (t : Storage (Faulty Medium)) : Prop where
  unloaded : t.chunk? partition = none
  load : (t.load partition).value = (t, .error e)
  calls : ∀ operation, t.reads? operation = some partition →
    ∃ a, (t.perform operation).value = (t, a) ∧ a.error? = some e
  image : t.backing.inner.image partition = s.backing.inner.image partition
  stored : ∀ tag, Backing.get t.backing partition tag = Backing.get s.backing partition tag

/-- A partition that cannot be read stays so, and nothing that is stored for it is lost, whatever is
called for but an empty activation of it. -/
theorem withheld_of_load_error {operations : List Operation} (hc : s.chunk? partition = none)
    (he : (s.load partition).value = (s', .error e)) (hos : ∀ cause, e ≠ .file cause)
    (ha : s.backing.inner.Aside partition)
    (ho : ∀ operation ∈ operations, operation ≠ .activateEmpty partition) :
    s.Withheld partition e (s.after operations) := by
  have h := unreadable_of_load hc he
  have g : Guarded partition s (s.after operations) :=
    run_invariant (fun operation hmem _ => after_invariant
      (fun he' => he'.guarded h hos (ho operation hmem)) fun hs => hs.guarded ha)
      ⟨hc, rfl, .refl _ _⟩
  have hload := load_of_unreadable g.unloaded (g.unreadable h hos)
  exact ⟨g.unloaded, hload, fun _ => perform_of_load_error hload, g.backing.inner.image,
    g.get h hos⟩

/-- Files of which that of the sample machine's partition has been cut off. -/
def damagedMedium : Medium :=
  { Medium.inFiles ["p"] ["cache.bin"] with
    files := (((({} : FileSystem).put ["p"] .directory).put ["p", "world"] .directory).put
      ["p", "world", "c.0.0.mdat"] (.file [0x4D, 0x53])) }

theorem aside_damagedMedium : damagedMedium.Aside sampleMachine.location.partition := by
  intro p t hp ht
  cases hp
  cases ht
  decide +kernel

theorem get_damagedMedium (tag : String) :
    damagedMedium.get sampleMachine.location.partition tag =
      .error (.persistence (.frame (.tooShort 13 2))) := by
  have hpath : PartitionFiles.path ⟨["p"]⟩ sampleMachine.location.partition =
      .ok ["p", "world", "c.0.0.mdat"] := by decide +kernel
  have hv : FileSystem.validate ["p", "world", "c.0.0.mdat"] = .ok () :=
    FileSystem.validate_eq_ok (by decide +kernel) (by decide +kernel)
  have hc : damagedMedium.files.contents ["p", "world", "c.0.0.mdat"] =
      .ok (["p", "world", "c.0.0.mdat"], [0x4D, 0x53]) :=
    FileSystem.contents_of_walk hv (by decide +kernel)
  change PartitionFiles.get ⟨["p"]⟩ damagedMedium.files sampleMachine.location.partition tag = _
  rw [PartitionFiles.get, hpath]
  change PartitionFiles.sections damagedMedium.files ["p", "world", "c.0.0.mdat"] >>= _ = _
  rw [PartitionFiles.sections_of_contents hc]
  rfl

/-- A storage over the damaged files. -/
def damagedVault : Storage (Faulty Medium) where
  config := {}
  registry := sampleRegistry
  backing := { inner := damagedMedium }
  cache := .empty

theorem withheld_after_sampleRun :
    damagedVault.chunk? sampleMachine.location.partition = none ∧
    (damagedVault.load sampleMachine.location.partition).value =
      (damagedVault, .error (.persistence (.frame (.tooShort 13 2)))) ∧
    damagedVault.Withheld sampleMachine.location.partition
      (.persistence (.frame (.tooShort 13 2))) (damagedVault.after (sampleRun ++ [.flushAll])) := by
  have hc : damagedVault.chunk? sampleMachine.location.partition = none := by decide +kernel
  have hl := load_of_unreadable hc (.unfetchedIndex (get_damagedMedium _))
  refine ⟨hc, hl, withheld_of_load_error hc hl nofun aside_damagedMedium ?_⟩
  intro operation ho
  rcases ho with _ | ⟨_, _ | ⟨_, _ | ⟨_, ⟨⟩⟩⟩⟩ <;> nofun

end Guarded

end Storage

end MachineVault
