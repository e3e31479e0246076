import MachineVault.Proofs.Medium
import MachineVault.Proofs.Storage.Backed
import MachineVault.Proofs.Storage.Renumbering
import MachineVault.Proofs.Storage.Stepping

/-! Flushing everything and starting again is as good as going on. The storage that starts differs
from the one that went on in its generation numbers, and in nothing else. -/

namespace MachineVault.Storage

variable {σ : Type} {s s' t : Storage σ} [Backing σ]

/-- A storage that starts over what a flush of everything has left is like the one that flushed. -/
theorem alike_of_restart [Backing.Recalls σ] {backing : σ} (hc : s.config.validate = .ok ())
    (hf : s.flushAll.value = (s', .ok ()))
    (hb : Backing.loadTable backing = Backing.loadTable s'.backing) : ∃ t,
    (start s.config s.registry backing).value = .ok t ∧ Alike { s' with backing } t := by
  obtain ⟨hnone, hsave⟩ := flushAll_ok hf
  rw [value_saveCache] at hsave
  obtain ⟨rfl, ho⟩ := Prod.mk.inj hsave
  have hrec := Backing.Recalls.recalled (Prod.ext rfl ho)
  refine ⟨_, start_eq_ok.mpr ⟨hc, _, hb.trans hrec, rfl⟩, s.flushed_config.symm,
    s.flushed_registry.symm, rfl, IdentifierCache.ofTable_toTable _, fun partition => ?_⟩
  change ((∅ : Std.ExtTreeMap Partition LoadedChunk)[partition]?).map _ =
    (s.flushed.chunk? partition).map _
  rw [hnone, Std.ExtTreeMap.getElem?_empty]

/-- The storage with another plan for the commits to come. -/
def facing (s : Storage (Refusing σ)) (plan : List (Option Error)) : Storage (Refusing σ) :=
  { s with backing := { s.backing with plan } }

section Unnoticed

variable {config : Config} {registry : Registry} {medium : Medium}
  {plan later : List (Option Error)} {s s' : Storage (Refusing Medium)} {before : List Operation}

/-- In memory or in files, flushing everything and starting again goes unnoticed, whatever was there
before and whichever commits are refused from then on. -/
theorem restart_unnoticed
    (hs : (start config registry (⟨medium, plan⟩ : Refusing Medium)).value = .ok s)
    (hf : (s.after before).flushAll.value = (s', .ok ())) : ∃ t,
    (start config registry (⟨s'.backing.inner, later⟩ : Refusing Medium)).value = .ok t ∧
      ∀ further, (t.answers further).map Answer.unnumbered =
          ((s'.facing later).answers further).map Answer.unnumbered ∧
        (t.after further).backing = ((s'.facing later).after further).backing := by
  obtain ⟨hv, hconfig, hregistry⟩ := settings_after hs before
  -- the plan plays no part in loading the table
  have hload : Backing.loadTable (⟨s'.backing.inner, later⟩ : Refusing Medium) =
      Backing.loadTable s'.backing := rfl
  rw [← hconfig] at hv
  obtain ⟨t, ht, halike⟩ := alike_of_restart hv hf hload
  rw [hconfig, hregistry] at ht
  refine ⟨t, ht, fun further => ?_⟩
  obtain ⟨ha, hanswers⟩ := halike.run further
  exact ⟨hanswers, ha.backing⟩

/-- A storage over an empty medium. -/
def sampleVault : Storage (Refusing Medium) where
  config := {}
  registry := sampleRegistry
  backing := ⟨{}, []⟩
  cache := .empty

theorem restart_after_sampleRun : ∃ s' t,
    (sampleVault.after sampleRun).flushAll.value = (s', .ok ()) ∧
    (start {} sampleRegistry (⟨s'.backing.inner, []⟩ : Refusing Medium)).value = .ok t ∧
      ∀ further, (t.answers further).map Answer.unnumbered =
          ((s'.facing []).answers further).map Answer.unnumbered ∧
        (t.after further).backing = ((s'.facing []).after further).backing := by
  have hs : (start {} sampleRegistry (⟨{}, []⟩ : Refusing Medium)).value = .ok sampleVault := rfl
  have hf : (sampleVault.after sampleRun).flushAll.value =
      ((sampleVault.after sampleRun).flushAll.value.1, .ok ()) :=
    Prod.ext rfl (eq_ok_of_isOk (by decide +kernel))
  obtain ⟨t, ht, hfurther⟩ := restart_unnoticed hs hf
  exact ⟨_, t, hf, ht, hfurther⟩

end Unnoticed

end MachineVault.Storage
