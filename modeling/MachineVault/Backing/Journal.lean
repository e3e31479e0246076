import MachineVault.Backing.Basic

/-! A backing that keeps a journal of the commits it was asked for, refused ones included. -/

namespace MachineVault

structure Journal (σ : Type) where
  inner : σ
  /-- The commits so far with their partitions, the oldest first. -/
  commits : List (Partition × List (String × Bytes)) := []
deriving DecidableEq

namespace Journal

variable {σ : Type} [Backing σ]

def commit (b : Journal σ) (partition : Partition) (entries : List (String × Bytes)) :
    Logged (Journal σ × Except Error Unit) :=
  (fun (inner, result) => (⟨inner, b.commits ++ [(partition, entries)]⟩, result)) <$>
    Backing.commit b.inner partition entries

instance : Backing (Journal σ) where
  get b := Backing.get b.inner
  commit := commit
  loadTable b := Backing.loadTable b.inner
  saveTable b table :=
    (fun (inner, result) => ({ b with inner }, result)) <$> Backing.saveTable b.inner table

end Journal

end MachineVault
