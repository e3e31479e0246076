import MachineVault.Backing.Basic

/-! A backing of which some partitions cannot be written. -/

namespace MachineVault

structure Barring (σ : Type) where
  inner : σ
  /-- The partitions that cannot be written, each with the error that says so. -/
  barred : Partition → Option Error

namespace Barring

variable {σ : Type} [Backing σ]

def commit (b : Barring σ) (partition : Partition) (entries : List (String × Bytes)) :
    Logged (Barring σ × Except Error Unit) :=
  match b.barred partition with
  | some e => return (b, .error e)
  | none =>
    (fun (inner, result) => ({ b with inner }, result)) <$> Backing.commit b.inner partition entries

instance : Backing (Barring σ) where
  get b := Backing.get b.inner
  commit := commit
  loadTable b := Backing.loadTable b.inner
  saveTable b table :=
    (fun (inner, result) => ({ b with inner }, result)) <$> Backing.saveTable b.inner table

end Barring

end MachineVault
