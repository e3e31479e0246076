import MachineVault.Backing.Basic

/-! A backing that goes by a plan: which of the commits to come are refused, and with which error. -/

namespace MachineVault

structure Refusing (σ : Type) where
  inner : σ
  /-- An entry for each commit to come; what lies behind the plan is not refused. -/
  plan : List (Option Error) := []
deriving DecidableEq

namespace Refusing

variable {σ : Type} [Backing σ]

def lift (b : Refusing σ) (call : Logged (σ × Except Error Unit)) :
    Logged (Refusing σ × Except Error Unit) :=
  (fun (inner, result) => ({ b with inner }, result)) <$> call

def commit (b : Refusing σ) (partition : Partition) (entries : List (String × Bytes)) :
    Logged (Refusing σ × Except Error Unit) :=
  let next := { b with plan := b.plan.tail }
  match b.plan.head?.join with
  | some e => return (next, .error e)
  | none => next.lift (Backing.commit b.inner partition entries)

instance : Backing (Refusing σ) where
  get b := Backing.get b.inner
  commit := commit
  loadTable b := Backing.loadTable b.inner
  saveTable b table := b.lift (Backing.saveTable b.inner table)

end Refusing

end MachineVault
