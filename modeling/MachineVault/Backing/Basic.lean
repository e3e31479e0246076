import MachineVault.CacheTable
import MachineVault.Event

/-! What a storage stands on: byte strings by partition and tag, and a saved identifier table. A
commit puts several tags of one partition together; a refused one changes nothing. -/

namespace MachineVault

class Backing (σ : Type) where
  get : σ → Partition → (tag : String) → Except Error (Option Bytes)
  commit : σ → Partition → List (String × Bytes) → Logged (σ × Except Error Unit)
  loadTable : σ → Except Error (Option CacheTable)
  saveTable : σ → CacheTable → Logged (σ × Except Error Unit)

/-- Calls that are refused for the time being. -/
structure Outages where
  get : Bool := false
  commit : Bool := false
  /-- Commits are refused for this partition only. -/
  commitOnly : Option Partition := none
  saveTable : Bool := false
  loadTable : Bool := false
deriving DecidableEq

namespace Outages

def refusesCommit (o : Outages) (partition : Partition) : Bool :=
  o.commit && o.commitOnly.all (· = partition)

def error (call : StoreCall) : Error := .persistence (.outage call)

/-- Starts or ends the outage of one call. Any change lifts the limit on commits or sets it anew. -/
def switch (o : Outages) (call : StoreCall) (on : Bool) (only : Option Partition) : Outages :=
  let o := { o with commitOnly := only }
  match call with
  | .get => { o with get := on }
  | .commit => { o with commit := on }
  | .saveTable => { o with saveTable := on }
  | .loadTable => { o with loadTable := on }

end Outages

/-- A backing with outages. -/
structure Faulty (σ : Type) where
  inner : σ
  outages : Outages := {}

namespace Faulty

variable {σ : Type} [Backing σ]

/-- Puts the outcome of a call on the inner backing in its place. -/
def lift (b : Faulty σ) (call : Logged (σ × Except Error Unit)) :
    Logged (Faulty σ × Except Error Unit) :=
  (fun (inner, result) => ({ b with inner }, result)) <$> call

instance : Backing (Faulty σ) where
  get b partition tag :=
    if b.outages.get then .error (Outages.error .get) else Backing.get b.inner partition tag
  commit b partition entries :=
    if b.outages.refusesCommit partition then return (b, .error (Outages.error .commit))
    else b.lift (Backing.commit b.inner partition entries)
  loadTable b :=
    if b.outages.loadTable then .error (Outages.error .loadTable) else Backing.loadTable b.inner
  saveTable b table :=
    if b.outages.saveTable then return (b, .error (Outages.error .saveTable))
    else b.lift (Backing.saveTable b.inner table)

end Faulty

end MachineVault
