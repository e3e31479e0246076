import MachineVault.Proofs.Encoding
import MachineVault.Proofs.Storage.Verbatim

/-! What a host that never hears of loading and flushing takes a storage for: one map from blocks to
the machines on them. -/

namespace MachineVault

/-- What is kept of a machine: all but the block that it believes it occupies. -/
structure Entry where
  id : MachineId
  typeTag : String
  state : State
deriving DecidableEq

def Machine.entry (m : Machine) : Entry := ⟨m.id, m.typeTag, m.state⟩

/-- The machine of an entry, told where it stands. -/
def Entry.machine (e : Entry) (block : Block) : Machine := ⟨e.id, e.typeTag, block, e.state⟩

/-- An entry that comes back from storage. -/
structure Entry.Fits (block : Block) (e : Entry) : Prop where
  storable : (Slot.live (e.machine block)).Storable block
  shallow : e.state.depth ≤ Machine.depthLimit

/-- An answer without the reports on loading and flushing. -/
inductive Reply
  | entry (entry : Option Entry)
  | entries (entries : List Entry)
  | block (block : Option Block)
  | id (id : Option MachineId)
  | flag (flag : Bool)
  | blocks (blocks : List Block)
  | done
deriving DecidableEq

def Answer.reply : Answer → Except Error Reply
  | machine outcome => outcome.map fun m => .entry (m.map Machine.entry)
  | machines outcome => outcome.map fun ms => .entries (ms.map Machine.entry)
  | block b => .ok (.block b)
  | id i => .ok (.id i)
  | flag f => .ok (.flag f)
  | blocks bs => .ok (.blocks bs)
  | partitions _ | generation _ | chunk _ => .ok .done
  | loaded outcome => outcome.map fun _ => .done
  | flushed outcome => outcome.map fun _ => .done
  | done outcome => outcome.map fun _ => .done

abbrev Inventory := Std.ExtTreeMap Block Entry

namespace Inventory

/-- The block of a machine. -/
def blockOf? (w : Inventory) (id : MachineId) : Option Block :=
  (w.toList.find? fun e => e.2.id = id).map Prod.fst

/-- The machines of a partition in ascending order of blocks. -/
def entriesOf (w : Inventory) (partition : Partition) : List Entry :=
  (w.toList.filter fun e => e.1.partition = partition).map Prod.snd

/-- Changes the machine on a block, if there is one. -/
def edit (w : Inventory) (block : Block) (change : Machine → Machine) : Inventory :=
  match w[block]? with
  | some e => w.insert block (change (e.machine block)).entry
  | none => w

def next (w : Inventory) : Operation → Inventory
  | .save location m => w.insert location.block m.entry
  | .remove location => w.erase location.block
  | .edit location change => w.edit location.block change
  | _ => w

def after (w : Inventory) (operations : List Operation) : Inventory := operations.foldl next w

def reply (w : Inventory) : Operation → Reply
  | .get location | .remove location => .entry w[location.block]?
  | .edit location change => .entry (w.edit location.block change)[location.block]?
  | .getById id => .entry ((w.blockOf? id).bind fun block => w[block]?)
  | .machinesOf partition => .entries (w.entriesOf partition)
  | .locationOf id => .block (w.blockOf? id)
  | .idOf location => .id (w[location.block]?.map Entry.id)
  | .contains location => .flag (w.contains location.block)
  | .keys => .blocks w.keys
  | _ => .done

/-- A call that the map can answer for. Machines are saved where they have a stored form, under a tag
whose factory gives them back, and on no second block; edits only replace a state by another one that
fits. Nothing is asked about memory, and no partition is served as empty. -/
def Permits (registry : Registry) (w : Inventory) : Operation → Prop
  | .save location m => Storage.checkSaveable location.block m = .ok () ∧
      registry.RebuildsVerbatim m.typeTag ∧ m.entry.Fits location.block ∧
      ∀ (block : Block) (e : Entry), w[block]? = some e → e.id = m.id → block = location.block
  | .edit location change => ∃ rewrite : Entry → State,
      (∀ m, change m = { m with state := rewrite m.entry }) ∧
      ∀ e, w[location.block]? = some e → ({ e with state := rewrite e } : Entry).Fits location.block
  | .isLoaded _ | .loadedPartitions | .generationOf _ | .chunkOf _ | .activateEmpty _ => False
  | _ => True

/-- A run of such calls. -/
def Permitted (registry : Registry) : Inventory → List Operation → Prop
  | _, [] => True
  | w, operation :: rest =>
    w.Permits registry operation ∧ Permitted registry (w.next operation) rest

variable {w : Inventory} {id : MachineId} {block : Block}

/-- No machine stands on two blocks. -/
def Distinct (w : Inventory) : Prop :=
  ∀ ⦃block block' : Block⦄ ⦃e e' : Entry⦄, w[block]? = some e → w[block']? = some e' →
    e.id = e'.id → block = block'

theorem blockOf?_eq_some (h : w.Distinct) :
    w.blockOf? id = some block ↔ ∃ e : Entry, w[block]? = some e ∧ e.id = id := by
  have hmem {b e} : (b, e) ∈ w.toList ↔ w[b]? = some e :=
    Std.ExtTreeMap.mem_toList_iff_getElem?_eq_some
  rw [blockOf?, Option.map_eq_some_iff]
  constructor
  · intro hx
    rcases hx with ⟨⟨b, e⟩, hf, rfl⟩
    exact ⟨e, hmem.mp (List.mem_of_find?_eq_some hf), by simpa using List.find?_some hf⟩
  · intro hx
    rcases hx with ⟨e, he, hi⟩
    have hs : (w.toList.find? fun e => e.2.id = id).isSome := by
      rw [List.find?_isSome]
      exact ⟨(block, e), hmem.mpr he, decide_eq_true hi⟩
    obtain ⟨⟨b, e'⟩, hf⟩ := Option.isSome_iff_exists.mp hs
    have he' := hmem.mp (List.mem_of_find?_eq_some hf)
    have hi' : e'.id = id := by simpa using List.find?_some hf
    exact ⟨(b, e'), hf, h he' he (hi'.trans hi.symm)⟩

theorem getElem?_edit (w : Inventory) (block block' : Block) (change : Machine → Machine) :
    (w.edit block change)[block']? =
      if block' = block then w[block]?.map fun e => (change (e.machine block)).entry
      else w[block']? := by
  unfold edit
  split
  · rename_i e he
    rw [getElem?_insert, he, Option.map_some]
  · rename_i he
    split
    · rename_i heq
      rw [heq, he, Option.map_none]
    · rfl

theorem permitted_append {registry : Registry} {operations rest : List Operation} {w : Inventory} :
    Permitted registry w (operations ++ rest) ↔
      Permitted registry w operations ∧ Permitted registry (w.after operations) rest := by
  induction operations generalizing w with
  | nil => exact (and_iff_right trivial).symm
  | cons operation operations ih =>
    change _ ∧ Permitted registry (w.next operation) (operations ++ rest) ↔ (_ ∧ _) ∧ _
    rw [ih, and_assoc]
    rfl

end Inventory

end MachineVault
