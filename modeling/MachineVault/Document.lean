import Std.Data.ExtTreeMap.Lemmas
import MachineVault.Binary64

/-! State documents. A machine's state is a document in canonical form: object keys ascend, an
integer is signed only if it is negative, and every float is finite. -/

namespace MachineVault

inductive Document
  | null
  | bool (b : Bool)
  | unsigned (n : UInt64)
  | signed (n : Int64)
  | float (x : Binary64)
  | text (s : String)
  | list (items : List Document)
  | object (fields : List (String × Document))

namespace Document

mutual

/-- How many lists and objects enclose the innermost value. -/
def depth : Document → Nat
  | list items => depthItems items + 1
  | object fields => depthFields fields + 1
  | _ => 0

def depthItems : List Document → Nat
  | [] => 0
  | d :: rest => max d.depth (depthItems rest)

def depthFields : List (String × Document) → Nat
  | [] => 0
  | (_, d) :: rest => max d.depth (depthFields rest)

end

def AscendingKeys (fields : List (String × Document)) : Prop :=
  fields.Pairwise fun a b => compare a.1 b.1 = .lt

instance (fields : List (String × Document)) : Decidable (AscendingKeys fields) :=
  inferInstanceAs (Decidable (List.Pairwise _ _))

mutual

def Canonical : Document → Prop
  | signed n => n < 0
  | float x => x.isFinite
  | list items => CanonicalItems items
  | object fields => AscendingKeys fields ∧ CanonicalFields fields
  | _ => True

def CanonicalItems : List Document → Prop
  | [] => True
  | d :: rest => d.Canonical ∧ CanonicalItems rest

def CanonicalFields : List (String × Document) → Prop
  | [] => True
  | (_, d) :: rest => d.Canonical ∧ CanonicalFields rest

end

mutual

def same : Document → Document → Bool
  | null, null => true
  | bool a, bool b => a = b
  | unsigned a, unsigned b => a = b
  | signed a, signed b => a = b
  | float a, float b => a = b
  | text a, text b => a = b
  | list a, list b => sameItems a b
  | object a, object b => sameFields a b
  | _, _ => false

def sameItems : List Document → List Document → Bool
  | [], [] => true
  | a :: as, b :: bs => same a b && sameItems as bs
  | _, _ => false

def sameFields : List (String × Document) → List (String × Document) → Bool
  | [], [] => true
  | (k, a) :: as, (l, b) :: bs => k = l && same a b && sameFields as bs
  | _, _ => false

end

mutual

theorem same_iff : ∀ a b : Document, same a b = true ↔ a = b
  | list a, list b => by simp [same, sameItems_iff a b]
  | object a, object b => by simp [same, sameFields_iff a b]
  | null, b => by cases b <;> simp [same]
  | bool _, b | unsigned _, b | signed _, b | float _, b | text _, b => by cases b <;> simp [same]
  | list _, null | list _, bool _ | list _, unsigned _ | list _, signed _ | list _, float _
  | list _, text _ | list _, object _ => by simp [same]
  | object _, null | object _, bool _ | object _, unsigned _ | object _, signed _
  | object _, float _ | object _, text _ | object _, list _ => by simp [same]

theorem sameItems_iff : ∀ a b : List Document, sameItems a b = true ↔ a = b
  | [], b => by cases b <;> simp [sameItems]
  | _ :: _, [] => by simp [sameItems]
  | a :: as, b :: bs => by simp [sameItems, same_iff a b, sameItems_iff as bs]

theorem sameFields_iff : ∀ a b : List (String × Document), sameFields a b = true ↔ a = b
  | [], b => by cases b <;> simp [sameFields]
  | _ :: _, [] => by simp [sameFields]
  | (k, a) :: as, (l, b) :: bs => by
    simp [sameFields, same_iff a b, sameFields_iff as bs, and_assoc]

end

instance : DecidableEq Document := fun a b => decidable_of_iff _ (same_iff a b)

theorem canonicalItems_iff {items : List Document} :
    CanonicalItems items ↔ ∀ d ∈ items, d.Canonical := by
  induction items with
  | nil => simp [CanonicalItems]
  | cons d rest ih => simp [CanonicalItems, ih]

theorem canonicalFields_iff {fields : List (String × Document)} :
    CanonicalFields fields ↔ ∀ f ∈ fields, f.2.Canonical := by
  induction fields with
  | nil => simp [CanonicalFields]
  | cons f rest ih => simp [CanonicalFields, ih]

end Document

/-- The opaque state of a machine. -/
structure State where
  document : Document
  canonical : document.Canonical
deriving DecidableEq

namespace State

def null : State := ⟨.null, trivial⟩

def bool (b : Bool) : State := ⟨.bool b, trivial⟩

def unsigned (n : UInt64) : State := ⟨.unsigned n, trivial⟩

def signed (n : Int64) : State :=
  if h : n < 0 then ⟨.signed n, h⟩ else unsigned n.toUInt64

/-- Infinities and NaNs have no form of their own. -/
def float (x : Binary64) : State :=
  if h : x.isFinite then ⟨.float x, h⟩ else null

def text (s : String) : State := ⟨.text s, trivial⟩

def list (items : List State) : State :=
  ⟨.list (items.map State.document), Document.canonicalItems_iff.mpr (by
    intro d hd
    obtain ⟨s, _, rfl⟩ := List.mem_map.mp hd
    exact s.canonical)⟩

/-- Of several fields with one key the last is kept. -/
def object (fields : List (String × State)) : State :=
  ⟨.object ((Std.ExtTreeMap.ofList fields).toList.map fun f => (f.1, f.2.document)), by
    refine ⟨?_, Document.canonicalFields_iff.mpr ?_⟩
    · exact List.pairwise_map.mpr Std.ExtTreeMap.ordered_keys_toList
    · intro f hf
      obtain ⟨g, _, rfl⟩ := List.mem_map.mp hf
      exact g.2.canonical⟩

mutual

/-- Brings a document to canonical form. -/
def ofDocument : Document → State
  | .null => null
  | .bool b => bool b
  | .unsigned n => unsigned n
  | .signed n => signed n
  | .float x => float x
  | .text s => text s
  | .list items => list (ofItems items)
  | .object fields => object (ofFields fields)

def ofItems : List Document → List State
  | [] => []
  | d :: rest => ofDocument d :: ofItems rest

def ofFields : List (String × Document) → List (String × State)
  | [] => []
  | (k, d) :: rest => (k, ofDocument d) :: ofFields rest

end

def depth (s : State) : Nat := s.document.depth

instance : Inhabited State := ⟨null⟩

end State

end MachineVault
