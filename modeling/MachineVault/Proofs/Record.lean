import MachineVault.Record
import MachineVault.Proofs.Ascending
import MachineVault.Proofs.MessagePack.Fields

/-! A record reads back as the machine it was written for exactly if its state is nested at most
1022 deep; a deeper state is written all the same and cannot be read again. -/

namespace MachineVault

open MessagePack (Value)

namespace Document

mutual

theorem depth_toValue : ∀ d : Document, d.toValue.depth = d.depth
  | null | bool _ | unsigned _ | signed _ | float _ | text _ => rfl
  | list items => congrArg (· + 1) (depthItems_itemValues items)
  | object fields => congrArg (· + 1) (depthFields_fieldValues fields)

theorem depthItems_itemValues : ∀ items : List Document,
    Value.depthItems (itemValues items) = depthItems items
  | [] => rfl
  | d :: rest => by
    rw [itemValues, Value.depthItems, depthItems, depth_toValue d, depthItems_itemValues rest]

theorem depthFields_fieldValues : ∀ fields : List (String × Document),
    Value.depthFields (fieldValues fields) = depthFields fields
  | [] => rfl
  | (k, d) :: rest => by
    have hk : (Value.ofText k).depth = 0 := rfl
    rw [fieldValues, Value.depthFields, depthFields, depth_toValue d, depthFields_fieldValues rest,
      hk, Nat.zero_max]

end

end Document

namespace State

theorem eq_of_document {s t : State} (h : s.document = t.document) : s = t := by
  cases s
  cases t
  cases h
  rfl

theorem document_object {fields : List (String × State)} {canonical : List (String × Document)}
    (h : Document.AscendingKeys canonical)
    (hf : fields.map (fun f => (f.1, f.2.document)) = canonical) :
    (object fields).document = .object canonical := by
  have ha : Ascending fields := by
    subst hf
    exact List.pairwise_map.mp h
  change Document.object ((Std.ExtTreeMap.ofList fields).toList.map _) = _
  rw [toList_ofList ha, hf]

theorem key?_ofText (isFirst : Bool) (k : String) : key? isFirst (.ofText k) = some k := by
  cases isFirst <;> exact Text.decode?_encode k

mutual

/-- A canonical document is read back unchanged. -/
theorem ofValue?_toValue : ∀ (d : Document), d.Canonical →
    ∃ s : State, ofValue? d.toValue = some s ∧ s.document = d
  | .null, _ => ⟨null, rfl, rfl⟩
  | .bool b, _ => ⟨bool b, rfl, rfl⟩
  | .unsigned n, _ => ⟨unsigned n, rfl, rfl⟩
  | .signed n, h => ⟨signed n, rfl, by rw [signed, dif_pos (show n < 0 from h)]⟩
  | .float x, h => ⟨float x, rfl, by rw [float, dif_pos (show x.isFinite from h)]⟩
  | .text s, _ => ⟨text s, by
      rw [Document.toValue, Value.ofText, ofValue?, Text.decode?_encode, Option.map_some], rfl⟩
  | .list items, h => by
    obtain ⟨states, hs, hd⟩ := ofItems?_itemValues items h
    refine ⟨list states, ?_, ?_⟩
    · rw [Document.toValue, ofValue?, hs, Option.map_some]
    · exact congrArg Document.list hd
  | .object fields, h => by
    obtain ⟨states, hs, hd⟩ := ofFields?_fieldValues true fields h.2
    refine ⟨object states, ?_, document_object h.1 hd⟩
    rw [Document.toValue, ofValue?, hs, Option.map_some]

theorem ofItems?_itemValues : ∀ (items : List Document), Document.CanonicalItems items →
    ∃ states : List State, ofItems? (Document.itemValues items) = some states ∧
      states.map State.document = items
  | [], _ => ⟨[], rfl, rfl⟩
  | d :: rest, h => by
    obtain ⟨s, hs, hd⟩ := ofValue?_toValue d h.1
    obtain ⟨states, hss, hds⟩ := ofItems?_itemValues rest h.2
    refine ⟨s :: states, ?_, ?_⟩
    · rw [Document.itemValues, ofItems?, hs, hss]
    · rw [List.map_cons, hd, hds]

theorem ofFields?_fieldValues : ∀ (isFirst : Bool) (fields : List (String × Document)),
    Document.CanonicalFields fields →
    ∃ states : List (String × State), ofFields? isFirst (Document.fieldValues fields) = some states ∧
      states.map (fun f => (f.1, f.2.document)) = fields
  | _, [], _ => ⟨[], rfl, rfl⟩
  | isFirst, (k, d) :: rest, h => by
    obtain ⟨s, hs, hd⟩ := ofValue?_toValue d h.1
    obtain ⟨states, hss, hds⟩ := ofFields?_fieldValues false rest h.2
    refine ⟨(k, s) :: states, ?_, ?_⟩
    · rw [Document.fieldValues, ofFields?, key?_ofText, hs, hss]
    · rw [List.map_cons, hd, hds]

end

theorem ofValue?_document (s : State) : ofValue? s.document.toValue = some s := by
  obtain ⟨t, ht, hd⟩ := ofValue?_toValue s.document s.canonical
  rw [ht, eq_of_document hd]

end State

theorem MachineId.ofValue?_bytes (id : MachineId) : ofValue? (.bin id.bytes) = some id :=
  ofBytes?_bytes id

theorem Block.ofValue?_toValue (b : Block) : ofValue? b.toValue = some b := by
  have hf : b.toValue.fields? ["world", "x", "y", "z"] =
      some [.ofText b.world, .ofInt32 b.x, .ofInt32 b.y, .ofInt32 b.z] :=
    Value.fields?_ofFields [("world", .ofText b.world), ("x", .ofInt32 b.x), ("y", .ofInt32 b.y),
      ("z", .ofInt32 b.z)] (by simp)
  simp only [ofValue?, hf, Value.text?_ofText, Value.int32?_ofInt32, Option.bind_eq_bind,
    Option.bind_some, Option.pure_def]

namespace Machine

theorem ofValue?_toValue (m : Machine) : ofValue? m.toValue = some m := by
  have hf : m.toValue.fields? ["uuid", "type", "loc", "state"] =
      some [.bin m.id.bytes, .ofText m.typeTag, m.location.toValue, m.state.document.toValue] :=
    Value.fields?_ofFields [("uuid", .bin m.id.bytes), ("type", .ofText m.typeTag),
      ("loc", m.location.toValue), ("state", m.state.document.toValue)] (by simp)
  simp only [ofValue?, hf, MachineId.ofValue?_bytes, Value.text?_ofText, Block.ofValue?_toValue,
    State.ofValue?_document, Option.bind_eq_bind, Option.bind_some, Option.pure_def]

/-- The record is one level around the state; its location takes two. -/
theorem depth_toValue (m : Machine) : m.toValue.depth = max 1 m.state.depth + 1 := by
  simp [toValue, Value.ofFields, Value.depth, Value.depthFields, Value.ofText, Block.toValue,
    Value.ofInt32, Document.depth_toValue, State.depth]

/-- The deepest state that can be read back. -/
def depthLimit : Nat := 1022

theorem decode_encode_of_fits (m : Machine) (rest : Bytes) (h : m.toValue.Fits) :
    decode (m.encode ++ rest) =
      if m.state.depth ≤ depthLimit then .ok m else .error (.record .undecodable) := by
  have hr : Value.read nestingLimit (m.encode ++ rest) =
      Value.within (max 1 m.state.depth + 1) nestingLimit m.toValue rest := by
    rw [← depth_toValue]
    exact Value.read_write m.toValue nestingLimit rest h
  unfold decode
  rw [hr, Value.within, nestingLimit, depthLimit]
  by_cases hd : m.state.depth ≤ 1022
  · rw [if_pos (by omega), if_pos hd, Option.bind_some]
    simp only [ofValue?_toValue]
  · rw [if_neg (by omega), if_neg hd, Option.bind_none]

theorem decode_encode (m : Machine) (rest : Bytes) (h : m.encode.length < 2 ^ 32) :
    decode (m.encode ++ rest) =
      if m.state.depth ≤ depthLimit then .ok m else .error (.record .undecodable) :=
  decode_encode_of_fits m rest (Value.fits_of_length_write m.toValue h)

end Machine

end MachineVault
