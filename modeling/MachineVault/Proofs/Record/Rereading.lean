import MachineVault.Proofs.MessagePack.Reading
import MachineVault.Proofs.Record

/-! The record of a machine loses nothing as long as the state is nested at most 1022 deep. Whatever
bytes a machine was read from, it can be written and read again: what comes out of the reader is
measured and within the limit, since keys that stand twice are only ever dropped. -/

namespace MachineVault

open MessagePack (Value)

namespace Document

mutual

/-- Every text, list and object is shorter than `2 ^ 32`. -/
def Measured : Document → Prop
  | text s => (Text.encode s).length < 2 ^ 32
  | list items => items.length < 2 ^ 32 ∧ MeasuredItems items
  | object fields => fields.length < 2 ^ 32 ∧ MeasuredFields fields
  | _ => True

def MeasuredItems : List Document → Prop
  | [] => True
  | d :: rest => d.Measured ∧ MeasuredItems rest

def MeasuredFields : List (String × Document) → Prop
  | [] => True
  | (k, d) :: rest => (Text.encode k).length < 2 ^ 32 ∧ d.Measured ∧ MeasuredFields rest

end

theorem itemValues_eq_map (items : List Document) : itemValues items = items.map toValue := by
  induction items with
  | nil => rfl
  | cons d rest ih => rw [itemValues, ih, List.map_cons]

theorem fieldValues_eq_map (fields : List (String × Document)) :
    fieldValues fields = fields.map fun f => (Value.ofText f.1, f.2.toValue) := by
  induction fields with
  | nil => rfl
  | cons f rest ih => rw [fieldValues, ih, List.map_cons]

mutual

theorem fits_toValue_iff : ∀ d : Document, d.toValue.Fits ↔ d.Measured
  | null | bool _ | unsigned _ | signed _ | float _ => Iff.rfl
  | text _ => Iff.rfl
  | list items => by
    rw [toValue, Value.Fits, Measured, fitsItems_itemValues_iff items, itemValues_eq_map,
      List.length_map]
  | object fields => by
    rw [toValue, Value.Fits, Measured, fitsFields_fieldValues_iff fields, fieldValues_eq_map,
      List.length_map]

theorem fitsItems_itemValues_iff : ∀ items : List Document,
    Value.FitsItems (itemValues items) ↔ MeasuredItems items
  | [] => Iff.rfl
  | d :: rest => and_congr (fits_toValue_iff d) (fitsItems_itemValues_iff rest)

theorem fitsFields_fieldValues_iff : ∀ fields : List (String × Document),
    Value.FitsFields (fieldValues fields) ↔ MeasuredFields fields
  | [] => Iff.rfl
  | (_, d) :: rest =>
    and_congr Iff.rfl (and_congr (fits_toValue_iff d) (fitsFields_fieldValues_iff rest))

end

end Document

namespace State

theorem readable_ofScalar (s : MessagePack.Scalar) (limit : Nat) :
    (ofScalar s).document.toValue.Readable limit := by
  cases s with
  | nil | bool b | unsigned n => exact Value.readable_scalar _ limit
  | signed n =>
    rw [ofScalar, signed]
    split
    · exact Value.readable_scalar _ limit
    · exact Value.readable_scalar _ limit
  | float x =>
    rw [ofScalar, float]
    split
    · exact Value.readable_scalar _ limit
    · exact Value.readable_scalar _ limit

theorem readable_list {limit : Nat} {states : List State} (hn : states.length < 2 ^ 32)
    (h : ∀ s ∈ states, s.document.toValue.Readable limit) :
    (list states).document.toValue.Readable (limit + 1) := by
  change (Value.array (Document.itemValues (states.map document))).Readable (limit + 1)
  rw [Document.itemValues_eq_map, Value.readable_array_iff]
  refine ⟨limit, rfl, by simpa using hn, ?_⟩
  simpa using h

theorem readable_object {limit : Nat} {fields : List (String × State)}
    (hn : fields.length < 2 ^ 32)
    (h : ∀ f ∈ fields, (Text.encode f.1).length < 2 ^ 32 ∧ f.2.document.toValue.Readable limit) :
    (object fields).document.toValue.Readable (limit + 1) := by
  change (Value.map (Document.fieldValues
    ((Std.ExtTreeMap.ofList fields).toList.map fun f => (f.1, f.2.document)))).Readable (limit + 1)
  rw [Document.fieldValues_eq_map, Value.readable_map_iff]
  refine ⟨limit, rfl, ?_, ?_⟩
  · have hsize : (Std.ExtTreeMap.ofList fields).size ≤ fields.length :=
      Std.ExtTreeMap.size_ofList_le
    rw [List.length_map, List.length_map, Std.ExtTreeMap.length_toList]
    omega
  · rw [List.forall_mem_map, List.forall_mem_map]
    intro f hf
    obtain ⟨hk, hs⟩ := h f (mem_of_mem_toList_ofList hf)
    exact ⟨Value.readable_ofText hk, hs⟩

theorem length_key? {isFirst : Bool} {k : Value} {key : String} {limit : Nat}
    (h : k.Readable limit) (hk : key? isFirst k = some key) :
    (Text.encode key).length < 2 ^ 32 := by
  cases k with
  | str bytes =>
    have hs : Text.decode? bytes = some key := by cases isFirst <;> exact hk
    rw [Text.encode_of_decode? hs]
    exact h.fits
  | bin bytes =>
    cases isFirst with
    | true => cases hk
    | false =>
      rw [Text.encode_of_decode? hk]
      exact h.fits
  | scalar _ | ext _ _ | array _ | map _ => cases isFirst <;> cases hk

mutual

/-- A state takes no more room and no more levels than the value it is read from. -/
theorem readable_ofValue? : ∀ (v : Value) (s : State) (limit : Nat), ofValue? v = some s →
    v.Readable limit → s.document.toValue.Readable limit
  | .scalar scalar, s, limit, hs, _ => by
    cases hs
    exact readable_ofScalar scalar limit
  | .str bytes, s, limit, hs, h => by
    obtain ⟨t, ht, rfl⟩ := Option.map_eq_some_iff.mp hs
    exact Value.readable_ofText (h.length_text ht)
  | .array items, s, limit, hs, h => by
    obtain ⟨states, hi, rfl⟩ := Option.map_eq_some_iff.mp hs
    obtain ⟨inner, rfl, hn, hall⟩ := Value.readable_array_iff.mp h
    obtain ⟨hl, hstates⟩ := readable_ofItems? items states inner hi hall
    exact readable_list (hl ▸ hn) hstates
  | .map fields, s, limit, hs, h => by
    obtain ⟨states, hf, rfl⟩ := Option.map_eq_some_iff.mp hs
    obtain ⟨inner, rfl, hn, hall⟩ := Value.readable_map_iff.mp h
    obtain ⟨hl, hstates⟩ := readable_ofFields? true fields states inner hf hall
    exact readable_object (hl ▸ hn) hstates

theorem readable_ofItems? : ∀ (items : List Value) (states : List State) (limit : Nat),
    ofItems? items = some states → (∀ v ∈ items, v.Readable limit) →
    states.length = items.length ∧ ∀ s ∈ states, s.document.toValue.Readable limit
  | [], states, limit, hs, _ => by
    cases hs
    simp
  | v :: rest, states, limit, hs, h => by
    obtain ⟨hv, hrest⟩ := List.forall_mem_cons.mp h
    rw [ofItems?] at hs
    split at hs
    · rename_i s others hd hr
      cases hs
      obtain ⟨hl, hothers⟩ := readable_ofItems? rest others limit hr hrest
      exact ⟨congrArg (· + 1) hl,
        List.forall_mem_cons.mpr ⟨readable_ofValue? v s limit hd hv, hothers⟩⟩
    · cases hs

theorem readable_ofFields? : ∀ (isFirst : Bool) (fields : List (Value × Value))
    (states : List (String × State)) (limit : Nat), ofFields? isFirst fields = some states →
    (∀ f ∈ fields, f.1.Readable limit ∧ f.2.Readable limit) →
    states.length = fields.length ∧ ∀ f ∈ states, (Text.encode f.1).length < 2 ^ 32 ∧
      f.2.document.toValue.Readable limit
  | _, [], states, limit, hs, _ => by
    cases hs
    simp
  | isFirst, (k, v) :: rest, states, limit, hs, h => by
    obtain ⟨⟨hk, hv⟩, hrest⟩ := List.forall_mem_cons.mp h
    rw [ofFields?] at hs
    split at hs
    · rename_i key s others hkey hd hr
      cases hs
      obtain ⟨hl, hothers⟩ := readable_ofFields? false rest others limit hr hrest
      exact ⟨congrArg (· + 1) hl, List.forall_mem_cons.mpr
        ⟨⟨length_key? hk hkey, readable_ofValue? v s limit hd hv⟩, hothers⟩⟩
    · cases hs

end

end State

theorem Block.length_world_of_ofValue? {v : Value} {b : Block} {limit : Nat}
    (h : v.Readable limit) (hb : ofValue? v = some b) : (Text.encode b.world).length < 2 ^ 32 := by
  obtain ⟨parts, hp, hb⟩ := Option.bind_eq_some_iff.mp hb
  obtain ⟨inner, rfl, hall⟩ := h.of_fields? hp
  split at hb
  · rename_i world x y z
    simp only [Option.bind_eq_bind, Option.bind_eq_some_iff, Option.pure_def,
      Option.some.injEq] at hb
    obtain ⟨name, hname, _, -, _, -, _, -, rfl⟩ := hb
    exact (hall world List.mem_cons_self).length_text hname
  · cases hb

theorem Block.fits_toValue {b : Block} (h : (Text.encode b.world).length < 2 ^ 32) :
    b.toValue.Fits := by
  apply Value.fits_ofFields (by simp)
  simp only [List.forall_mem_cons, List.not_mem_nil, false_imp_iff, implies_true, and_true]
  exact ⟨⟨by decide, h⟩, ⟨by decide, trivial⟩, ⟨by decide, trivial⟩, ⟨by decide, trivial⟩⟩

namespace Machine

/-- No length in the record exceeds a word. -/
structure Measured (m : Machine) : Prop where
  typeTag : (Text.encode m.typeTag).length < 2 ^ 32
  world : (Text.encode m.location.world).length < 2 ^ 32
  state : m.state.document.Measured

theorem Measured.fits {m : Machine} (h : m.Measured) : m.toValue.Fits := by
  apply Value.fits_ofFields (by simp)
  simp only [List.forall_mem_cons, List.not_mem_nil, false_imp_iff, implies_true, and_true]
  refine ⟨⟨by decide, ?_⟩, ⟨by decide, h.typeTag⟩, ⟨by decide, ?_⟩, ⟨by decide, ?_⟩⟩
  · simp [Value.Fits, m.id.length_bytes]
  · exact Block.fits_toValue h.world
  · exact (Document.fits_toValue_iff _).mpr h.state

theorem measured_of_ofValue? {v : Value} {m : Machine} {limit : Nat} (h : v.Readable limit)
    (hm : ofValue? v = some m) : m.Measured ∧ m.state.depth + 1 ≤ limit := by
  obtain ⟨parts, hp, hm⟩ := Option.bind_eq_some_iff.mp hm
  obtain ⟨inner, rfl, hall⟩ := h.of_fields? hp
  split at hm
  · rename_i id typeTag location state
    simp only [Option.bind_eq_bind, Option.bind_eq_some_iff, Option.pure_def,
      Option.some.injEq] at hm
    obtain ⟨_, -, tag, htag, block, hblock, s, hs, rfl⟩ := hm
    simp only [List.forall_mem_cons] at hall
    obtain ⟨-, ht, hl, hst, -⟩ := hall
    obtain ⟨hfits, hdepth⟩ := State.readable_ofValue? state s inner hs hst
    refine ⟨⟨ht.length_text htag, Block.length_world_of_ofValue? hl hblock, ?_⟩, ?_⟩
    · exact (Document.fits_toValue_iff _).mp hfits
    · rw [Document.depth_toValue] at hdepth
      exact Nat.succ_le_succ hdepth
  · cases hm

theorem decode_eq_ok {bytes : Bytes} {m : Machine} :
    decode bytes = .ok m ↔
      ((Value.read nestingLimit bytes).bind fun (v, _) => ofValue? v) = some m := by
  unfold decode
  split <;> simp [*]

theorem measured_of_decode {bytes : Bytes} {m : Machine} (h : decode bytes = .ok m) :
    m.Measured ∧ m.state.depth ≤ depthLimit := by
  obtain ⟨⟨v, after⟩, hv, hm⟩ := Option.bind_eq_some_iff.mp (decode_eq_ok.mp h)
  obtain ⟨hmeasured, hdepth⟩ := measured_of_ofValue? (Value.readable_of_read hv) hm
  refine ⟨hmeasured, ?_⟩
  rw [nestingLimit] at hdepth
  rw [depthLimit]
  omega

theorem Measured.decode_encode {m : Machine} (h : m.Measured) (rest : Bytes) :
    decode (m.encode ++ rest) =
      if m.state.depth ≤ depthLimit then .ok m else .error (.record .undecodable) :=
  decode_encode_of_fits m rest h.fits

theorem decode_encode_of_decode {bytes : Bytes} {m : Machine} (h : decode bytes = .ok m)
    (rest : Bytes) : decode (m.encode ++ rest) = .ok m := by
  obtain ⟨hm, hd⟩ := measured_of_decode h
  rw [hm.decode_encode rest, if_pos hd]

/-- Reads a record and writes it again. -/
def reencode (bytes : Bytes) : Except Error Bytes := (decode bytes).map encode

theorem reencode_eq_ok {bytes written : Bytes} :
    reencode bytes = .ok written ↔ ∃ m, decode bytes = .ok m ∧ m.encode = written := by
  unfold reencode
  cases decode bytes <;> simp [Except.map]

/-- A record reads back as itself up to the limit and not at all beyond it, and whatever could be
read is unchanged by writing and reading it again. -/
theorem record_lossless (m : Machine) (bytes : Bytes) :
    (m.Measured → ∀ rest, decode (m.encode ++ rest) =
      if m.state.depth ≤ depthLimit then .ok m else .error (.record .undecodable)) ∧
    (decode bytes = .ok m → ∀ rest, decode (m.encode ++ rest) = .ok m) ∧
    ∀ written, reencode bytes = .ok written → reencode written = .ok written := by
  refine ⟨Measured.decode_encode, decode_encode_of_decode, fun written h => ?_⟩
  obtain ⟨read, hread, rfl⟩ := reencode_eq_ok.mp h
  refine reencode_eq_ok.mpr ⟨read, ?_, rfl⟩
  simpa using decode_encode_of_decode hread []

/-- An array in place of the map, positions for the keys of the location and one key too many,
numbers and floats in forms that are never written, a NaN, and a key of the state twice. -/
def looseBytes : Bytes :=
  [0x94, 0xD9, 0x10] ++ List.replicate 16 0xFF ++ [0xC4, 0x01, 0x70] ++
  [0x85, 0x03, 0xD1, 0xFF, 0xF9, 0x00, 0xA1, 0x77, 0xA1, 0x71, 0xC0, 0x02, 0xCD, 0x00, 0x40, 0x01,
    0xD2, 0x00, 0x00, 0x00, 0x05] ++
  [0x83, 0xA1, 0x62, 0xCB, 0x7F, 0xF8, 0x00, 0x00, 0x00, 0x00, 0x00, 0x00, 0xA1, 0x61, 0xC0, 0xC4,
    0x01, 0x61, 0xCA, 0x3D, 0xCC, 0xCC, 0xCD]

def looseMachine : Machine where
  id := ⟨List.replicate 16 0xFF, by decide⟩
  typeTag := "p"
  location := ⟨"w", 5, 64, -7⟩
  state := .object [("a", .float (.ofBinary32 0x3DCCCCCD)), ("b", .null)]

theorem record_lossless_looseBytes :
    decode looseBytes = .ok looseMachine ∧ looseMachine.encode ≠ looseBytes ∧
    looseMachine.Measured ∧ decode (looseMachine.encode ++ [0xC1]) = .ok looseMachine ∧
    reencode looseMachine.encode = .ok looseMachine.encode := by
  have hd : decode looseBytes = .ok looseMachine := decode_eq_ok.mpr (by decide +kernel)
  obtain ⟨-, hread, hwrite⟩ := record_lossless looseMachine looseBytes
  refine ⟨hd, by decide +kernel, (measured_of_decode hd).1, hread hd [0xC1], ?_⟩
  exact hwrite _ (reencode_eq_ok.mpr ⟨looseMachine, hd, rfl⟩)

end Machine

end MachineVault
