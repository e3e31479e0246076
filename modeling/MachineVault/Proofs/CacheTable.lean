import MachineVault.CacheTable
import MachineVault.Proofs.Record

/-! A saved table reads back as itself. -/

namespace MachineVault

open MessagePack (Value)

theorem CacheEntry.ofValue?_toValue (e : CacheEntry) : ofValue? e.toValue = some e := by
  have hf : e.toValue.fields? ["id", "location"] = some [.bin e.id.bytes, e.location.toValue] :=
    Value.fields?_ofFields [("id", .bin e.id.bytes), ("location", e.location.toValue)] (by simp)
  simp only [ofValue?, hf, MachineId.ofValue?_bytes, Block.ofValue?_toValue, Option.bind_eq_bind,
    Option.bind_some, Option.pure_def]

namespace CacheTable

theorem mapM_ofValue?_toValue (entries : List CacheEntry) :
    (entries.map CacheEntry.toValue).mapM CacheEntry.ofValue? = some entries := by
  induction entries with
  | nil => rfl
  | cons e entries ih => simp [List.mapM_cons, CacheEntry.ofValue?_toValue, ih]

theorem ofValue?_toValue (t : CacheTable) : ofValue? t.toValue = some t := by
  have hf : t.toValue.fields? ["entries"] = some [.array (t.entries.map CacheEntry.toValue)] :=
    Value.fields?_ofFields [("entries", .array (t.entries.map CacheEntry.toValue))] (by simp)
  simp only [ofValue?, hf, Value.items?, mapM_ofValue?_toValue, Option.bind_eq_bind,
    Option.bind_some, Option.pure_def]

theorem depth_toValue (t : CacheTable) : t.toValue.depth ≤ Machine.nestingLimit := by
  have hentry (e : CacheEntry) : e.toValue.depth = 2 := rfl
  have hitems (entries : List CacheEntry) :
      Value.depthItems (entries.map CacheEntry.toValue) ≤ 2 := by
    induction entries with
    | nil => exact Nat.zero_le 2
    | cons e entries ih =>
      rw [List.map_cons, Value.depthItems, hentry]
      exact Nat.max_le.mpr ⟨Nat.le_refl 2, ih⟩
  have h := hitems t.entries
  simp only [toValue, Value.ofFields, List.map_cons, List.map_nil, Value.depth, Value.depthFields,
    Prod.map_apply, Value.ofText, id, Machine.nestingLimit]
  omega

theorem decode_encode {t : CacheTable} (h : t.encode.length < 2 ^ 32) :
    decode t.encode = .ok t := by
  have hr := Value.read_write t.toValue Machine.nestingLimit []
    (Value.fits_of_length_write t.toValue h)
  rw [List.append_nil, Value.within, if_pos t.depth_toValue] at hr
  unfold decode encode
  rw [hr, Option.bind_some]
  simp only [ofValue?_toValue]

end CacheTable

end MachineVault
