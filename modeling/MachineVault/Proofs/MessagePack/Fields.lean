import MachineVault.MessagePack.Fields
import MachineVault.Proofs.MessagePack.Value

/-! A structure written with its field names is read back field by field, and text and numbers are
read back out of its fields. -/

namespace MachineVault.MessagePack.Value

theorem text?_ofText (s : String) : (ofText s).text? = some s := Text.decode?_encode s

theorem int32?_ofInt32 (n : Int32) : (ofInt32 n).int32? = some n := by
  have hl := n.le_toInt
  have hu := n.toInt_lt
  by_cases hn : n < 0
  · have hneg : n.toInt < 0 := by simpa [Int32.lt_iff_toInt_lt] using hn
    simp only [ofInt32, if_pos hn, int32?]
    rw [Int32.toInt_toInt64, if_pos ⟨by omega, by omega⟩]
    congr 1
    exact Int32.toInt32_toInt64 n
  · have hpos : 0 ≤ n.toInt := by
      have := mt Int32.lt_iff_toInt_lt.mpr hn
      simpa using this
    have hle : 0 ≤ n.toInt64 := Int64.le_iff_toInt_le.mpr (by simpa using hpos)
    have hnat : n.toInt64.toUInt64.toNat = n.toInt.toNat := by
      rw [Int64.toNat_toUInt64_of_le hle, Int32.toNatClampNeg_toInt64, Int32.toNatClampNeg]
    simp only [ofInt32, if_neg hn, int32?, hnat]
    rw [if_pos (by omega)]
    congr 1
    apply Int32.toInt_inj.mp
    rw [Int32.toInt_ofNat_of_lt (by omega)]
    omega

/-- The next field in the order of the names fills the first empty place. -/
theorem place_next (done : List (String × Value)) (field : String × Value)
    (rest : List (String × Value)) (h : ((done ++ field :: rest).map Prod.fst).Nodup) :
    place ((done ++ field :: rest).map Prod.fst)
        (done.map (fun f => some f.2) ++ none :: rest.map fun _ => none)
        (Prod.map ofText id field) =
      some (done.map (fun f => some f.2) ++ some field.2 :: rest.map fun _ => none) := by
  have hnew : Text.encode field.1 ∉ (done.map Prod.fst).map Text.encode := by
    intro hm
    obtain ⟨name, hm, he⟩ := List.mem_map.mp hm
    rw [Text.encode_inj] at he
    rw [List.map_append, List.nodup_append] at h
    exact h.2.2 name hm field.1 (by simp) he
  have hi : position? ((done ++ field :: rest).map Prod.fst) (ofText field.1) =
      some (done.map fun f => some f.2).length := by
    simp only [ofText, position?, List.map_append, List.map_cons, List.idxOf_append, if_neg hnew,
      List.idxOf_cons_self, List.length_map, Nat.zero_add]
  simp only [place, Prod.map_fst, Prod.map_snd, id, hi, Option.bind_eq_bind, Option.bind_some]
  rw [List.getElem?_append_right (Nat.le_refl _), Nat.sub_self, List.getElem?_cons_zero]
  simp only [List.set_append_right _ _ (Nat.le_refl _), Nat.sub_self, List.set_cons_zero]

theorem foldlM_place (rest done : List (String × Value))
    (h : ((done ++ rest).map Prod.fst).Nodup) :
    (rest.map (Prod.map ofText id)).foldlM (place ((done ++ rest).map Prod.fst))
        (done.map (fun f => some f.2) ++ rest.map fun _ => none) =
      some ((done ++ rest).map fun f => some f.2) := by
  induction rest generalizing done with
  | nil => simp
  | cons field rest ih =>
    have hnext := ih (done ++ [field]) (by simpa using h)
    simp only [List.append_assoc, List.singleton_append, List.map_append, List.map_cons,
      List.map_nil] at hnext
    simp only [List.map_cons, List.foldlM_cons]
    rw [place_next done field rest h, Option.bind_eq_bind, Option.bind_some]
    simpa using hnext

theorem mapM_some {α : Type} (as : List α) : (as.map some).mapM id = some as := by
  induction as with
  | nil => rfl
  | cons a as ih => simp [List.mapM_cons, ih]

theorem fields?_ofFields (fields : List (String × Value)) (h : (fields.map Prod.fst).Nodup) :
    (ofFields fields).fields? (fields.map Prod.fst) = some (fields.map Prod.snd) := by
  have hf := foldlM_place fields [] h
  simp only [List.nil_append, List.map_nil] at hf
  have hs : (fields.map fun f => some f.2) = (fields.map Prod.snd).map some := by simp
  simp only [ofFields, fields?, List.map_map, Option.bind_eq_bind]
  rw [show ((fun _ : String => (none : Option Value)) ∘ Prod.fst) =
    fun _ : String × Value => none from rfl, hf, Option.bind_some, hs, mapM_some]

end MachineVault.MessagePack.Value
