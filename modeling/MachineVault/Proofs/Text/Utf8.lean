import MachineVault.Text.Utf8

/-! UTF-8 keeps the order of texts: characters compare like the bytes that stand for them, so texts
come in the same order by characters and by bytes. -/

namespace MachineVault.Text

theorem encode_eq_flatMap (s : String) : encode s = s.toList.flatMap String.utf8EncodeChar := by
  have hbytes : s.toUTF8 = s.toList.utf8Encode := String.utf8Encode_toList.symm
  rw [encode, hbytes, List.utf8Encode, List.toList_data_toByteArray]

theorem cons_ofNat_lt {n m : Nat} (hn : n < 256) (hm : m < 256) {u v : Bytes} :
    UInt8.ofNat n :: u < UInt8.ofNat m :: v ↔ n < m ∨ n = m ∧ u < v := by
  rw [List.cons_lt_cons_iff, UInt8.lt_iff_toNat_lt, ← UInt8.toNat_inj, UInt8.toNat_ofNat_of_lt' hn,
    UInt8.toNat_ofNat_of_lt' hm]

/-- The smaller one of two numbers is told by what is above the last six bits, or else by these. -/
theorem sextet_lt {n m : Nat} (h : n < m) : n / 64 < m / 64 ∨ n / 64 = m / 64 ∧ n % 64 < m % 64 := by
  omega

/-- The first byte in which two characters differ decides, whatever follows them. -/
theorem utf8EncodeChar_lt {c d : Char} (h : c < d) (u v : Bytes) :
    String.utf8EncodeChar c ++ u < String.utf8EncodeChar d ++ v := by
  have hlt : c.val.toNat < d.val.toNat := h
  have hd : d.val.toNat < 1114112 := by
    rcases d.valid with hv | ⟨_, hv⟩
    · exact Nat.lt_trans hv (by decide)
    · exact hv
  unfold String.utf8EncodeChar
  dsimp only
  -- one case for each two lengths; all bytes behind the first hold six bits
  repeat' split
  all_goals
    simp only [List.cons_append, List.nil_append]
    repeat rw [cons_ofNat_lt (by omega) (by omega)]
    rcases sextet_lt hlt with hhigh | hlow
    · rcases sextet_lt hhigh with hhigh | hlow <;> omega
    · omega

theorem flatMap_utf8EncodeChar_lt {cs ds : List Char} (h : cs < ds) :
    cs.flatMap String.utf8EncodeChar < ds.flatMap String.utf8EncodeChar := by
  induction h with
  | @nil d ds =>
    rw [List.flatMap_nil, List.flatMap_cons]
    have hne : String.utf8EncodeChar d ≠ [] := String.utf8EncodeChar_ne_nil
    obtain ⟨b, rest, hb⟩ := List.exists_cons_of_ne_nil hne
    rw [hb]
    exact List.nil_lt_cons b _
  | rel h => exact utf8EncodeChar_lt h _ _
  | cons _ ih => exact List.append_left_lt ih

/-- Texts compare like their bytes. -/
theorem compare_eq_lt_iff {s t : String} : compare s t = .lt ↔ encode s < encode t := by
  have hlt {s t : String} (h : compare s t = .lt) : encode s < encode t := by
    have hst : s < t := compareOfLessAndEq_eq_lt.mp h
    rw [encode_eq_flatMap, encode_eq_flatMap]
    exact flatMap_utf8EncodeChar_lt (String.lt_iff.mp hst)
  refine ⟨hlt, fun h => ?_⟩
  cases hc : compare s t with
  | lt => rfl
  | eq =>
    obtain rfl := Std.LawfulEqOrd.eq_of_compare hc
    exact absurd h (List.lt_irrefl _)
  | gt => exact absurd h (List.lt_asymm (hlt (Std.OrientedCmp.lt_of_gt hc)))

end MachineVault.Text
