import MachineVault.Crc32

/-! What the checksum tells apart. Shifting is linear and loses nothing, so registers that differ
stay different whatever bytes follow, and a difference that fits into four bytes is still in the
register after them. -/

namespace MachineVault.Crc32

theorem and_one_eq_one_iff (r : UInt32) : r &&& 1 = 1 ↔ r.toNat % 2 = 1 := by
  rw [← UInt32.toNat_inj, UInt32.toNat_and, UInt32.toNat_one, Nat.and_one_is_mod]

theorem shiftBit_eq (r : UInt32) :
    shiftBit r = if r.toNat % 2 = 1 then r >>> 1 ^^^ generator else r >>> 1 := by
  simp only [shiftBit, and_one_eq_one_iff]

theorem toNat_shiftRight_one (r : UInt32) : (r >>> 1).toNat = r.toNat / 2 := by
  rw [UInt32.toNat_shiftRight, UInt32.toNat_one, Nat.shiftRight_eq_div_pow]

theorem shiftBit_xor (a b : UInt32) : shiftBit (a ^^^ b) = shiftBit a ^^^ shiftBit b := by
  simp only [shiftBit_eq, UInt32.toNat_xor, Nat.xor_mod_two_eq_one, UInt32.shiftRight_xor]
  by_cases ha : a.toNat % 2 = 1
  · by_cases hb : b.toNat % 2 = 1
    · rw [if_neg (by simp [ha, hb]), if_pos ha, if_pos hb]
      -- The generator goes in twice and cancels.
      calc a >>> 1 ^^^ b >>> 1
          = a >>> 1 ^^^ b >>> 1 ^^^ (generator ^^^ generator) := by simp
        _ = a >>> 1 ^^^ generator ^^^ (b >>> 1 ^^^ generator) := by ac_rfl
    · rw [if_pos (by simp [ha, hb]), if_pos ha, if_neg hb]
      ac_rfl
  · by_cases hb : b.toNat % 2 = 1
    · rw [if_pos (by simp [ha, hb]), if_neg ha, if_pos hb]
      ac_rfl
    · rw [if_neg (by simp [ha, hb]), if_neg ha, if_neg hb]

theorem eq_zero_of_shiftBit {r : UInt32} (h : shiftBit r = 0) : r = 0 := by
  rw [shiftBit_eq] at h
  apply UInt32.toNat_inj.mp
  split at h
  · -- The generator has its top bit set, and a shifted register has not.
    rw [UInt32.xor_eq_zero_iff] at h
    have hn := congrArg UInt32.toNat h
    rw [toNat_shiftRight_one] at hn
    have hlt := r.toNat_lt
    have hg : generator.toNat = 0xEDB88320 := rfl
    omega
  · have hn := congrArg UInt32.toNat h
    rw [toNat_shiftRight_one, UInt32.toNat_zero] at hn
    rw [UInt32.toNat_zero]
    omega

theorem shiftBits_xor (n : Nat) (a b : UInt32) :
    shiftBits n (a ^^^ b) = shiftBits n a ^^^ shiftBits n b := by
  induction n generalizing a b with
  | zero => rfl
  | succ n ih => rw [shiftBits, shiftBits, shiftBits, shiftBit_xor, ih]

theorem eq_zero_of_shiftBits {n : Nat} {r : UInt32} (h : shiftBits n r = 0) : r = 0 := by
  induction n generalizing r with
  | zero => exact h
  | succ n ih => exact eq_zero_of_shiftBit (ih h)

theorem shiftBits_inj {n : Nat} {a b : UInt32} : shiftBits n a = shiftBits n b ↔ a = b := by
  refine ⟨fun h => ?_, fun h => h ▸ rfl⟩
  rw [← UInt32.xor_eq_zero_iff, ← shiftBits_xor] at h
  exact UInt32.xor_eq_zero_iff.mp (eq_zero_of_shiftBits h)

theorem toNat_ofNat {n : Nat} (h : n < 2 ^ 32) : (UInt32.ofNat n).toNat = n :=
  UInt32.toNat_ofNat_of_lt' h

theorem shiftBit_ofNat_two_mul {n : Nat} (h : 2 * n < 2 ^ 32) :
    shiftBit (UInt32.ofNat (2 * n)) = UInt32.ofNat n := by
  rw [shiftBit_eq, toNat_ofNat h, if_neg (by omega)]
  apply UInt32.toNat_inj.mp
  rw [toNat_shiftRight_one, toNat_ofNat h, toNat_ofNat (by omega)]
  omega

/-- Zeros in the low bits are shifted out and leave the rest as it was. -/
theorem shiftBits_ofNat_mul {k n : Nat} (h : 2 ^ k * n < 2 ^ 32) :
    shiftBits k (UInt32.ofNat (2 ^ k * n)) = UInt32.ofNat n := by
  induction k with
  | zero => rw [Nat.pow_zero, Nat.one_mul, shiftBits]
  | succ k ih =>
    rw [Nat.pow_succ, Nat.mul_comm (2 ^ k), Nat.mul_assoc] at h ⊢
    rw [shiftBits, shiftBit_ofNat_two_mul h, ih (by omega)]

/-- Before a byte the registers differed by what they differ by after it, moved up by a byte, and by
the difference of the bytes themselves. -/
theorem xor_of_update_xor {r s : UInt32} {a b : UInt8} {n : Nat} (hn : n ≤ 3)
    (h : (update r a ^^^ update s b).toNat < 2 ^ (8 * n)) :
    256 * (update r a ^^^ update s b).toNat < 2 ^ 32 ∧
      r ^^^ s ^^^ (a.toUInt32 ^^^ b.toUInt32) =
        UInt32.ofNat (256 * (update r a ^^^ update s b).toNat) := by
  have hword : 2 ^ (8 * n) ≤ 2 ^ 24 := Nat.pow_le_pow_right (by decide) (by omega)
  have hmoved := shiftBits_ofNat_mul (k := 8) (n := (update r a ^^^ update s b).toNat) (by omega)
  rw [UInt32.ofNat_toNat] at hmoved
  have hs : shiftBits 8 (r ^^^ s ^^^ (a.toUInt32 ^^^ b.toUInt32)) = update r a ^^^ update s b := by
    rw [update, update, ← shiftBits_xor]
    congr 1
    ac_rfl
  exact ⟨by omega, shiftBits_inj.mp (hs.trans hmoved.symm)⟩

theorem update_inj {r s : UInt32} {b : UInt8} : update r b = update s b ↔ r = s := by
  rw [update, update, shiftBits_inj, UInt32.xor_left_inj]

theorem foldl_update_inj {r s : UInt32} (bytes : Bytes) :
    bytes.foldl update r = bytes.foldl update s ↔ r = s := by
  induction bytes generalizing r s with
  | nil => rfl
  | cons b bytes ih => rw [List.foldl_cons, List.foldl_cons, ih, update_inj]

theorem toNat_xor_bytes_lt (a b : UInt8) : (a.toUInt32 ^^^ b.toUInt32).toNat < 2 ^ 8 := by
  rw [UInt32.toNat_xor, UInt8.toNat_toUInt32, UInt8.toNat_toUInt32]
  exact Nat.xor_lt_two_pow a.toNat_lt b.toNat_lt

/-- Registers that at most four bytes bring together differ in no more than as many low bytes. -/
theorem xor_lt_of_foldl_update_eq {a b : Bytes} {r s : UInt32} (hl : a.length = b.length)
    (hn : a.length ≤ 4) (h : a.foldl update r = b.foldl update s) :
    (r ^^^ s).toNat < 2 ^ (8 * a.length) := by
  induction a generalizing b r s with
  | nil =>
    cases List.length_eq_zero_iff.mp hl.symm
    cases h
    simp
  | cons x a ih =>
    cases b with
    | nil => cases hl
    | cons y b =>
      rw [List.length_cons] at hn
      have hlt := ih (Nat.succ.inj hl) (by omega) h
      obtain ⟨hword, hstep⟩ := xor_of_update_xor (by omega) hlt
      have hrs : r ^^^ s = UInt32.ofNat (256 * (update r x ^^^ update s y).toNat) ^^^
          (x.toUInt32 ^^^ y.toUInt32) := by
        rw [← hstep, UInt32.xor_assoc, UInt32.xor_self, UInt32.xor_zero]
      have hpow : 2 ^ (8 * (a.length + 1)) = 256 * 2 ^ (8 * a.length) := by
        rw [Nat.mul_add, Nat.pow_add, Nat.mul_comm]
      rw [hrs, UInt32.toNat_xor, toNat_ofNat hword, List.length_cons]
      refine Nat.xor_lt_two_pow (by omega) (Nat.lt_of_lt_of_le (toNat_xor_bytes_lt x y) ?_)
      exact Nat.pow_le_pow_right (by decide) (by omega)

theorem eq_of_foldl_update_eq {a b : Bytes} {r : UInt32} (hl : a.length = b.length)
    (hn : a.length ≤ 4) (h : a.foldl update r = b.foldl update r) : a = b := by
  induction a generalizing b r with
  | nil => exact (List.length_eq_zero_iff.mp hl.symm).symm
  | cons x a ih =>
    cases b with
    | nil => cases hl
    | cons y b =>
      rw [List.length_cons] at hn
      have hlt := xor_lt_of_foldl_update_eq (Nat.succ.inj hl) (by omega) h
      obtain ⟨hword, hstep⟩ := xor_of_update_xor (by omega) hlt
      have hxy := toNat_xor_bytes_lt x y
      rw [UInt32.xor_self, UInt32.zero_xor] at hstep
      rw [hstep, toNat_ofNat hword] at hxy
      have hzero : (update r x ^^^ update r y).toNat = 0 := by omega
      rw [hzero, Nat.mul_zero] at hstep
      obtain rfl := UInt8.toUInt32_inj.mp (UInt32.xor_eq_zero_iff.mp hstep)
      rw [ih (Nat.succ.inj hl) (by omega) h]

/-- Up to four bytes that differ, between equal bytes of any number, show in the checksum. -/
theorem eq_of_checksum_eq {front a b back : Bytes} (hl : a.length = b.length) (hn : a.length ≤ 4)
    (h : checksum (front ++ a ++ back) = checksum (front ++ b ++ back)) : a = b := by
  rw [checksum, checksum, UInt32.xor_left_inj] at h
  simp only [List.foldl_append, foldl_update_inj] at h
  exact eq_of_foldl_update_eq hl hn h

end MachineVault.Crc32
