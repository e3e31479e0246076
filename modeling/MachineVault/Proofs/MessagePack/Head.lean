import MachineVault.MessagePack.Value

/-! What is written in front of a value reads back as itself, whatever follows: scalars in all
their widths, and lengths below `2 ^ 32`. -/

namespace MachineVault

theorem splitBytes?_append {n : Nat} {head : Bytes} (h : head.length = n) (rest : Bytes) :
    splitBytes? n (head ++ rest) = some (head, rest) :=
  splitBytes?_eq_some_iff.mpr ⟨rfl, h⟩

namespace MessagePack

theorem twosComplement_lt (width : Nat) (n : Int) : twosComplement width n < 256 ^ width := by
  have hpos : (0 : Int) < 256 ^ width := Int.pow_pos (by decide)
  have hlt := Int.emod_lt_of_pos n hpos
  have hcast : ((256 ^ width : Nat) : Int) = 256 ^ width := by simp
  unfold twosComplement
  omega

theorem fromTwosComplement_twosComplement {width : Nat} {n : Int} (hl : -256 ^ width ≤ 2 * n)
    (hu : 2 * n < 256 ^ width) : fromTwosComplement width (twosComplement width n) = n := by
  have hcast : ((256 ^ width : Nat) : Int) = 256 ^ width := by simp
  unfold fromTwosComplement twosComplement
  by_cases hn : 0 ≤ n
  · rw [Int.emod_eq_of_lt hn (by omega), if_pos (by omega)]
    omega
  · have hmod : n % 256 ^ width = n + 256 ^ width := by
      rw [← Int.add_emod_right, Int.emod_eq_of_lt (by omega) (by omega)]
    rw [hmod, if_neg (by omega)]
    omega

namespace Head

/-- The lengths have a written form. -/
def Fits : Head → Prop
  | scalar _ => True
  | str n | bin n | ext _ n | array n | map n => n < 2 ^ 32

theorem readNumber_bigEndian {width n : Nat} (h : n < 256 ^ width) (head : Nat → Head)
    (rest : Bytes) : readNumber width head (bigEndian width n ++ rest) = some (head n, rest) := by
  rw [readNumber, splitBytes?_append (length_bigEndian width n)]
  simp only [fromBigEndian_bigEndian h]

theorem readUnsigned_bigEndian {width : Nat} {n : UInt64} (h : n.toNat < 256 ^ width)
    (rest : Bytes) :
    readNumber width (fun n => scalar (.unsigned (UInt64.ofNat n)))
      (bigEndian width n.toNat ++ rest) = some (scalar (.unsigned n), rest) := by
  rw [readNumber_bigEndian h, UInt64.ofNat_toNat]

theorem readSigned_bigEndian (width : Nat) (n : Int64) (hl : -256 ^ width ≤ 2 * n.toInt)
    (hu : 2 * n.toInt < 256 ^ width) (rest : Bytes) :
    readSigned width (bigEndian width (twosComplement width n.toInt) ++ rest) =
      some (scalar (.signed n), rest) := by
  rw [readSigned, readNumber_bigEndian (twosComplement_lt width n.toInt),
    fromTwosComplement_twosComplement hl hu, Int64.ofInt_toInt]

theorem read_ofNat {marker : Nat} (h : marker < 256) (rest : Bytes) :
    read (UInt8.ofNat marker :: rest) = readMarker marker rest := by
  have hm : (UInt8.ofNat marker).toNat = marker := by
    rw [UInt8.toNat_ofNat', Nat.mod_eq_of_lt h]
  rw [read, hm]

/-! The markers that hold a number or a length themselves. -/

theorem readMarker_unsigned {n : Nat} (h : n < 0x80) (rest : Bytes) :
    readMarker n rest = some (scalar (.unsigned (UInt64.ofNat n)), rest) := by
  unfold readMarker
  rw [if_pos h]

theorem readMarker_map {n : Nat} (h : n < 16) (rest : Bytes) :
    readMarker (0x80 + n) rest = some (map n, rest) := by
  unfold readMarker
  rw [if_neg (by omega), if_pos (by omega), Nat.add_sub_cancel_left]

theorem readMarker_array {n : Nat} (h : n < 16) (rest : Bytes) :
    readMarker (0x90 + n) rest = some (array n, rest) := by
  unfold readMarker
  rw [if_neg (by omega), if_neg (by omega), if_pos (by omega), Nat.add_sub_cancel_left]

theorem readMarker_str {n : Nat} (h : n < 32) (rest : Bytes) :
    readMarker (0xA0 + n) rest = some (str n, rest) := by
  unfold readMarker
  rw [if_neg (by omega), if_neg (by omega), if_neg (by omega), if_pos (by omega),
    Nat.add_sub_cancel_left]

theorem readMarker_signed {n : Nat} (h : 0xE0 ≤ n) (rest : Bytes) :
    readMarker n rest = some (scalar (.signed (Int64.ofInt (fromTwosComplement 1 n))), rest) := by
  unfold readMarker
  rw [if_neg (by omega), if_neg (by omega), if_neg (by omega), if_neg (by omega), if_pos h]

theorem read_writeUnsigned (n : UInt64) (rest : Bytes) :
    read (writeUnsigned n.toNat ++ rest) = some (scalar (.unsigned n), rest) := by
  have hlt := n.toNat_lt
  unfold writeUnsigned
  split
  · rw [List.singleton_append, read_ofNat (by omega), readMarker_unsigned (by omega),
      UInt64.ofNat_toNat]
  split
  · exact readUnsigned_bigEndian (show n.toNat < 256 ^ 1 by omega) rest
  split
  · exact readUnsigned_bigEndian (show n.toNat < 256 ^ 2 by omega) rest
  split
  · exact readUnsigned_bigEndian (show n.toNat < 256 ^ 4 by omega) rest
  · exact readUnsigned_bigEndian (show n.toNat < 256 ^ 8 by omega) rest

theorem read_negative {n : Int64} (hl : -32 ≤ n.toInt) (hu : n.toInt < 0) (rest : Bytes) :
    read (bigEndian 1 (twosComplement 1 n.toInt) ++ rest) = some (scalar (.signed n), rest) := by
  have hm : twosComplement 1 n.toInt = (n.toInt + 256).toNat := by
    unfold twosComplement
    omega
  have hb : bigEndian 1 (twosComplement 1 n.toInt) = [UInt8.ofNat (twosComplement 1 n.toInt)] := by
    simp [bigEndian]
  rw [hb, List.singleton_append, read_ofNat (by omega), readMarker_signed (by omega),
    fromTwosComplement_twosComplement (by omega) (by omega), Int64.ofInt_toInt]

theorem read_writeSigned (n : Int64) (rest : Bytes) :
    read (writeSigned n.toInt ++ rest) = some (scalar (.signed n), rest) := by
  have hl := n.le_toInt
  have hu := n.toInt_lt
  unfold writeSigned
  split
  · rename_i h
    exact read_negative h.1 h.2 rest
  split
  · exact readSigned_bigEndian 1 n (by omega) (by omega) rest
  split
  · exact readSigned_bigEndian 2 n (by omega) (by omega) rest
  split
  · exact readSigned_bigEndian 4 n (by omega) (by omega) rest
  · exact readSigned_bigEndian 8 n (by omega) (by omega) rest

theorem read_writeScalar (s : Scalar) (rest : Bytes) :
    read (writeScalar s ++ rest) = some (scalar s, rest) := by
  cases s with
  | nil => rfl
  | bool b => cases b <;> rfl
  | unsigned n => exact read_writeUnsigned n rest
  | signed n => exact read_writeSigned n rest
  | float x =>
    have hlt := x.bits.toNat_lt
    have h := readNumber_bigEndian (show x.bits.toNat < 256 ^ 8 by omega)
      (fun n => scalar (.float ⟨UInt64.ofNat n⟩)) rest
    rw [UInt64.ofNat_toNat] at h
    exact h

theorem read_writeLength {byte half word : UInt8} {head : Nat → Head} {n : Nat} (h : n < 2 ^ 32)
    (rest : Bytes)
    (hb : read (byte :: (bigEndian 1 n ++ rest)) = readNumber 1 head (bigEndian 1 n ++ rest))
    (hh : read (half :: (bigEndian 2 n ++ rest)) = readNumber 2 head (bigEndian 2 n ++ rest))
    (hw : read (word :: (bigEndian 4 n ++ rest)) = readNumber 4 head (bigEndian 4 n ++ rest)) :
    read (writeLength byte half word n ++ rest) = some (head n, rest) := by
  unfold writeLength
  split
  · exact hb.trans (readNumber_bigEndian (by omega) head rest)
  split
  · exact hh.trans (readNumber_bigEndian (by omega) head rest)
  · exact hw.trans (readNumber_bigEndian (by omega) head rest)

theorem read_writeCount {half word : UInt8} {head : Nat → Head} {n : Nat} (h : n < 2 ^ 32)
    (rest : Bytes)
    (hh : read (half :: (bigEndian 2 n ++ rest)) = readNumber 2 head (bigEndian 2 n ++ rest))
    (hw : read (word :: (bigEndian 4 n ++ rest)) = readNumber 4 head (bigEndian 4 n ++ rest)) :
    read (writeCount half word n ++ rest) = some (head n, rest) := by
  unfold writeCount
  split
  · exact hh.trans (readNumber_bigEndian (by omega) head rest)
  · exact hw.trans (readNumber_bigEndian (by omega) head rest)

theorem readExt_bigEndian {width n : Nat} (h : n < 256 ^ width) (kind : UInt8) (rest : Bytes) :
    readExt width (bigEndian width n ++ kind :: rest) = some (ext kind n, rest) := by
  rw [readExt, splitBytes?_append (length_bigEndian width n)]
  simp only [fromBigEndian_bigEndian h, readKind]

theorem read_write (head : Head) (h : head.Fits) (rest : Bytes) :
    read (head.write ++ rest) = some (head, rest) := by
  cases head with
  | scalar s => exact read_writeScalar s rest
  | str n =>
    simp only [write]
    split
    · rename_i hn
      exact (read_ofNat (show 0xA0 + n < 256 by omega) rest).trans (readMarker_str hn rest)
    · exact read_writeLength h rest rfl rfl rfl
  | bin n => exact read_writeLength h rest rfl rfl rfl
  | ext kind n =>
    have hn : n < 2 ^ 32 := h
    simp only [write, List.append_assoc, List.singleton_append, writeLength]
    split
    · exact readExt_bigEndian (show n < 256 ^ 1 by omega) kind rest
    split
    · exact readExt_bigEndian (show n < 256 ^ 2 by omega) kind rest
    · exact readExt_bigEndian (show n < 256 ^ 4 by omega) kind rest
  | array n =>
    simp only [write]
    split
    · rename_i hn
      exact (read_ofNat (show 0x90 + n < 256 by omega) rest).trans (readMarker_array hn rest)
    · exact read_writeCount h rest rfl rfl
  | map n =>
    simp only [write]
    split
    · rename_i hn
      exact (read_ofNat (show 0x80 + n < 256 by omega) rest).trans (readMarker_map hn rest)
    · exact read_writeCount h rest rfl rfl

end Head

end MessagePack

end MachineVault
