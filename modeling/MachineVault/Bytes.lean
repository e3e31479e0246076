/-! Byte strings and unsigned big-endian numbers. A number written in `width` bytes reads back
when it fits, and any bytes are the one written form of the number they spell. -/

-- Powers of numbers are the built-in ones, whatever algebra is imported beside these modules.
attribute [instance (2000), default_instance 20000] instPowNat

namespace MachineVault

abbrev Bytes := List UInt8

/-- The low `width` bytes of `n`, most significant first. -/
def bigEndian : (width n : Nat) → Bytes
  | 0, _ => []
  | width + 1, n => UInt8.ofNat (n / 256 ^ width) :: bigEndian width n

/-- The number that bytes spell, most significant first. -/
def fromBigEndian (bytes : Bytes) : Nat :=
  bytes.foldl (fun n b => n * 256 + b.toNat) 0

/-- The first `n` bytes and the rest, if there are that many. -/
def splitBytes? (n : Nat) (bytes : Bytes) : Option (Bytes × Bytes) :=
  let head := bytes.take n
  if head.length = n then some (head, bytes.drop n) else none

theorem splitBytes?_eq_some_iff {n : Nat} {bytes head rest : Bytes} :
    splitBytes? n bytes = some (head, rest) ↔ bytes = head ++ rest ∧ head.length = n := by
  simp only [splitBytes?, Option.ite_none_right_eq_some, Option.some.injEq, Prod.mk.injEq]
  constructor
  · rintro ⟨h, rfl, rfl⟩
    exact ⟨(List.take_append_drop n bytes).symm, h⟩
  · rintro ⟨rfl, rfl⟩
    simp

@[simp] theorem length_bigEndian (width n : Nat) : (bigEndian width n).length = width := by
  induction width with
  | zero => rfl
  | succ width ih => simp [bigEndian, ih]

private theorem foldl_from (bytes : Bytes) (n : Nat) :
    bytes.foldl (fun n b => n * 256 + b.toNat) n = n * 256 ^ bytes.length + fromBigEndian bytes := by
  induction bytes generalizing n with
  | nil => simp [fromBigEndian]
  | cons b bytes ih =>
    simp only [List.foldl_cons, fromBigEndian, List.length_cons]
    rw [ih, ih (0 * 256 + b.toNat), Nat.pow_succ]
    simp only [Nat.zero_mul, Nat.zero_add, Nat.add_mul, Nat.add_assoc, Nat.mul_assoc,
      Nat.mul_comm 256]

theorem fromBigEndian_cons (b : UInt8) (bytes : Bytes) :
    fromBigEndian (b :: bytes) = b.toNat * 256 ^ bytes.length + fromBigEndian bytes := by
  rw [fromBigEndian, List.foldl_cons, foldl_from]
  simp

theorem fromBigEndian_lt (bytes : Bytes) : fromBigEndian bytes < 256 ^ bytes.length := by
  induction bytes with
  | nil => simp [fromBigEndian]
  | cons b bytes ih =>
    rw [fromBigEndian_cons, List.length_cons, Nat.pow_succ]
    have hb : b.toNat < 256 := b.toNat_lt
    calc b.toNat * 256 ^ bytes.length + fromBigEndian bytes
        < b.toNat * 256 ^ bytes.length + 256 ^ bytes.length := Nat.add_lt_add_left ih _
      _ = (b.toNat + 1) * 256 ^ bytes.length := by rw [Nat.add_mul, Nat.one_mul]
      _ ≤ 256 * 256 ^ bytes.length := Nat.mul_le_mul_right _ hb
      _ = 256 ^ bytes.length * 256 := Nat.mul_comm _ _

theorem fromBigEndian_bigEndian_mod (width n : Nat) :
    fromBigEndian (bigEndian width n) = n % 256 ^ width := by
  induction width with
  | zero => simp [bigEndian, fromBigEndian, Nat.mod_one]
  | succ width ih =>
    have hb : (UInt8.ofNat (n / 256 ^ width)).toNat = n / 256 ^ width % 256 := UInt8.toNat_ofNat'
    rw [bigEndian, fromBigEndian_cons, ih, length_bigEndian, hb, Nat.pow_succ 256 width,
      Nat.mod_mul, Nat.add_comm, Nat.mul_comm]

theorem fromBigEndian_bigEndian {width n : Nat} (h : n < 256 ^ width) :
    fromBigEndian (bigEndian width n) = n := by
  rw [fromBigEndian_bigEndian_mod, Nat.mod_eq_of_lt h]

private theorem bigEndian_add_mul (width n k : Nat) :
    bigEndian width (n + k * 256 ^ width) = bigEndian width n := by
  induction width generalizing k with
  | zero => rfl
  | succ width ih =>
    have hk : k * 256 ^ (width + 1) = (k * 256) * 256 ^ width := by
      rw [Nat.pow_succ, Nat.mul_assoc, Nat.mul_comm 256]
    rw [bigEndian, bigEndian, hk, ih, Nat.add_mul_div_right _ _ (Nat.pow_pos (by decide))]
    congr 1
    apply UInt8.toNat_inj.mp
    simp

theorem bigEndian_fromBigEndian (bytes : Bytes) :
    bigEndian bytes.length (fromBigEndian bytes) = bytes := by
  induction bytes with
  | nil => rfl
  | cons b bytes ih =>
    rw [fromBigEndian_cons, List.length_cons, bigEndian, Nat.add_comm (b.toNat * _),
      bigEndian_add_mul, ih, Nat.add_mul_div_right _ _ (Nat.pow_pos (by decide)),
      Nat.div_eq_of_lt (fromBigEndian_lt bytes)]
    simp

end MachineVault
