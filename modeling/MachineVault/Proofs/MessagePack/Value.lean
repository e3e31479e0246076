import MachineVault.Proofs.MessagePack.Head

/-! A written value reads back as itself, whatever follows it, exactly if it is nested no deeper
than the limit. All lengths inside it have to be below `2 ^ 32`, so that they are written in full;
they are where the whole of the written form is. -/

namespace MachineVault.MessagePack.Value

mutual

/-- How many arrays, maps and extensions contain the innermost value. -/
def depth : Value → Nat
  | scalar _ | str _ | bin _ => 0
  | ext _ _ => 1
  | array items => depthItems items + 1
  | map fields => depthFields fields + 1

def depthItems : List Value → Nat
  | [] => 0
  | v :: rest => max v.depth (depthItems rest)

def depthFields : List (Value × Value) → Nat
  | [] => 0
  | (k, v) :: rest => max (max k.depth v.depth) (depthFields rest)

end

mutual

/-- Every length inside has a written form. -/
def Fits : Value → Prop
  | scalar _ => True
  | str bytes | bin bytes | ext _ bytes => bytes.length < 2 ^ 32
  | array items => items.length < 2 ^ 32 ∧ FitsItems items
  | map fields => fields.length < 2 ^ 32 ∧ FitsFields fields

def FitsItems : List Value → Prop
  | [] => True
  | v :: rest => v.Fits ∧ FitsItems rest

def FitsFields : List (Value × Value) → Prop
  | [] => True
  | (k, v) :: rest => k.Fits ∧ v.Fits ∧ FitsFields rest

end

theorem writeLength_pos (byte half word : UInt8) (n : Nat) :
    0 < (Head.writeLength byte half word n).length := by
  unfold Head.writeLength
  split
  · simp
  split <;> simp

theorem writeCount_pos (half word : UInt8) (n : Nat) :
    0 < (Head.writeCount half word n).length := by
  unfold Head.writeCount
  split <;> simp

theorem writeScalar_pos (s : Scalar) : 0 < (Head.writeScalar s).length := by
  cases s with
  | nil => decide
  | bool b => cases b <;> decide
  | unsigned n =>
    simp only [Head.writeScalar, Head.writeUnsigned]
    repeat' split
    all_goals simp
  | signed n =>
    simp only [Head.writeScalar, Head.writeSigned]
    repeat' split
    all_goals simp
  | float x => simp [Head.writeScalar]

/-- Every head takes a byte, so that a count of values is bounded by their length. -/
theorem write_head_pos (head : Head) : 0 < head.write.length := by
  cases head with
  | scalar s => exact writeScalar_pos s
  | str n =>
    simp only [Head.write]
    split
    · simp
    · exact writeLength_pos ..
  | bin n => exact writeLength_pos ..
  | ext kind n => simp [Head.write]
  | array n =>
    simp only [Head.write]
    split
    · simp
    · exact writeCount_pos ..
  | map n =>
    simp only [Head.write]
    split
    · simp
    · exact writeCount_pos ..

theorem write_pos (v : Value) : 0 < v.write.length := by
  cases v with
  | scalar s => exact write_head_pos (.scalar s)
  | str bytes | bin bytes | ext kind bytes | array items | map fields =>
    simp only [write, List.length_append]
    exact Nat.lt_of_lt_of_le (write_head_pos _) (Nat.le_add_right _ _)

theorem length_le_writeItems (items : List Value) : items.length ≤ (writeItems items).length := by
  induction items with
  | nil => exact Nat.zero_le _
  | cons v rest ih =>
    have := write_pos v
    simp only [writeItems, List.length_cons, List.length_append]
    omega

theorem length_le_writeFields (fields : List (Value × Value)) :
    fields.length ≤ (writeFields fields).length := by
  induction fields with
  | nil => exact Nat.zero_le _
  | cons f rest ih =>
    have := write_pos f.1
    simp only [writeFields, List.length_cons, List.length_append]
    omega

mutual

theorem fits_of_length_write : ∀ v : Value, v.write.length < 2 ^ 32 → v.Fits
  | scalar _, _ => trivial
  | str bytes, h | bin bytes, h | ext _ bytes, h => by
    simp only [write, List.length_append] at h
    exact Nat.lt_of_le_of_lt (Nat.le_add_left _ _) h
  | array items, h => by
    simp only [write, List.length_append] at h
    have hl := length_le_writeItems items
    exact ⟨by omega, fitsItems_of_length_write items (by omega)⟩
  | map fields, h => by
    simp only [write, List.length_append] at h
    have hl := length_le_writeFields fields
    exact ⟨by omega, fitsFields_of_length_write fields (by omega)⟩

theorem fitsItems_of_length_write : ∀ items : List Value,
    (writeItems items).length < 2 ^ 32 → FitsItems items
  | [], _ => trivial
  | v :: rest, h => by
    simp only [writeItems, List.length_append] at h
    exact ⟨fits_of_length_write v (by omega), fitsItems_of_length_write rest (by omega)⟩

theorem fitsFields_of_length_write : ∀ fields : List (Value × Value),
    (writeFields fields).length < 2 ^ 32 → FitsFields fields
  | [], _ => trivial
  | (k, v) :: rest, h => by
    simp only [writeFields, List.length_append] at h
    exact ⟨fits_of_length_write k (by omega), fits_of_length_write v (by omega),
      fitsFields_of_length_write rest (by omega)⟩

end

/-- What reading gives back of a value that was written, if it is no deeper than allowed. -/
def within {α : Type} (depth limit : Nat) (a : α) (rest : Bytes) : Option (α × Bytes) :=
  if depth ≤ limit then some (a, rest) else none

theorem read_container {α : Type} {f : α → Value} {depth limit : Nat} {a : α} {rest : Bytes} :
    (within depth limit a rest).map (Prod.map f id) = within (depth + 1) (limit + 1) (f a) rest := by
  unfold within
  split
  · rw [if_pos (by omega)]
    rfl
  · rw [if_neg (by omega)]
    rfl

mutual

theorem read_write : ∀ (v : Value) (limit : Nat) (rest : Bytes), v.Fits →
    read limit (v.write ++ rest) = within v.depth limit v rest
  | scalar s, limit, rest, _ => by
    rw [write, read.eq_def, Head.read_write (.scalar s) trivial]
    rfl
  | str bytes, limit, rest, h => by
    rw [write, List.append_assoc, read.eq_def, Head.read_write (.str bytes.length) h]
    simp only [splitBytes?_append rfl]
    rfl
  | bin bytes, limit, rest, h => by
    rw [write, List.append_assoc, read.eq_def, Head.read_write (.bin bytes.length) h]
    simp only [splitBytes?_append rfl]
    rfl
  | ext kind bytes, limit, rest, h => by
    rw [write, List.append_assoc, read.eq_def, Head.read_write (.ext kind bytes.length) h]
    cases limit with
    | zero => rfl
    | succ limit =>
      simp only [splitBytes?_append rfl]
      rfl
  | array items, limit, rest, h => by
    rw [write, List.append_assoc, read.eq_def, Head.read_write (.array items.length) h.1]
    cases limit with
    | zero => rfl
    | succ limit =>
      simp only [readMany_writeItems items limit [] rest h.2]
      exact read_container
  | map fields, limit, rest, h => by
    rw [write, List.append_assoc, read.eq_def, Head.read_write (.map fields.length) h.1]
    cases limit with
    | zero => rfl
    | succ limit =>
      simp only [readMany_writeFields fields limit [] rest h.2]
      exact read_container

theorem readMany_writeItems : ∀ (items : List Value) (limit : Nat) (done : List Value)
    (rest : Bytes), FitsItems items →
    readMany (read limit) items.length done (writeItems items ++ rest) =
      within (depthItems items) limit (done.reverse ++ items) rest
  | [], limit, done, rest, _ => by simp [readMany, writeItems, within, depthItems]
  | v :: items, limit, done, rest, h => by
    have hv := read_write v limit (writeItems items ++ rest) h.1
    rw [List.length_cons, writeItems, List.append_assoc, readMany, hv]
    unfold within
    rw [depthItems]
    by_cases hd : v.depth ≤ limit
    · rw [if_pos hd]
      simp only
      rw [readMany_writeItems items limit (v :: done) rest h.2, within]
      simp only [List.reverse_cons, List.append_assoc, List.singleton_append, Nat.max_le, hd,
        true_and]
    · rw [if_neg hd, if_neg (by omega)]

theorem readMany_writeFields : ∀ (fields : List (Value × Value)) (limit : Nat)
    (done : List (Value × Value)) (rest : Bytes), FitsFields fields →
    readMany (readPair (read limit)) fields.length done (writeFields fields ++ rest) =
      within (depthFields fields) limit (done.reverse ++ fields) rest
  | [], limit, done, rest, _ => by simp [readMany, writeFields, within, depthFields]
  | (k, v) :: fields, limit, done, rest, h => by
    have hk := read_write k limit (v.write ++ (writeFields fields ++ rest)) h.1
    have hv := read_write v limit (writeFields fields ++ rest) h.2.1
    rw [List.length_cons, writeFields, List.append_assoc, List.append_assoc, readMany, readPair, hk]
    unfold within at hv ⊢
    rw [depthFields]
    by_cases hd : k.depth ≤ limit
    · rw [if_pos hd]
      simp only [Option.bind_eq_bind, Option.bind_some, hv]
      by_cases hd' : v.depth ≤ limit
      · rw [if_pos hd']
        simp only [Option.bind_some, Option.pure_def]
        rw [readMany_writeFields fields limit ((k, v) :: done) rest h.2.2, within]
        simp only [List.reverse_cons, List.append_assoc, List.singleton_append, Nat.max_le, hd, hd',
          true_and]
      · rw [if_neg hd', if_neg (by omega)]
        rfl
    · rw [if_neg hd, if_neg (by omega)]
      rfl

end

end MachineVault.MessagePack.Value
