import MachineVault.Wire

/-! Reading what was written. A reader that takes exactly the bytes of a value, whatever follows
them, is put together from such readers, in the order of the bytes. -/

namespace MachineVault

theorem bind_eq_ok {ε α β : Type} {x : Except ε α} {f : α → Except ε β} {b : β} :
    (x >>= f) = .ok b ↔ ∃ a, x = .ok a ∧ f a = .ok b := by
  cases x with
  | error e => exact ⟨nofun, fun ⟨_, h, _⟩ => nomatch h⟩
  | ok a => exact ⟨fun h => ⟨a, rfl, h⟩, fun ⟨_, h, hf⟩ => Except.ok.inj h ▸ hf⟩

theorem bind_eq_error {ε α β : Type} {x : Except ε α} {f : α → Except ε β} {e : ε} :
    (x >>= f) = .error e ↔ x = .error e ∨ ∃ a, x = .ok a ∧ f a = .error e := by
  cases x with
  | error e' =>
    refine ⟨fun h => .inl ?_, fun h => h.elim (fun h => ?_) fun ⟨_, h, _⟩ => nomatch h⟩
    · cases h
      rfl
    · cases h
      rfl
  | ok a =>
    exact ⟨fun h => .inr ⟨a, rfl, h⟩, fun h => h.elim nofun fun ⟨_, h, hf⟩ => Except.ok.inj h ▸ hf⟩

theorem exists_of_isOk {ε α : Type} {x : Except ε α} (h : x.isOk) : ∃ a, x = .ok a := by
  cases x with
  | error e => cases h
  | ok a => exact ⟨a, rfl⟩

theorem mapM_eq_ok_mem {ε α β : Type} {f : α → Except ε β} {as : List α} {bs : List β}
    (h : as.mapM f = .ok bs) : ∀ a ∈ as, ∃ b, f a = .ok b := by
  induction as generalizing bs with
  | nil => exact nofun
  | cons a as ih =>
    rw [List.mapM_cons] at h
    obtain ⟨b, hb, h⟩ := bind_eq_ok.mp h
    obtain ⟨bs', hbs, _⟩ := bind_eq_ok.mp h
    intro a' hx
    rcases hx with _ | ⟨_, ha⟩
    · exact ⟨b, hb⟩
    · exact ih hbs a' ha

theorem lengthWord_eq_ok {n : Nat} {field : Field} {bytes : Bytes} :
    lengthWord n field = .ok bytes ↔ n < 2 ^ 32 ∧ bytes = bigEndian 4 n := by
  unfold lengthWord
  split
  · rename_i h
    simp only [h, true_and, Except.ok.injEq, eq_comm]
  · rename_i h
    simp only [h, false_and, reduceCtorEq]

theorem countedBytes_eq_ok {bytes : Bytes} {field : Field} {written : Bytes} :
    countedBytes bytes field = .ok written ↔
      bytes.length < 2 ^ 32 ∧ written = bigEndian 4 bytes.length ++ bytes := by
  simp only [countedBytes, bind_eq_ok, lengthWord_eq_ok]
  constructor
  · intro hx
    rcases hx with ⟨_, ⟨h, rfl⟩, hw⟩
    exact ⟨h, (Except.ok.inj hw).symm⟩
  · intro hx
    rcases hx with ⟨h, rfl⟩
    exact ⟨_, ⟨h, rfl⟩, rfl⟩

namespace Reader

variable {α β : Type}

/-- Takes exactly these bytes off the front and answers this value. -/
def Reads (r : Reader α) (bytes : Bytes) (a : α) : Prop :=
  ∀ rest, r (bytes ++ rest) = .ok (a, rest)

theorem Reads.pure (a : α) : Reads (pure a : Reader α) [] a := fun _ => rfl

theorem Reads.bind {r : Reader α} {f : α → Reader β} {bytes bytes' : Bytes} {a : α} {b : β}
    (h : r.Reads bytes a) (h' : (f a).Reads bytes' b) : (r >>= f).Reads (bytes ++ bytes') b := by
  intro rest
  change (r (bytes ++ bytes' ++ rest) >>= fun p => f p.1 p.2) = _
  rw [List.append_assoc, h]
  exact h' rest

/-- What comes last takes no more bytes. -/
theorem Reads.last {r : Reader α} {f : α → Reader β} {bytes : Bytes} {a : α} {b : β}
    (h : r.Reads bytes a) (h' : (f a).Reads [] b) : (r >>= f).Reads bytes b := by
  simpa using h.bind h'

/-- What comes first takes no bytes. -/
theorem Reads.first {f : α → Reader β} {bytes : Bytes} {r : Reader α} {a : α} {b : β}
    (h : r.Reads [] a) (h' : (f a).Reads bytes b) : (r >>= f).Reads bytes b :=
  h.bind h'

theorem Reads.run {r : Reader α} {bytes : Bytes} {a : α} (h : r.Reads bytes a) :
    r.run bytes = .ok a := by
  have hr := h []
  rw [List.append_nil] at hr
  rw [Reader.run, StateT.run, hr]
  rfl

theorem reads_take {n : Nat} {bytes : Bytes} (h : bytes.length = n) (field : Field) :
    (take n field).Reads bytes bytes := by
  intro rest
  rw [take, splitBytes?_eq_some_iff.mpr ⟨rfl, h⟩]

theorem reads_byte (b : UInt8) (field : Field) : (byte field).Reads [b] b := fun _ => rfl

theorem reads_word {n : Nat} (h : n < 2 ^ 32) (field : Field) :
    (word field).Reads (bigEndian 4 n) n := by
  refine (reads_take (length_bigEndian 4 n) field).last ?_
  rw [fromBigEndian_bigEndian (by omega)]
  exact Reads.pure n

theorem reads_signedWord (n : Int32) (field : Field) :
    (signedWord field).Reads (signedWordBytes n) n := by
  refine (reads_word n.toUInt32.toNat_lt field).last ?_
  rw [UInt32.ofNat_toNat, Int32.toInt32_toUInt32]
  exact Reads.pure n

theorem reads_counted {bytes written : Bytes} {field' : Field}
    (h : countedBytes bytes field' = .ok written) (lengthField field : Field) :
    (counted lengthField field).Reads written bytes := by
  obtain ⟨hl, rfl⟩ := countedBytes_eq_ok.mp h
  exact (reads_word hl lengthField).bind (reads_take rfl field)

theorem reads_text {s : String} {written : Bytes} {field' : Field}
    (h : countedBytes (Text.encode s) field' = .ok written) (field : Field) :
    (text field).Reads written s := by
  refine (reads_counted h field field).last ?_
  rw [Text.decode?_encode]
  exact Reads.pure s

/-- A list is read item by item when each item is written by itself. -/
theorem reads_replicate {r : Reader α} {write : α → Except FormatError Bytes}
    (hr : ∀ a written, write a = .ok written → r.Reads written a) (as : List α)
    (parts : List Bytes) (h : as.mapM write = .ok parts) :
    (replicate r as.length).Reads parts.flatten as := by
  induction as generalizing parts with
  | nil =>
    cases h
    exact Reads.pure []
  | cons a as ih =>
    rw [List.mapM_cons] at h
    obtain ⟨written, ha, h⟩ := bind_eq_ok.mp h
    obtain ⟨parts', has, h⟩ := bind_eq_ok.mp h
    cases h
    exact (hr a written ha).bind ((ih parts' has).last (Reads.pure (a :: as)))

end Reader

end MachineVault
