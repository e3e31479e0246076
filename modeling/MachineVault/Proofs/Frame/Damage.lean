import MachineVault.Proofs.Crc32
import MachineVault.Proofs.Frame

/-! Damage to a frame never goes unnoticed where it is one of these: bytes lost or added at the end,
a changed header, a changed checksum, or up to four changed bytes in a row in the payload. What is
read out of the damaged bytes would have to be wrapped in them, and only the undamaged frame fits. -/

namespace MachineVault.Frame

/-- Of one length, and equal outside of the positions from `lo` up to `hi`. -/
structure AgreeOutside (lo hi : Nat) (frame data : Bytes) : Prop where
  length_eq : data.length = frame.length
  getElem?_eq : ∀ i, i < lo ∨ hi ≤ i → data[i]? = frame[i]?

/-- The kinds of damage to a frame. The header is nine bytes long and the checksum four. -/
inductive Damaged (frame data : Bytes) : Prop
  | shortened (h : data <+: frame)
  | lengthened (h : frame <+: data)
  | header (h : AgreeOutside 0 9 frame data)
  | checksum (h : AgreeOutside (frame.length - 4) frame.length frame data)
  | burst {lo hi : Nat} (hlo : 9 ≤ lo) (hhi : hi + 4 ≤ frame.length) (hshort : hi ≤ lo + 4)
      (h : AgreeOutside lo hi frame data)

namespace AgreeOutside

variable {lo hi : Nat} {frame data : Bytes}

theorem refl (lo hi : Nat) (frame : Bytes) : AgreeOutside lo hi frame frame :=
  ⟨rfl, fun _ _ => rfl⟩

theorem widen {lo' hi' : Nat} (h : AgreeOutside lo hi frame data) (hlo : lo' ≤ lo)
    (hhi : hi ≤ hi') : AgreeOutside lo' hi' frame data :=
  ⟨h.length_eq, fun i hi => h.getElem?_eq i (by omega)⟩

theorem set (frame : Bytes) (i : Nat) (b : UInt8) :
    AgreeOutside i (i + 1) frame (frame.set i b) where
  length_eq := List.length_set
  getElem?_eq j hj := List.getElem?_set_ne (by omega)

theorem take_eq (h : AgreeOutside lo hi frame data) : data.take lo = frame.take lo := by
  apply List.ext_getElem?
  intro i
  rw [List.getElem?_take, List.getElem?_take]
  split
  · exact h.getElem?_eq i (.inl ‹_›)
  · rfl

theorem drop_eq (h : AgreeOutside lo hi frame data) : data.drop hi = frame.drop hi := by
  apply List.ext_getElem?
  intro i
  rw [List.getElem?_drop, List.getElem?_drop]
  exact h.getElem?_eq _ (.inr (Nat.le_add_right hi i))

theorem take (h : AgreeOutside lo hi frame data) (n : Nat) :
    AgreeOutside lo hi (frame.take n) (data.take n) where
  length_eq := by rw [List.length_take, List.length_take, h.length_eq]
  getElem?_eq i hi := by rw [List.getElem?_take, List.getElem?_take, h.getElem?_eq i hi]

/-- Four bytes in a row that differ show in the checksum. -/
theorem eq_of_checksum_eq (h : AgreeOutside lo (lo + 4) frame data)
    (hc : Crc32.checksum data = Crc32.checksum frame) : data = frame := by
  have hsplit (bytes : Bytes) :
      bytes.take lo ++ (bytes.drop lo).take 4 ++ bytes.drop (lo + 4) = bytes := by
    rw [List.append_assoc, ← List.drop_drop, List.take_append_drop, List.take_append_drop]
  have hdata := hsplit data
  rw [h.take_eq, h.drop_eq] at hdata
  have hl : ((data.drop lo).take 4).length = ((frame.drop lo).take 4).length := by
    simp only [List.length_take, List.length_drop, h.length_eq]
  have hmiddle : (data.drop lo).take 4 = (frame.drop lo).take 4 := by
    apply Crc32.eq_of_checksum_eq hl (List.length_take_le 4 _)
    rw [hdata, hsplit frame, hc]
  rw [← hdata, hmiddle, hsplit frame]

end AgreeOutside

variable {magic : Magic} {payload payload' frame data : Bytes}

/-! In the following two byte strings are both intact frames, with payloads of their own. -/

theorem eq_of_payload_eq (h : unwrap magic frame = .ok payload)
    (h' : unwrap magic data = .ok payload') (hp : payload' = payload) : data = frame := by
  have hw := wrap_of_unwrap h'
  rw [hp, wrap_of_unwrap h] at hw
  exact (Except.ok.inj hw).symm

/-- The header says how long the whole frame is. -/
theorem eq_of_cut (h : unwrap magic frame = .ok payload)
    (h' : unwrap magic data = .ok payload') (hp : data <+: frame) : data = frame := by
  obtain ⟨hframe, -, -, hlength, -, -⟩ := unwrap_eq_ok h
  obtain ⟨hdata, -, -, hlength', -, -⟩ := unwrap_eq_ok h'
  have hdeclared : (data.drop 5).take 4 = (frame.drop 5).take 4 := by
    obtain ⟨added, rfl⟩ := hp
    rw [overhead] at hdata
    rw [List.drop_append_of_le_length (by omega), List.take_append_of_le_length]
    rw [List.length_drop]
    omega
  rw [hdeclared, hlength] at hlength'
  exact hp.eq_of_length (by omega)

theorem eq_of_take_eq (h : unwrap magic frame = .ok payload)
    (h' : unwrap magic data = .ok payload') (hl : data.length = frame.length)
    (ht : data.take (frame.length - 4) = frame.take (frame.length - 4)) : data = frame := by
  obtain ⟨-, -, -, -, -, hp⟩ := unwrap_eq_ok h
  obtain ⟨-, -, -, -, -, hp'⟩ := unwrap_eq_ok h'
  apply eq_of_payload_eq h h'
  rw [hp, hp', hl, ht]

theorem eq_of_drop_eq (h : unwrap magic frame = .ok payload)
    (h' : unwrap magic data = .ok payload') (hl : data.length = frame.length)
    (hd : data.drop 9 = frame.drop 9) : data = frame := by
  obtain ⟨-, -, -, -, -, hp⟩ := unwrap_eq_ok h
  obtain ⟨-, -, -, -, -, hp'⟩ := unwrap_eq_ok h'
  apply eq_of_payload_eq h h'
  rw [hp, hp', hl, List.drop_take, List.drop_take, hd]

theorem eq_of_burst {lo hi : Nat} (h : unwrap magic frame = .ok payload)
    (h' : unwrap magic data = .ok payload') (hhi : hi + 4 ≤ frame.length) (hshort : hi ≤ lo + 4)
    (ha : AgreeOutside lo hi frame data) : data = frame := by
  obtain ⟨-, -, -, -, hc, -⟩ := unwrap_eq_ok h
  obtain ⟨-, -, -, -, hc', -⟩ := unwrap_eq_ok h'
  have hstored : data.drop (frame.length - 4) = frame.drop (frame.length - 4) :=
    (ha.widen (Nat.le_refl lo) (by omega)).drop_eq
  rw [ha.length_eq, hstored, hc] at hc'
  apply eq_of_take_eq h h' ha.length_eq
  exact ((ha.take _).widen (Nat.le_refl lo) hshort).eq_of_checksum_eq hc'.symm

theorem eq_of_damaged (h : unwrap magic frame = .ok payload)
    (h' : unwrap magic data = .ok payload') (hd : Damaged frame data) : data = frame := by
  cases hd with
  | shortened hp => exact eq_of_cut h h' hp
  | lengthened hp => exact (eq_of_cut h' h hp).symm
  | header ha => exact eq_of_drop_eq h h' ha.length_eq ha.drop_eq
  | checksum ha => exact eq_of_take_eq h h' ha.length_eq ha.take_eq
  | burst hlo hhi hshort ha => exact eq_of_burst h h' hhi hshort ha

theorem exists_error_of_damaged (h : wrap magic payload = .ok frame) (hne : data ≠ frame)
    (hd : Damaged frame data) : ∃ e, unwrap magic data = .error e := by
  cases hu : unwrap magic data with
  | error e => exact ⟨e, rfl⟩
  | ok read => exact absurd (eq_of_damaged (unwrap_wrap h) hu hd) hne

/-- A byte lies in the header, in the payload or in the checksum. -/
theorem damaged_set (frame : Bytes) (i : Nat) (b : UInt8) : Damaged frame (frame.set i b) := by
  have hset := AgreeOutside.set frame i b
  by_cases hlen : frame.length ≤ i
  · rw [List.set_eq_of_length_le hlen]
    exact .header (.refl 0 9 frame)
  by_cases hheader : i < 9
  · exact .header (hset.widen (Nat.zero_le i) hheader)
  by_cases hpayload : i + 5 ≤ frame.length
  · exact .burst (by omega) (by omega) (by omega) hset
  · exact .checksum (hset.widen (by omega) (by omega))

/-- A payload has a frame, and damage of these kinds to the frame is found when it is read; so is
damage to any single byte. -/
theorem damage_detected (magic : Magic) {payload : Bytes} (h : payload.length < 2 ^ 32) :
    ∃ frame, wrap magic payload = .ok frame ∧
      (∀ data, data ≠ frame → Damaged frame data → ∃ e, unwrap magic data = .error e) ∧
      ∀ i b, frame.set i b ≠ frame → ∃ e, unwrap magic (frame.set i b) = .error e := by
  obtain ⟨frame, hw⟩ := exists_wrap magic h
  refine ⟨frame, hw, fun data hne hd => exists_error_of_damaged hw hne hd, fun i b hne => ?_⟩
  exact exists_error_of_damaged hw hne (damaged_set frame i b)

def sampleMagic : Magic := ⟨[0x4D, 0x56, 0x4C, 0x54], rfl⟩

/-- A byte of the payload is changed, and the last byte of the checksum is lost. -/
theorem damage_detected_sampleMagic :
    ∃ frame, wrap sampleMagic [0x0A, 0x0B, 0x0C] = .ok frame ∧
      frame.set 10 0x00 ≠ frame ∧ (∃ e, unwrap sampleMagic (frame.set 10 0x00) = .error e) ∧
      frame.dropLast ≠ frame ∧ ∃ e, unwrap sampleMagic frame.dropLast = .error e := by
  have hshort : ([0x0A, 0x0B, 0x0C] : Bytes).length < 2 ^ 32 := by decide
  obtain ⟨frame, hw, hdamage, hbyte⟩ := damage_detected sampleMagic hshort
  have hset : frame.set 10 0x00 ≠ frame := by
    cases hw
    decide +kernel
  have hlost : frame.dropLast ≠ frame := by
    cases hw
    decide +kernel
  have hfront : frame.dropLast <+: frame := List.dropLast_prefix frame
  exact ⟨frame, hw, hset, hbyte 10 0x00 hset, hlost, hdamage _ hlost (.shortened hfront)⟩

end MachineVault.Frame
