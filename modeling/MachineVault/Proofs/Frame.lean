import MachineVault.Frame
import MachineVault.Proofs.Wire

/-! A frame gives back the payload that was wrapped in it, and is the only one that does. -/

namespace MachineVault.Frame

theorem wrap_eq_ok {magic : Magic} {payload frame : Bytes} (h : wrap magic payload = .ok frame) :
    payload.length < 2 ^ 32 ∧ ∃ body, body = magic.bytes ++ version ::
      bigEndian 4 payload.length ++ payload ∧
      frame = body ++ bigEndian 4 (Crc32.checksum body).toNat := by
  obtain ⟨length, hl, h⟩ := bind_eq_ok.mp h
  obtain ⟨hlt, rfl⟩ := lengthWord_eq_ok.mp hl
  cases h
  exact ⟨hlt, _, rfl, rfl⟩

theorem exists_wrap (magic : Magic) {payload : Bytes} (h : payload.length < 2 ^ 32) :
    ∃ frame, wrap magic payload = .ok frame :=
  ⟨_, bind_eq_ok.mpr ⟨_, lengthWord_eq_ok.mpr ⟨h, rfl⟩, rfl⟩⟩

/-- The parts of a frame stand where they are looked for. -/
theorem parts {magic length payload checksum : Bytes} {v : UInt8} (hm : magic.length = 4)
    (hl : length.length = 4) (hc : checksum.length = 4) {data body : Bytes}
    (hb : body = magic ++ v :: length ++ payload) (hd : data = body ++ checksum) :
    data.length = payload.length + overhead ∧ data.take 4 = magic ∧ data.getD 4 0 = v ∧
      (data.drop 5).take 4 = length ∧ data.take (data.length - 4) = body ∧
      data.drop (data.length - 4) = checksum ∧ body.drop 9 = payload := by
  have hbl : body.length = payload.length + 9 := by
    rw [hb, List.length_append, List.length_append, List.length_cons, hm, hl]
    omega
  have hdl : data.length = payload.length + overhead := by
    rw [hd, List.length_append, hbl, hc, overhead]
  have hsplit : data.length - 4 = body.length := by
    rw [hdl, hbl, overhead]
    omega
  have hdata : data = magic ++ (v :: length ++ (payload ++ checksum)) := by
    rw [hd, hb]
    simp
  refine ⟨hdl, ?_, ?_, ?_, ?_, ?_, ?_⟩
  · rw [hdata, ← hm, List.take_left]
  · rw [hdata, List.getD_eq_getElem?_getD, List.getElem?_append_right (by omega), hm]
    rfl
  · rw [hdata, List.cons_append, List.append_cons, show 5 = (magic ++ [v]).length by simp [hm],
      List.drop_left, ← hl, List.take_left]
  · rw [hsplit, hd, List.take_left]
  · rw [hsplit, hd, List.drop_left]
  · rw [hb, show 9 = (magic ++ v :: length).length by simp [hm, hl], List.drop_left]

theorem unwrap_wrap {magic : Magic} {payload frame : Bytes} (h : wrap magic payload = .ok frame) :
    unwrap magic frame = .ok payload := by
  obtain ⟨hlt, body, hb, hf⟩ := wrap_eq_ok h
  obtain ⟨hlen, hmagic, hversion, hlength, hbody, hchecksum, hpayload⟩ :=
    parts magic.length_bytes (length_bigEndian 4 _) (length_bigEndian 4 _) hb hf
  have hcrc : (Crc32.checksum body).toNat < 256 ^ 4 := (Crc32.checksum body).toNat_lt
  rw [hlen] at hbody hchecksum
  unfold unwrap
  simp only [hbody, hchecksum, hmagic, hversion, hlength, hpayload, hlen,
    fromBigEndian_bigEndian (show payload.length < 256 ^ 4 from hlt), fromBigEndian_bigEndian hcrc,
    UInt32.ofNat_toNat, Nat.add_sub_cancel, if_true]
  rw [if_neg (by omega)]
  rfl

theorem unwrap_eq_ok {magic : Magic} {data payload : Bytes} (h : unwrap magic data = .ok payload) :
    overhead ≤ data.length ∧ data.take 4 = magic.bytes ∧ data.getD 4 0 = version ∧
      fromBigEndian ((data.drop 5).take 4) = data.length - overhead ∧
      UInt32.ofNat (fromBigEndian (data.drop (data.length - 4))) =
        Crc32.checksum (data.take (data.length - 4)) ∧
      payload = (data.take (data.length - 4)).drop 9 := by
  dsimp only [unwrap] at h
  split at h
  · cases h
  split at h
  case isFalse => cases h
  split at h
  case isFalse => cases h
  split at h
  case isFalse => cases h
  split at h
  case isFalse => cases h
  cases h
  exact ⟨by omega, ‹_›, ‹_›, ‹_›, ‹_›, rfl⟩

theorem exists_split {n : Nat} {bytes : Bytes} (h : n ≤ bytes.length) :
    ∃ head rest, bytes = head ++ rest ∧ head.length = n :=
  ⟨bytes.take n, bytes.drop n, (List.take_append_drop n bytes).symm, List.length_take_of_le h⟩

theorem exists_parts {data : Bytes} (h : overhead ≤ data.length) :
    ∃ (magic length payload checksum : Bytes) (v : UInt8),
      magic.length = 4 ∧ length.length = 4 ∧ checksum.length = 4 ∧
      data = magic ++ v :: length ++ payload ++ checksum := by
  rw [overhead] at h
  obtain ⟨magic, rest₁, rfl, hm⟩ := exists_split (show 4 ≤ data.length by omega)
  rw [List.length_append] at h
  obtain ⟨v, rest₂, rfl⟩ := List.exists_cons_of_length_pos (show 0 < rest₁.length by omega)
  rw [List.length_cons] at h
  obtain ⟨length, rest₃, rfl, hl⟩ := exists_split (show 4 ≤ rest₂.length by omega)
  rw [List.length_append] at h
  obtain ⟨payload, checksum, rfl, hp⟩ := exists_split (Nat.sub_le rest₃.length 4)
  rw [List.length_append] at h hp
  exact ⟨magic, length, payload, checksum, v, hm, hl, by omega, by simp⟩

theorem wrap_of_unwrap {magic : Magic} {data payload : Bytes} (h : unwrap magic data = .ok payload) :
    wrap magic payload = .ok data := by
  obtain ⟨hlen, hmagic, hversion, hlength, hchecksum, rfl⟩ := unwrap_eq_ok h
  obtain ⟨m, length, payload, checksum, v, hm, hl, hc, hd⟩ := exists_parts hlen
  obtain ⟨hn, ht, hv, hlt, hbody, hct, hp⟩ := parts hm hl hc rfl hd
  rw [ht] at hmagic
  rw [hv] at hversion
  rw [hlt, hn, Nat.add_sub_cancel] at hlength
  rw [hct, hbody] at hchecksum
  rw [hbody, hp]
  have hword : payload.length < 2 ^ 32 := by
    have := fromBigEndian_lt length
    rw [hl, hlength] at this
    exact this
  have hcrc : bigEndian 4 (Crc32.checksum (m ++ v :: length ++ payload)).toNat = checksum := by
    have hlt := fromBigEndian_lt checksum
    rw [hc] at hlt
    rw [← hchecksum, UInt32.toNat_ofNat_of_lt' hlt, ← hc, bigEndian_fromBigEndian]
  have hsize : bigEndian 4 payload.length = length := by
    rw [← hlength, ← hl, bigEndian_fromBigEndian]
  refine bind_eq_ok.mpr ⟨_, lengthWord_eq_ok.mpr ⟨hword, rfl⟩, ?_⟩
  rw [hsize, ← hmagic, ← hversion]
  dsimp only
  rw [hcrc, ← hd]
  rfl

end MachineVault.Frame
