import MachineVault.Bytes

/-! Text as UTF-8 bytes. Reading accepts exactly what writing produces. -/

namespace MachineVault.Text

def encode (s : String) : Bytes := s.toUTF8.data.toList

/-- Refuses bytes that are not UTF-8. -/
def decode? (bytes : Bytes) : Option String := String.fromUTF8? ⟨bytes.toArray⟩

@[simp] theorem decode?_encode (s : String) : decode? (encode s) = some s := by
  simp [decode?, encode, String.fromUTF8?, String.fromUTF8, s.isValidUTF8]

theorem encode_of_decode? {bytes : Bytes} {s : String} (h : decode? bytes = some s) :
    encode s = bytes := by
  simp only [decode?, String.fromUTF8?] at h
  split at h
  · injection h with h
    subst h
    rfl
  · cases h

theorem encode_inj {s t : String} : encode s = encode t ↔ s = t :=
  ⟨fun h => Option.some.inj (decode?_encode s ▸ h ▸ decode?_encode t), fun h => h ▸ rfl⟩

end MachineVault.Text
