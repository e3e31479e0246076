import MachineVault.Proofs.Wire

/-! Readers that go strictly from left to right. What such a reader answers depends on the bytes
that it takes and on nothing behind them, cut inside of these it runs out of bytes, and any other
fault it finds again whatever follows. Whatever is put together from such readers is one too, and
the bytes that spell a value are found by taking the reader apart. -/

namespace MachineVault

namespace Reader

variable {α β : Type} {r : Reader α} {f : α → Reader β} {bytes used front : Bytes}

theorem bind_apply (r : Reader α) (f : α → Reader β) (bytes : Bytes) :
    (r >>= f) bytes = r bytes >>= fun p => f p.1 p.2 := rfl

theorem Reads.apply {a : α} (h : r.Reads used a) : r used = .ok (a, []) := by
  simpa using h []

/-- Two values at the front of one buffer are the same value. -/
theorem Reads.unique {used' rest rest' : Bytes} {a a' : α} (h : r.Reads used a)
    (h' : r.Reads used' a') (he : used ++ rest = used' ++ rest') : a = a' ∧ rest = rest' := by
  have ha := h rest
  rw [he, h' rest'] at ha
  simpa [eq_comm] using ha

theorem reads_pure_iff {a a' : α} : (pure a : Reader α).Reads used a' ↔ used = [] ∧ a = a' := by
  constructor
  · intro h
    cases h.apply
    exact ⟨rfl, rfl⟩
  · rintro ⟨rfl, rfl⟩
    exact Reads.pure a

theorem reads_check_iff {c : Prop} [Decidable c] {e : FormatError} {next : PUnit → Reader α}
    {a : α} : Reads (if c then next ⟨⟩ else MonadExcept.throw e >>= next) used a ↔
      c ∧ (next ⟨⟩).Reads used a := by
  split
  · rename_i hc
    simp [hc]
  · rename_i hc
    refine ⟨fun h => ?_, fun h => absurd h.1 hc⟩
    cases h []

theorem reads_take_iff {n : Nat} {field : Field} {taken : Bytes} :
    (take n field).Reads used taken ↔ used.length = n ∧ taken = used := by
  constructor
  · intro h
    have h := h.apply
    unfold take at h
    split at h
    · rename_i hs
      cases h
      obtain ⟨rfl, hl⟩ := splitBytes?_eq_some_iff.mp hs
      simpa using hl
    · cases h
  · rintro ⟨hl, rfl⟩
    exact reads_take hl field

theorem reads_byte_iff {field : Field} {b : UInt8} : (byte field).Reads used b ↔ used = [b] := by
  constructor
  · intro h
    have h := h.apply
    cases used with
    | nil => cases h
    | cons b' used =>
      cases h
      rfl
  · rintro rfl
    exact reads_byte b field

/-- Goes from left to right and looks at no byte that it does not take. -/
structure Sequential (r : Reader α) : Prop where
  taken : ∀ {bytes rest a}, r bytes = .ok (a, rest) → ∃ used, bytes = used ++ rest ∧ r.Reads used a
  cut : ∀ {used front a}, r.Reads used a → front <+: used → front ≠ used →
    ∃ field, r front = .error (.truncated field)
  refused : ∀ {bytes e}, r bytes = .error e → (∃ field, e = .truncated field) ∨
    ((∀ n, e ≠ .trailingBytes n) ∧ ∀ more, r (bytes ++ more) = .error e)

/-- What is cut from two parts one behind the other is cut inside the first or the second. -/
theorem prefix_append_cases {used' : Bytes} (h : front <+: used ++ used')
    (hne : front ≠ used ++ used') : (front <+: used ∧ front ≠ used) ∨
      ∃ back, front = used ++ back ∧ back <+: used' ∧ back ≠ used' := by
  by_cases hu : used <+: front
  · obtain ⟨back, rfl⟩ := hu
    refine .inr ⟨back, rfl, (List.prefix_append_right_inj used).mp h, ?_⟩
    rintro rfl
    exact hne rfl
  · rcases List.prefix_or_prefix_of_prefix h (List.prefix_append used used') with hf | hf
    · refine .inl ⟨hf, ?_⟩
      rintro rfl
      exact hu (List.prefix_refl front)
    · exact absurd hf hu

namespace Sequential

theorem pure (a : α) : Sequential (pure a : Reader α) where
  taken h := by
    cases h
    exact ⟨[], rfl, Reads.pure a⟩
  cut h hp hne := by
    rw [(reads_pure_iff.mp h).1] at hp hne
    exact absurd (List.prefix_nil.mp hp) hne
  refused h := by cases h

theorem throw {e : FormatError} (h : ∀ n, e ≠ .trailingBytes n) :
    Sequential (throw e : Reader α) where
  taken h := by cases h
  cut h := by cases h []
  refused he := by
    cases he
    exact .inr ⟨h, fun _ => rfl⟩

/-- What has been read already decides whether reading goes on. -/
theorem check {c : Prop} [Decidable c] {e : FormatError} {next : PUnit → Reader α}
    (h : ∀ n, e ≠ .trailingBytes n) (hn : Sequential (next ⟨⟩)) :
    Sequential (if c then next ⟨⟩ else MonadExcept.throw e >>= next) := by
  split
  · exact hn
  · exact .throw h

theorem take (n : Nat) (field : Field) : Sequential (take n field) where
  taken {bytes rest a} h := by
    unfold Reader.take at h
    split at h
    · rename_i hs
      cases h
      obtain ⟨rfl, hl⟩ := splitBytes?_eq_some_iff.mp hs
      exact ⟨a, rfl, reads_take hl field⟩
    · cases h
  cut {used front a} h hp hne := by
    have hlt : front.length < n := by
      have hle := hp.length_le
      have hne := mt hp.eq_of_length hne
      have hl := (reads_take_iff.mp h).1
      omega
    unfold Reader.take
    split
    · rename_i hs
      obtain ⟨rfl, hl⟩ := splitBytes?_eq_some_iff.mp hs
      rw [List.length_append] at hlt
      omega
    · exact ⟨field, rfl⟩
  refused {bytes e} h := by
    unfold Reader.take at h
    split at h
    · cases h
    · cases h
      exact .inl ⟨field, rfl⟩

theorem byte (field : Field) : Sequential (byte field) where
  taken {bytes rest b} h := by
    cases bytes with
    | nil => cases h
    | cons b' bytes =>
      cases h
      exact ⟨[b], rfl, reads_byte b field⟩
  cut {used front b} h hp hne := by
    rw [reads_byte_iff.mp h] at hp hne
    rcases List.prefix_cons_iff.mp hp with rfl | ⟨back, rfl, hb⟩
    · exact ⟨field, rfl⟩
    · rw [List.prefix_nil.mp hb] at hne
      exact absurd rfl hne
  refused {bytes e} h := by
    cases bytes with
    | nil =>
      cases h
      exact .inl ⟨field, rfl⟩
    | cons b bytes => cases h

theorem bind (hr : Sequential r) (hf : ∀ a, Sequential (f a)) : Sequential (r >>= f) where
  taken {bytes rest b} h := by
    rw [bind_apply, bind_eq_ok] at h
    obtain ⟨⟨a, mid⟩, ha, hb⟩ := h
    obtain ⟨used, rfl, hused⟩ := hr.taken ha
    obtain ⟨used', rfl, hused'⟩ := (hf a).taken hb
    exact ⟨used ++ used', (List.append_assoc ..).symm, hused.bind hused'⟩
  cut {used front b} h hp hne := by
    have h := h.apply
    rw [bind_apply, bind_eq_ok] at h
    obtain ⟨⟨a, mid⟩, ha, hb⟩ := h
    obtain ⟨first, rfl, hfirst⟩ := hr.taken ha
    obtain ⟨second, hmid, hsecond⟩ := (hf a).taken hb
    rw [List.append_nil] at hmid
    subst hmid
    rcases prefix_append_cases hp hne with ⟨hp, hne⟩ | ⟨back, rfl, hp, hne⟩
    · obtain ⟨field, he⟩ := hr.cut hfirst hp hne
      exact ⟨field, bind_eq_error.mpr (.inl he)⟩
    · obtain ⟨field, he⟩ := (hf a).cut hsecond hp hne
      exact ⟨field, bind_eq_error.mpr (.inr ⟨(a, back), hfirst back, he⟩)⟩
  refused {bytes e} h := by
    rw [bind_apply, bind_eq_error] at h
    rcases h with he | ⟨⟨a, mid⟩, ha, he⟩
    · rcases hr.refused he with ht | ⟨hn, hmore⟩
      · exact .inl ht
      · exact .inr ⟨hn, fun more => bind_eq_error.mpr (.inl (hmore more))⟩
    · obtain ⟨used, rfl, hused⟩ := hr.taken ha
      rcases (hf a).refused he with ht | ⟨hn, hmore⟩
      · exact .inl ht
      · refine .inr ⟨hn, fun more => bind_eq_error.mpr (.inr ⟨(a, mid ++ more), ?_, hmore more⟩)⟩
        rw [List.append_assoc]
        exact hused (mid ++ more)

theorem word (field : Field) : Sequential (word field) :=
  (take 4 field).bind fun _ => .pure _

theorem signedWord (field : Field) : Sequential (signedWord field) :=
  (word field).bind fun _ => .pure _

theorem counted (lengthField field : Field) : Sequential (counted lengthField field) :=
  (word lengthField).bind fun n => take n field

theorem text (field : Field) : Sequential (text field) := by
  refine (counted field field).bind fun bytes => ?_
  cases Text.decode? bytes with
  | some s => exact .pure s
  | none => exact .throw nofun

theorem replicate (hr : Sequential r) (n : Nat) : Sequential (replicate r n) := by
  induction n with
  | zero => exact .pure []
  | succ n ih => exact hr.bind fun _ => ih.bind fun _ => .pure _

/-- The bytes of two values are those of the first and behind them those of the second. -/
theorem reads_bind_iff (hr : Sequential r) {b : β} : (r >>= f).Reads used b ↔
    ∃ a first second, used = first ++ second ∧ r.Reads first a ∧ (f a).Reads second b := by
  constructor
  · intro h
    obtain ⟨⟨a, second⟩, ha, hb⟩ := bind_eq_ok.mp h.apply
    obtain ⟨first, rfl, hfirst⟩ := hr.taken ha
    refine ⟨a, first, second, rfl, hfirst, fun rest => ?_⟩
    have hall := h rest
    rw [bind_apply, List.append_assoc, hfirst] at hall
    exact hall
  · rintro ⟨a, first, second, rfl, hfirst, hsecond⟩
    exact hfirst.bind hsecond

/-- A whole buffer is accepted exactly if it is the bytes of a value. -/
theorem run_eq_ok_iff (hr : Sequential r) {a : α} : r.run bytes = .ok a ↔ r.Reads bytes a := by
  constructor
  · intro h
    obtain ⟨⟨a', rest⟩, ha, hend⟩ := bind_eq_ok.mp h
    obtain ⟨used, hsplit, hused⟩ := hr.taken ha
    rw [hsplit]
    cases rest with
    | nil =>
      rw [List.append_nil]
      cases hend
      exact hused
    | cons b rest => cases hend
  · exact Reads.run

end Sequential

theorem reads_map_iff {g : α → β} (hr : Sequential r) {b : β} :
    (do return g (← r) : Reader β).Reads used b ↔ ∃ a, r.Reads used a ∧ g a = b := by
  rw [hr.reads_bind_iff]
  constructor
  · rintro ⟨a, first, second, rfl, ha, hb⟩
    obtain ⟨rfl, rfl⟩ := reads_pure_iff.mp hb
    exact ⟨a, by simpa using ha, rfl⟩
  · rintro ⟨a, ha, rfl⟩
    exact ⟨a, used, [], by simp, ha, Reads.pure _⟩

theorem reads_word_iff {field : Field} {n : Nat} :
    (word field).Reads used n ↔ n < 2 ^ 32 ∧ used = bigEndian 4 n := by
  constructor
  · intro h
    obtain ⟨taken, ht, rfl⟩ := (reads_map_iff (.take 4 field)).mp h
    obtain ⟨hl, rfl⟩ := reads_take_iff.mp ht
    have hlt := fromBigEndian_lt taken
    have hb := bigEndian_fromBigEndian taken
    rw [hl] at hlt hb
    exact ⟨hlt, hb.symm⟩
  · rintro ⟨hn, rfl⟩
    exact reads_word hn field

theorem reads_signedWord_iff {field : Field} {n : Int32} :
    (signedWord field).Reads used n ↔ used = signedWordBytes n := by
  constructor
  · intro h
    obtain ⟨m, hm, rfl⟩ := (reads_map_iff (.word field)).mp h
    obtain ⟨hlt, rfl⟩ := reads_word_iff.mp hm
    rw [signedWordBytes, UInt32.toUInt32_toInt32, UInt32.toNat_ofNat_of_lt' hlt]
  · rintro rfl
    exact reads_signedWord n field

theorem reads_counted_iff {lengthField field : Field} {a : Bytes} :
    (counted lengthField field).Reads used a ↔
      a.length < 2 ^ 32 ∧ used = bigEndian 4 a.length ++ a := by
  constructor
  · intro h
    obtain ⟨n, first, second, rfl, hn, ha⟩ :=
      (Sequential.word lengthField).reads_bind_iff.mp h
    obtain ⟨hlt, rfl⟩ := reads_word_iff.mp hn
    obtain ⟨rfl, rfl⟩ := reads_take_iff.mp ha
    exact ⟨hlt, rfl⟩
  · rintro ⟨hl, rfl⟩
    exact (reads_word hl lengthField).bind (reads_take rfl field)

/-- A list that is read item by item is read from what is written for the items. -/
theorem written_of_reads_replicate (hr : Sequential r)
    {write : α → Except FormatError Bytes} (hw : ∀ {used a}, r.Reads used a → write a = .ok used)
    {n : Nat} {as : List α} (h : (replicate r n).Reads used as) :
    as.length = n ∧ ∃ parts, as.mapM write = .ok parts ∧ used = parts.flatten := by
  induction n generalizing used as with
  | zero =>
    obtain ⟨rfl, rfl⟩ := reads_pure_iff.mp h
    exact ⟨rfl, [], rfl, rfl⟩
  | succ n ih =>
    obtain ⟨a, first, second, rfl, ha, h⟩ := hr.reads_bind_iff.mp h
    obtain ⟨as', has, rfl⟩ := (reads_map_iff (hr.replicate n)).mp h
    obtain ⟨rfl, parts, hp, rfl⟩ := ih has
    refine ⟨rfl, first :: parts, ?_, rfl⟩
    rw [List.mapM_cons, hw ha, hp]
    rfl

theorem reads_text_iff {field : Field} {s : String} :
    (text field).Reads used s ↔ (Text.encode s).length < 2 ^ 32 ∧
      used = bigEndian 4 (Text.encode s).length ++ Text.encode s := by
  constructor
  · intro h
    obtain ⟨bytes, first, second, rfl, hc, hs⟩ :=
      (Sequential.counted field field).reads_bind_iff.mp h
    obtain ⟨hl, rfl⟩ := reads_counted_iff.mp hc
    split at hs
    · rename_i hd
      obtain ⟨rfl, rfl⟩ := reads_pure_iff.mp hs
      rw [Text.encode_of_decode? hd, List.append_nil]
      exact ⟨hl, rfl⟩
    · cases hs.apply
  · rintro ⟨hl, rfl⟩
    have hw : countedBytes (Text.encode s) field = .ok _ := countedBytes_eq_ok.mpr ⟨hl, rfl⟩
    exact reads_text hw field

end Reader

end MachineVault
