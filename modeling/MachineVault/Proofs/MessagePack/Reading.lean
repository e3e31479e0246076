import MachineVault.MessagePack.Fields
import MachineVault.Proofs.MessagePack.Value

/-! Whatever is read, in the shortest form or in another, could have been written: its lengths fit
and it is nested no deeper than the limit. The fields of a structure are one level below it. -/

namespace MachineVault.MessagePack

namespace Head

theorem fits_of_readNumber {width : Nat} {f : Nat → Head} {bytes rest : Bytes} {head : Head}
    (h : readNumber width f bytes = some (head, rest)) (hf : ∀ n < 256 ^ width, (f n).Fits) :
    head.Fits := by
  unfold readNumber at h
  split at h
  · rename_i number after hs
    obtain ⟨-, hn⟩ := splitBytes?_eq_some_iff.mp hs
    cases h
    exact hf _ (hn ▸ fromBigEndian_lt number)
  · cases h

theorem pow_le_word {width : Nat} (h : width ≤ 4) : 256 ^ width ≤ 2 ^ 32 :=
  Nat.pow_le_pow_right (n := 256) (by decide) h

theorem fits_of_readLength {width : Nat} {f : Nat → Head} {bytes rest : Bytes} {head : Head}
    (h : readNumber width f bytes = some (head, rest)) (hw : width ≤ 4)
    (hf : ∀ n < 2 ^ 32, (f n).Fits) : head.Fits :=
  fits_of_readNumber h fun n hn => hf n (Nat.lt_of_lt_of_le hn (pow_le_word hw))

theorem fits_of_readKind {n : Nat} {bytes rest : Bytes} {head : Head}
    (h : readKind n bytes = some (head, rest)) (hn : n < 2 ^ 32) : head.Fits := by
  cases bytes with
  | nil => cases h
  | cons kind bytes =>
    cases h
    exact hn

theorem fits_of_readExt {width : Nat} {bytes rest : Bytes} {head : Head}
    (h : readExt width bytes = some (head, rest)) (hw : width ≤ 4) : head.Fits := by
  unfold readExt at h
  split at h
  · rename_i number after hs
    obtain ⟨-, rfl⟩ := splitBytes?_eq_some_iff.mp hs
    exact fits_of_readKind h (Nat.lt_of_lt_of_le (fromBigEndian_lt number) (pow_le_word hw))
  · cases h

theorem fits_of_readMarker {marker : Nat} {bytes rest : Bytes} {head : Head}
    (h : readMarker marker bytes = some (head, rest)) : head.Fits := by
  unfold readMarker at h
  split at h
  · cases h
    trivial
  split at h
  · cases h
    simp only [Fits]
    omega
  split at h
  · cases h
    simp only [Fits]
    omega
  split at h
  · cases h
    simp only [Fits]
    omega
  split at h
  · cases h
    trivial
  -- One case for each marker of its own: a scalar, a number, a length, or nothing.
  split at h
  all_goals first
    | (cases h; trivial)
    | exact fits_of_readNumber h fun _ _ => trivial
    | exact fits_of_readLength h (by decide) fun _ hn => hn
    | exact fits_of_readExt h (by decide)
    | exact fits_of_readKind h (by decide)
    | cases h

theorem fits_of_read {bytes rest : Bytes} {head : Head} (h : read bytes = some (head, rest)) :
    head.Fits := by
  cases bytes with
  | nil => cases h
  | cons marker bytes => exact fits_of_readMarker h

end Head

namespace Value

theorem fitsItems_iff {items : List Value} : FitsItems items ↔ ∀ v ∈ items, v.Fits := by
  induction items with
  | nil => simp [FitsItems]
  | cons v rest ih => simp [FitsItems, ih]

theorem fitsFields_iff {fields : List (Value × Value)} :
    FitsFields fields ↔ ∀ f ∈ fields, f.1.Fits ∧ f.2.Fits := by
  induction fields with
  | nil => simp [FitsFields]
  | cons f rest ih => simp [FitsFields, ih, and_assoc]

theorem depthItems_le_iff {items : List Value} {limit : Nat} :
    depthItems items ≤ limit ↔ ∀ v ∈ items, v.depth ≤ limit := by
  induction items with
  | nil => simp [depthItems]
  | cons v rest ih => rw [depthItems, Nat.max_le, ih, List.forall_mem_cons]

theorem depthFields_le_iff {fields : List (Value × Value)} {limit : Nat} :
    depthFields fields ≤ limit ↔ ∀ f ∈ fields, f.1.depth ≤ limit ∧ f.2.depth ≤ limit := by
  induction fields with
  | nil => simp [depthFields]
  | cons f rest ih => rw [depthFields, Nat.max_le, Nat.max_le, ih, List.forall_mem_cons]

/-- The value can be written, and read back within the limit. -/
structure Readable (limit : Nat) (v : Value) : Prop where
  fits : v.Fits
  depth_le : v.depth ≤ limit

theorem readable_array_iff {items : List Value} {limit : Nat} :
    (array items).Readable limit ↔
      ∃ inner, limit = inner + 1 ∧ items.length < 2 ^ 32 ∧ ∀ v ∈ items, v.Readable inner := by
  constructor
  · rintro ⟨⟨hn, hfits⟩, hd⟩
    rw [depth] at hd
    obtain ⟨inner, rfl⟩ := Nat.exists_eq_add_of_lt (Nat.lt_of_lt_of_le (Nat.succ_pos _) hd)
    rw [Nat.zero_add, Nat.add_le_add_iff_right, depthItems_le_iff] at hd
    exact ⟨inner, by omega, hn, fun v hv => ⟨fitsItems_iff.mp hfits v hv, hd v hv⟩⟩
  · rintro ⟨inner, rfl, hn, h⟩
    refine ⟨⟨hn, fitsItems_iff.mpr fun v hv => (h v hv).fits⟩, ?_⟩
    exact Nat.succ_le_succ (depthItems_le_iff.mpr fun v hv => (h v hv).depth_le)

theorem readable_map_iff {fields : List (Value × Value)} {limit : Nat} :
    (map fields).Readable limit ↔ ∃ inner, limit = inner + 1 ∧ fields.length < 2 ^ 32 ∧
      ∀ f ∈ fields, f.1.Readable inner ∧ f.2.Readable inner := by
  constructor
  · rintro ⟨⟨hn, hfits⟩, hd⟩
    rw [depth] at hd
    obtain ⟨inner, rfl⟩ := Nat.exists_eq_add_of_lt (Nat.lt_of_lt_of_le (Nat.succ_pos _) hd)
    rw [Nat.zero_add, Nat.add_le_add_iff_right, depthFields_le_iff] at hd
    rw [fitsFields_iff] at hfits
    exact ⟨inner, by omega, hn, fun f hf =>
      ⟨⟨(hfits f hf).1, (hd f hf).1⟩, ⟨(hfits f hf).2, (hd f hf).2⟩⟩⟩
  · rintro ⟨inner, rfl, hn, h⟩
    refine ⟨⟨hn, fitsFields_iff.mpr fun f hf => ⟨(h f hf).1.fits, (h f hf).2.fits⟩⟩, ?_⟩
    exact Nat.succ_le_succ
      (depthFields_le_iff.mpr fun f hf => ⟨(h f hf).1.depth_le, (h f hf).2.depth_le⟩)

theorem readable_scalar (s : Scalar) (limit : Nat) : (scalar s).Readable limit :=
  ⟨trivial, Nat.zero_le _⟩

theorem readable_ofText {limit : Nat} {s : String} (h : (Text.encode s).length < 2 ^ 32) :
    (ofText s).Readable limit :=
  ⟨h, Nat.zero_le _⟩

theorem readMany_forall {α : Type} {P : α → Prop} {item : Bytes → Option (α × Bytes)}
    (hitem : ∀ bytes a rest, item bytes = some (a, rest) → P a) {n : Nat} {done items : List α}
    {bytes rest : Bytes} (hdone : ∀ a ∈ done, P a)
    (h : readMany item n done bytes = some (items, rest)) :
    items.length = done.length + n ∧ ∀ a ∈ items, P a := by
  induction n generalizing done bytes with
  | zero =>
    cases h
    simpa using hdone
  | succ n ih =>
    unfold readMany at h
    split at h
    · rename_i a after hi
      obtain ⟨hl, hp⟩ := ih (List.forall_mem_cons.mpr ⟨hitem _ _ _ hi, hdone⟩) h
      rw [List.length_cons] at hl
      exact ⟨by omega, hp⟩
    · cases h

theorem map_eq_some {α β : Type} {f : α → β} {x : Option (α × Bytes)} {b : β} {rest : Bytes}
    (h : x.map (Prod.map f id) = some (b, rest)) : ∃ a, x = some (a, rest) ∧ b = f a := by
  obtain ⟨⟨a, after⟩, hx, ha⟩ := Option.map_eq_some_iff.mp h
  cases ha
  exact ⟨a, hx, rfl⟩

theorem length_of_map_splitBytes? {f : Bytes → Value} {n : Nat} {bytes rest : Bytes} {v : Value}
    (h : (splitBytes? n bytes).map (Prod.map f id) = some (v, rest)) :
    ∃ contents, contents.length = n ∧ v = f contents := by
  obtain ⟨contents, hs, rfl⟩ := map_eq_some h
  exact ⟨contents, (splitBytes?_eq_some_iff.mp hs).2, rfl⟩

theorem readable_of_readPair {limit : Nat}
    (hread : ∀ bytes v rest, read limit bytes = some (v, rest) → v.Readable limit)
    (bytes : Bytes) (field : Value × Value) (rest : Bytes)
    (h : readPair (read limit) bytes = some (field, rest)) :
    field.1.Readable limit ∧ field.2.Readable limit := by
  obtain ⟨⟨k, after⟩, hk, h⟩ := Option.bind_eq_some_iff.mp h
  obtain ⟨⟨v, after'⟩, hv, h⟩ := Option.bind_eq_some_iff.mp h
  cases h
  exact ⟨hread _ _ _ hk, hread _ _ _ hv⟩

/-- The step of the induction on the limit: what is inside is read with one level less. -/
theorem readable_of_read_of_inner {limit : Nat} {bytes rest : Bytes} {v : Value}
    (hinner : ∀ inner, limit = inner + 1 →
      ∀ bytes v rest, read inner bytes = some (v, rest) → v.Readable inner)
    (h : read limit bytes = some (v, rest)) : v.Readable limit := by
  rw [read.eq_def] at h
  cases hh : Head.read bytes with
  | none =>
    rw [hh] at h
    cases h
  | some parts =>
    obtain ⟨head, after⟩ := parts
    have hfits := Head.fits_of_read hh
    rw [hh] at h
    cases head with
    | scalar s =>
      cases h
      exact readable_scalar s limit
    | str n | bin n =>
      obtain ⟨contents, rfl, rfl⟩ := length_of_map_splitBytes? h
      exact ⟨hfits, Nat.zero_le _⟩
    | ext kind n =>
      cases limit with
      | zero => cases h
      | succ inner =>
        obtain ⟨contents, rfl, rfl⟩ := length_of_map_splitBytes? h
        exact ⟨hfits, Nat.succ_le_succ (Nat.zero_le _)⟩
    | array n =>
      cases limit with
      | zero => cases h
      | succ inner =>
        obtain ⟨items, hm, rfl⟩ := map_eq_some h
        obtain ⟨hn, hall⟩ := readMany_forall (hinner inner rfl) (by simp) hm
        rw [List.length_nil, Nat.zero_add] at hn
        exact readable_array_iff.mpr ⟨inner, rfl, hn ▸ hfits, hall⟩
    | map n =>
      cases limit with
      | zero => cases h
      | succ inner =>
        obtain ⟨fields, hm, rfl⟩ := map_eq_some h
        obtain ⟨hn, hall⟩ := readMany_forall (readable_of_readPair (hinner inner rfl)) (by simp) hm
        rw [List.length_nil, Nat.zero_add] at hn
        exact readable_map_iff.mpr ⟨inner, rfl, hn ▸ hfits, hall⟩

theorem readable_of_read {limit : Nat} {bytes rest : Bytes} {v : Value}
    (h : read limit bytes = some (v, rest)) : v.Readable limit := by
  induction limit generalizing bytes rest v with
  | zero => exact readable_of_read_of_inner (fun inner hinner => by cases hinner) h
  | succ limit ih =>
    refine readable_of_read_of_inner ?_ h
    rintro inner hinner bytes v rest hv
    cases hinner
    exact ih hv

theorem fits_ofFields {fields : List (String × Value)} (hn : fields.length < 2 ^ 32)
    (h : ∀ f ∈ fields, (Text.encode f.1).length < 2 ^ 32 ∧ f.2.Fits) : (ofFields fields).Fits := by
  refine ⟨by simpa using hn, fitsFields_iff.mpr ?_⟩
  exact List.forall_mem_map.mpr h

/-! Structures: the value of a field is a value inside the structure. -/

theorem mem_of_place {names : List String} {slots filled : List (Option Value)}
    {field : Value × Value} {v : Value} (h : place names slots field = some filled)
    (hv : some v ∈ filled) : some v ∈ slots ∨ v = field.2 := by
  obtain ⟨i, -, h⟩ := Option.bind_eq_some_iff.mp h
  split at h
  · cases h
    exact .inl hv
  · cases h
    rcases List.mem_or_eq_of_mem_set hv with hv | hv
    · exact .inl hv
    · exact .inr (Option.some.inj hv)
  · cases h

theorem mem_of_foldlM_place {names : List String} {fields : List (Value × Value)}
    {slots filled : List (Option Value)} {v : Value}
    (h : fields.foldlM (place names) slots = some filled) (hv : some v ∈ filled) :
    some v ∈ slots ∨ ∃ f ∈ fields, v = f.2 := by
  induction fields generalizing slots with
  | nil =>
    cases h
    exact .inl hv
  | cons field fields ih =>
    obtain ⟨next, hp, h⟩ := Option.bind_eq_some_iff.mp h
    rcases ih h with hn | ⟨f, hf, rfl⟩
    · rcases mem_of_place hp hn with hs | rfl
      · exact .inl hs
      · exact .inr ⟨field, List.mem_cons_self, rfl⟩
    · exact .inr ⟨f, List.mem_cons_of_mem _ hf, rfl⟩

theorem mem_of_mapM_id {α : Type} {slots : List (Option α)} {as : List α} {a : α}
    (h : slots.mapM id = some as) (ha : a ∈ as) : some a ∈ slots := by
  induction slots generalizing as with
  | nil =>
    cases h
    cases ha
  | cons slot slots ih =>
    simp only [List.mapM_cons, id, Option.bind_eq_bind, Option.bind_eq_some_iff, Option.pure_def,
      Option.some.injEq] at h
    obtain ⟨b, rfl, bs, hbs, rfl⟩ := h
    rcases List.mem_cons.mp ha with rfl | ha
    · exact List.mem_cons_self
    · exact List.mem_cons_of_mem _ (ih hbs ha)

/-- A structure takes a level of its own. -/
theorem Readable.of_fields? {limit : Nat} {v : Value} {names : List String} {parts : List Value}
    (h : v.Readable limit) (hf : v.fields? names = some parts) :
    ∃ inner, limit = inner + 1 ∧ ∀ w ∈ parts, w.Readable inner := by
  cases v with
  | scalar s | str bytes | bin bytes | ext kind bytes => cases hf
  | array items =>
    obtain ⟨inner, rfl, -, hall⟩ := readable_array_iff.mp h
    obtain ⟨-, hf⟩ := Option.ite_none_right_eq_some.mp hf
    cases hf
    exact ⟨inner, rfl, hall⟩
  | map fields =>
    obtain ⟨inner, rfl, -, hall⟩ := readable_map_iff.mp h
    obtain ⟨filled, hp, hm⟩ := Option.bind_eq_some_iff.mp hf
    refine ⟨inner, rfl, fun w hw => ?_⟩
    rcases mem_of_foldlM_place hp (mem_of_mapM_id hm hw) with hn | ⟨f, hf, rfl⟩
    · obtain ⟨_, _, hnone⟩ := List.mem_map.mp hn
      cases hnone
    · exact (hall f hf).2

theorem Readable.length_text {limit : Nat} {v : Value} {s : String} (h : v.Readable limit)
    (hs : v.text? = some s) : (Text.encode s).length < 2 ^ 32 := by
  cases v with
  | scalar _ | ext kind bytes | array items | map fields => cases hs
  | str bytes | bin bytes =>
    rw [Text.encode_of_decode? hs]
    exact h.fits

end Value

end MachineVault.MessagePack
