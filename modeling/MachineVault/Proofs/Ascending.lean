import Std.Data.ExtTreeMap.Lemmas

/-! A map is determined by its entries in ascending order. -/

namespace MachineVault

variable {α β : Type} [Ord α]

/-- In ascending order of keys, no key twice. -/
def Ascending (entries : List (α × β)) : Prop :=
  entries.Pairwise fun a b => compare a.1 b.1 = .lt

/-- Entries that are left out or changed under their keys leave the rest in order. -/
theorem Ascending.filterMap {γ : Type} {f : α × β → Option (α × γ)} {entries : List (α × β)}
    (h : Ascending entries) (hf : ∀ e e', f e = some e' → e'.1 = e.1) :
    Ascending (entries.filterMap f) := by
  refine List.Pairwise.filterMap f ?_ h
  intro a b hlt a' ha b' hb
  rw [hf a a' ha, hf b b' hb]
  exact hlt

variable [Std.TransOrd α]

theorem ascending_toList (t : Std.ExtTreeMap α β) : Ascending t.toList :=
  Std.ExtTreeMap.ordered_keys_toList

theorem Ascending.nodup {entries : List (α × β)} (h : Ascending entries) : entries.Nodup := by
  refine List.Pairwise.imp ?_ h
  rintro a b hlt rfl
  exact Std.OrientedCmp.not_lt_of_lt hlt hlt

theorem Ascending.eq_of_mem_iff {l l' : List (α × β)} (h : Ascending l) (h' : Ascending l')
    (hm : ∀ entry, entry ∈ l ↔ entry ∈ l') : l = l' := by
  have hp : l.Perm l' := (List.perm_ext_iff_of_nodup h.nodup h'.nodup).mpr fun entry => hm entry
  refine List.Perm.eq_of_pairwise ?_ h h' hp
  intro a b _ _ hab hba
  exact absurd hba (Std.OrientedCmp.not_lt_of_lt hab)

/-- No key stands twice. -/
theorem Ascending.pairwise_ne {entries : List (α × β)} (h : Ascending entries) :
    entries.Pairwise fun a b => a.1 ≠ b.1 := by
  refine List.Pairwise.imp ?_ h
  intro a b hlt heq
  rw [heq] at hlt
  exact Std.OrientedCmp.not_lt_of_lt hlt hlt

variable [Std.LawfulEqOrd α]

theorem mem_of_mem_toList {t : Std.ExtTreeMap α β} {entry : α × β} (h : entry ∈ t.toList) :
    entry.1 ∈ t := by
  rw [Std.ExtTreeMap.mem_iff_isSome_getElem?,
    Std.ExtTreeMap.mem_toList_iff_getElem?_eq_some.mp h, Option.isSome_some]

/-- The entries of a map are the only ascending list with these members. -/
theorem toList_eq_of_mem_iff {t : Std.ExtTreeMap α β} {entries : List (α × β)}
    (h : Ascending entries) (hm : ∀ k v, (k, v) ∈ entries ↔ t[k]? = some v) : t.toList = entries :=
  (ascending_toList t).eq_of_mem_iff h fun (k, v) => by
    rw [Std.ExtTreeMap.mem_toList_iff_getElem?_eq_some, hm]

/-- A map made of entries under different keys holds exactly these. -/
theorem getElem?_ofList_of_nodup [DecidableEq α] {entries : List (α × β)}
    (h : (entries.map Prod.fst).Nodup) (k : α) (v : β) :
    (Std.ExtTreeMap.ofList entries)[k]? = some v ↔ (k, v) ∈ entries := by
  have hget {k v} (hm : (k, v) ∈ entries) : (Std.ExtTreeMap.ofList entries)[k]? = some v := by
    refine Std.ExtTreeMap.getElem?_ofList_of_mem Std.ReflCmp.compare_self ?_ hm
    refine List.Pairwise.imp (fun hne => ?_) (List.pairwise_map.mp h)
    rwa [Std.LawfulEqCmp.compare_eq_iff_eq]
  refine ⟨fun hs => ?_, hget⟩
  by_cases hk : k ∈ entries.map Prod.fst
  · obtain ⟨⟨k, v'⟩, hm, rfl⟩ := List.mem_map.mp hk
    rw [hget hm, Option.some.injEq] at hs
    exact hs ▸ hm
  · rw [Std.ExtTreeMap.getElem?_ofList_of_contains_eq_false (by simpa using hk)] at hs
    cases hs

theorem getElem?_ofList_of_ascending [DecidableEq α] {entries : List (α × β)}
    (h : Ascending entries) (k : α) (v : β) :
    (Std.ExtTreeMap.ofList entries)[k]? = some v ↔ (k, v) ∈ entries :=
  getElem?_ofList_of_nodup (List.pairwise_map.mpr h.pairwise_ne) k v

theorem toList_ofList [DecidableEq α] {entries : List (α × β)} (h : Ascending entries) :
    (Std.ExtTreeMap.ofList entries).toList = entries :=
  toList_eq_of_mem_iff h fun k v => (getElem?_ofList_of_ascending h k v).symm

theorem getElem?_insert [DecidableEq α] (t : Std.ExtTreeMap α β) (k a : α) (v : β) :
    (t.insert k v)[a]? = if a = k then some v else t[a]? := by
  simp only [Std.ExtTreeMap.getElem?_insert, Std.LawfulEqCmp.compare_eq_iff_eq, eq_comm (a := k)]

theorem getElem?_erase [DecidableEq α] (t : Std.ExtTreeMap α β) (k a : α) :
    (t.erase k)[a]? = if a = k then none else t[a]? := by
  simp only [Std.ExtTreeMap.getElem?_erase, Std.LawfulEqCmp.compare_eq_iff_eq, eq_comm (a := k)]

/-- Inserting the entries of a map one by one makes it again. -/
theorem foldl_insert_toList [DecidableEq α] (t : Std.ExtTreeMap α β) :
    t.toList.foldl (fun t entry => t.insert entry.1 entry.2) ∅ = t := by
  rw [← Std.ExtTreeMap.ofList_eq_foldl]
  refine Std.ExtTreeMap.ext_getElem? fun k => Option.ext fun v => ?_
  rw [getElem?_ofList_of_ascending (ascending_toList t),
    Std.ExtTreeMap.mem_toList_iff_getElem?_eq_some]

theorem mem_of_getElem?_foldl_insert [DecidableEq α] {entries : List (α × β)}
    {t : Std.ExtTreeMap α β} {k : α} {v : β}
    (h : (entries.foldl (fun t entry => t.insert entry.1 entry.2) t)[k]? = some v) :
    (k, v) ∈ entries ∨ t[k]? = some v := by
  induction entries generalizing t with
  | nil => exact .inr h
  | cons entry entries ih =>
    rcases ih h with hm | ht
    · exact .inl (List.mem_cons_of_mem _ hm)
    · rw [getElem?_insert] at ht
      split at ht
      · rename_i hk
        cases ht
        exact .inl (hk ▸ List.mem_cons_self)
      · exact .inr ht

/-- A map has no entries but those that it is made of, under whatever keys these stand. -/
theorem mem_of_mem_toList_ofList [DecidableEq α] {entries : List (α × β)} {entry : α × β}
    (h : entry ∈ (Std.ExtTreeMap.ofList entries).toList) : entry ∈ entries := by
  rw [Std.ExtTreeMap.mem_toList_iff_getElem?_eq_some, Std.ExtTreeMap.ofList_eq_foldl] at h
  rcases mem_of_getElem?_foldl_insert h with hm | hnone
  · exact hm
  · simp at hnone

end MachineVault
