import Mathlib.Data.Finset.Card
import Mathlib.Data.Finset.Filter
import Mathlib.Data.Finset.Insert
import MachineVault.Proofs.IdentifierCache

/-! The identifier cache over a history of edits. Its two maps are one set of pairs: each edit takes
the pairs that stand against it out of the set, a placed machine adds its own, and every answer of
the cache is read off the set. -/

namespace MachineVault.IdentifierCache

inductive Edit where
  | put (id : MachineId) (block : Block)
  | remove (block : Block)
  | removeId (id : MachineId)

/-- The cache after an edit and what the edit gives back: of a machine that is placed the block it
leaves, of a forgotten pair its other half. -/
def perform (cache : IdentifierCache) : Edit → IdentifierCache × Option (MachineId ⊕ Block)
  | .put id block => (cache.insert id block, (cache.leaves? id block).map .inr)
  | .remove block => (cache.eraseBlock block, (cache.idAt? block).map .inl)
  | .removeId id => (cache.eraseId id, (cache.locationOf? id).map .inr)

def performAll (cache : IdentifierCache) (edits : List Edit) : IdentifierCache :=
  edits.foldl (fun cache edit => (cache.perform edit).1) cache

namespace Edit

/-- The pairs that an edit takes out. -/
def Takes : Edit → MachineId × Block → Prop
  | put id block, pair => pair.1 = id ∨ pair.2 = block
  | remove block, pair => pair.2 = block
  | removeId id, pair => pair.1 = id

instance (edit : Edit) (pair : MachineId × Block) : Decidable (edit.Takes pair) :=
  match edit with
  | put _ _ => inferInstanceAs (Decidable (_ ∨ _))
  | remove _ => inferInstanceAs (Decidable (_ = _))
  | removeId _ => inferInstanceAs (Decidable (_ = _))

def adds : Edit → Finset (MachineId × Block)
  | put id block => {(id, block)}
  | remove _ => ∅
  | removeId _ => ∅

/-- An edit of the set of pairs. -/
def apply (pairs : Finset (MachineId × Block)) (edit : Edit) : Finset (MachineId × Block) :=
  pairs.filter (¬ edit.Takes ·) ∪ edit.adds

def applyAll (pairs : Finset (MachineId × Block)) (edits : List Edit) :
    Finset (MachineId × Block) :=
  edits.foldl apply pairs

/-- The half of a pair taken out that an edit gives back. Placing a machine names only the machine's
own block, and only if it is another one. -/
def half? : Edit → MachineId × Block → Option (MachineId ⊕ Block)
  | put id block, pair => if pair.1 = id ∧ pair.2 ≠ block then some (.inr pair.2) else none
  | remove _, pair => some (.inl pair.1)
  | removeId _, pair => some (.inr pair.2)

end Edit

/-- Everything the cache answers is read off a set of pairs. -/
structure Shows (cache : IdentifierCache) (pairs : Finset (MachineId × Block)) : Prop where
  locationOf? : ∀ id block, cache.locationOf? id = some block ↔ (id, block) ∈ pairs
  idAt? : ∀ id block, cache.idAt? block = some id ↔ (id, block) ∈ pairs
  size : cache.size = pairs.card
  nodup_blocks : cache.blocks.Nodup
  mem_blocks : ∀ block, block ∈ cache.blocks ↔ ∃ id, (id, block) ∈ pairs
  contains : ∀ block, cache.contains block ↔ ∃ id, (id, block) ∈ pairs

variable {cache : IdentifierCache} {pairs : Finset (MachineId × Block)}

theorem size_eq_card (h : ∀ id block, cache.locationOf? id = some block ↔ (id, block) ∈ pairs) :
    cache.size = pairs.card := by
  have hp : pairs = cache.byId.toList.toFinset := by
    refine Finset.ext fun (id, block) => ?_
    rw [List.mem_toFinset, Std.ExtTreeMap.mem_toList_iff_getElem?_eq_some, ← h]
    rfl
  rw [hp, List.toFinset_card_of_nodup (ascending_toList _).nodup, Std.ExtTreeMap.length_toList]
  rfl

theorem nodup_blocks (cache : IdentifierCache) : cache.blocks.Nodup := by
  refine List.Pairwise.imp (fun hne heq => ?_) (Std.ExtTreeMap.distinct_keys (t := cache.byBlock))
  exact hne (Std.LawfulEqCmp.compare_eq_iff_eq.mpr heq)

theorem contains_iff {block : Block} : cache.contains block ↔ block ∈ cache.blocks :=
  Std.ExtTreeMap.mem_keys.symm

/-- One direction of the cache decides all of its answers. -/
theorem shows_of_locationOf?
    (h : ∀ id block, cache.locationOf? id = some block ↔ (id, block) ∈ pairs) :
    cache.Shows pairs where
  locationOf? := h
  idAt? id block := idAt?_eq_some.trans (h id block)
  size := size_eq_card h
  nodup_blocks := cache.nodup_blocks
  mem_blocks block := mem_blocks.trans (exists_congr fun id => h id block)
  contains block := contains_iff.trans (mem_blocks.trans (exists_congr fun id => h id block))

theorem shows_empty : empty.Shows ∅ :=
  shows_of_locationOf? fun id block => by simp [locationOf?_empty]

theorem Edit.mem_apply {edit : Edit} {pair : MachineId × Block} :
    pair ∈ edit.apply pairs ↔ pair ∈ pairs ∧ ¬ edit.Takes pair ∨ pair ∈ edit.adds := by
  rw [Edit.apply, Finset.mem_union, Finset.mem_filter]

theorem Shows.perform (h : cache.Shows pairs) (edit : Edit) :
    (cache.perform edit).1.Shows (edit.apply pairs) := by
  refine shows_of_locationOf? fun id block => ?_
  rw [Edit.mem_apply, ← h.locationOf?]
  cases edit with
  | put id' block' =>
    refine locationOf?_insert_eq_some.trans ?_
    simp only [Edit.Takes, Edit.adds, Finset.mem_singleton, Prod.mk.injEq, not_or]
    grind
  | remove block' =>
    refine locationOf?_eraseBlock_eq_some.trans ?_
    simp [Edit.Takes, Edit.adds, and_comm]
  | removeId id' =>
    refine locationOf?_eraseId_eq_some.trans ?_
    simp [Edit.Takes, Edit.adds, and_comm]

/-- What an edit gives back is the other half of a pair that it takes out. -/
theorem Shows.perform_reply (h : cache.Shows pairs) (edit : Edit) (half : MachineId ⊕ Block) :
    (cache.perform edit).2 = some half ↔
      ∃ pair ∈ pairs, edit.Takes pair ∧ edit.half? pair = some half := by
  cases edit with
  | put id block =>
    simp only [IdentifierCache.perform, Option.map_eq_some_iff, leaves?_eq_some, h.locationOf?,
      Edit.half?, Edit.Takes]
    constructor
    · rintro ⟨old, ⟨hm, hne⟩, rfl⟩
      exact ⟨(id, old), hm, .inl rfl, if_pos ⟨rfl, hne⟩⟩
    · rintro ⟨⟨id', old⟩, hm, -, hs⟩
      obtain ⟨⟨rfl, hne⟩, rfl⟩ : (id' = id ∧ old ≠ block) ∧ .inr old = half := by
        simpa using hs
      exact ⟨old, ⟨hm, hne⟩, rfl⟩
  | remove block =>
    simp only [IdentifierCache.perform, Option.map_eq_some_iff, h.idAt?, Edit.half?, Edit.Takes]
    constructor
    · rintro ⟨id, hm, rfl⟩
      exact ⟨(id, block), hm, rfl, rfl⟩
    · rintro ⟨⟨id, _⟩, hm, rfl, hs⟩
      exact ⟨id, hm, Option.some.inj hs⟩
  | removeId id =>
    simp only [IdentifierCache.perform, Option.map_eq_some_iff, h.locationOf?, Edit.half?,
      Edit.Takes]
    constructor
    · rintro ⟨block, hm, rfl⟩
      exact ⟨(id, block), hm, rfl, rfl⟩
    · rintro ⟨⟨_, block⟩, hm, rfl, hs⟩
      exact ⟨block, hm, Option.some.inj hs⟩

theorem Shows.performAll (h : cache.Shows pairs) (edits : List Edit) :
    (cache.performAll edits).Shows (Edit.applyAll pairs edits) := by
  induction edits generalizing cache pairs with
  | nil => exact h
  | cons edit edits ih => exact ih (h.perform edit)

/-- After any history of edits the cache is the set of pairs that the same edits leave, and the next
edit gives back the other half of what it takes out of it. -/
theorem edits_act_on_pairs (edits : List Edit) :
    (empty.performAll edits).Shows (Edit.applyAll ∅ edits) ∧
      ∀ edit half, ((empty.performAll edits).perform edit).2 = some half ↔
        ∃ pair ∈ Edit.applyAll ∅ edits, edit.Takes pair ∧ edit.half? pair = some half := by
  have h := shows_empty.performAll edits
  exact ⟨h, fun edit half => h.perform_reply edit half⟩

/-- Takes a key out of a map unless it is the one to keep. -/
def eraseOther {α β : Type} [Ord α] [Std.TransOrd α] [DecidableEq α] (map : Std.ExtTreeMap α β)
    (key? : Option α) (kept : α) : Std.ExtTreeMap α β :=
  match key? with
  | some key => if key = kept then map else map.erase key
  | none => map

theorem getElem?_eraseOther {α β : Type} [Ord α] [Std.TransOrd α] [Std.LawfulEqOrd α]
    [DecidableEq α] (map : Std.ExtTreeMap α β) (key? : Option α) (kept key : α) :
    (eraseOther map key? kept)[key]? =
      if key? = some key ∧ key ≠ kept then none else map[key]? := by
  unfold eraseOther
  split
  · split <;> grind
  · simp

/-- The two maps written in place: a machine that stood on the block is taken out first, then the
block left behind. What is given back is found by looking at that block once more. -/
def putInPlace (byId : Std.ExtTreeMap MachineId Block) (byBlock : Std.ExtTreeMap Block MachineId)
    (id : MachineId) (block : Block) :
    Std.ExtTreeMap MachineId Block × Std.ExtTreeMap Block MachineId × Option Block :=
  let unplaced := eraseOther byId byBlock[block]? id
  let previous := unplaced[id]?
  let byBlock' := (eraseOther byBlock previous block).insert block id
  (unplaced.insert id block, byBlock', previous.filter fun old => byBlock'[old]?.all (· ≠ id))

/-- Writing the maps in place comes to placing the machine on a cache that neither half is in. -/
theorem putInPlace_eq (cache : IdentifierCache) (id : MachineId) (block : Block) :
    putInPlace cache.byId cache.byBlock id block =
      ((cache.insert id block).byId, (cache.insert id block).byBlock, cache.leaves? id block) := by
  have hprevious : (eraseOther cache.byId cache.byBlock[block]? id)[id]? = cache.locationOf? id := by
    rw [getElem?_eraseOther, if_neg fun h => h.2 rfl]
    rfl
  have hid : (eraseOther cache.byId cache.byBlock[block]? id).insert id block =
      (cache.insert id block).byId := by
    refine Std.ExtTreeMap.ext_getElem? fun id' => ?_
    rw [Std.ExtTreeMap.getElem?_insert, getElem?_eraseOther]
    refine Eq.trans ?_ (locationOf?_insert cache id id' block).symm
    simp only [Std.LawfulEqCmp.compare_eq_iff_eq, ← cache.inverse]
    grind [locationOf?]
  have hblock : (eraseOther cache.byBlock (cache.locationOf? id) block).insert block id =
      (cache.insert id block).byBlock := by
    refine Std.ExtTreeMap.ext_getElem? fun block' => ?_
    rw [Std.ExtTreeMap.getElem?_insert, getElem?_eraseOther]
    refine Eq.trans ?_ (idAt?_insert cache id block block').symm
    simp only [Std.LawfulEqCmp.compare_eq_iff_eq, idAt?_eq_some]
    grind [idAt?]
  -- The block looked at again still names the machine only if it is the new one.
  have hleaves : (cache.locationOf? id).filter
      (fun old => ((cache.insert id block).idAt? old).all (· ≠ id)) = cache.leaves? id block := by
    cases hl : cache.locationOf? id with
    | none =>
      rw [leaves?, hl]
      rfl
    | some old =>
      rw [leaves?, hl, Option.filter_some, Option.filter_some, idAt?_insert]
      by_cases hb : old = block
      · simp [hb]
      · simp [hb, idAt?_eq_some.mpr hl]
  unfold putInPlace
  simp only [hprevious, hid, hblock]
  rw [← hleaves]
  rfl

end MachineVault.IdentifierCache
