import MachineVault.Backing.Barring
import MachineVault.Backing.Journal
import MachineVault.Backing.Memory
import MachineVault.Backing.Refusing
import MachineVault.Proofs.Ascending

/-! What storage relies on in a backing. Commits happen as a whole or not at all, and a saved table
is the one that is loaded. -/

namespace MachineVault

/-- The bytes that a list of entries leaves under a tag: the last entry counts. -/
def lastBytes? (entries : List (String × Bytes)) (tag : String) : Option Bytes :=
  entries.reverse.lookup tag

theorem lastBytes?_pair {tag tag' : String} {bytes bytes' : Bytes} (h : tag ≠ tag') :
    lastBytes? [(tag, bytes), (tag', bytes')] tag = some bytes ∧
      lastBytes? [(tag, bytes), (tag', bytes')] tag' = some bytes' := by
  have hf : (tag == tag') = false := beq_eq_false_iff_ne.mpr h
  simp [lastBytes?, List.lookup_cons, hf]

theorem lastBytes?_eq_none {entries : List (String × Bytes)} {tag : String}
    (h : tag ∉ entries.map Prod.fst) : lastBytes? entries tag = none := by
  refine List.lookup_eq_none_iff.mpr fun entry he => ?_
  have hentry : entry.1 ∈ entries.map Prod.fst := List.mem_map_of_mem (List.mem_reverse.mp he)
  have hne : tag ≠ entry.1 := fun h' => h (h' ▸ hentry)
  simpa using hne

namespace Backing

/-- Commits are all or nothing, and a table is saved beside the partitions. -/
class Atomic (σ : Type) [Backing σ] : Prop where
  committed : ∀ {b b' : σ} {partition : Partition} {entries : List (String × Bytes)},
    (commit b partition entries).value = (b', .ok ()) → ∀ partition' tag, get b' partition' tag =
      if partition' = partition then
        match lastBytes? entries tag with
        | some bytes => .ok (some bytes)
        | none => get b partition' tag
      else get b partition' tag
  refused : ∀ {b b' : σ} {partition : Partition} {entries : List (String × Bytes)} {e : Error},
    (commit b partition entries).value = (b', .error e) → get b' = get b
  saved : ∀ (b : σ) (table : CacheTable), get (saveTable b table).value.1 = get b

/-- What has been committed is read from then on. -/
class Durable (σ : Type) [Backing σ] : Prop where
  kept : ∀ {b b' : σ} {partition : Partition} {entries : List (String × Bytes)} {tag : String}
    {bytes : Bytes}, (commit b partition entries).value = (b', .ok ()) →
      lastBytes? entries tag = some bytes → get b' partition tag = .ok (some bytes)

instance {σ : Type} [Backing σ] [Atomic σ] : Durable σ where
  kept h ht := by
    rw [Atomic.committed h, if_pos rfl, ht]

/-- A saved table is the one that is loaded. -/
class Recalls (σ : Type) [Backing σ] : Prop where
  recalled : ∀ {b b' : σ} {table : CacheTable},
    (saveTable b table).value = (b', .ok ()) → loadTable b' = .ok (some table)

/-- How a commit ends does not depend on the commits of other partitions before it. -/
class Separate (σ : Type) [Backing σ] : Prop where
  apart : ∀ {b b' : σ} {partition partition' : Partition} {entries : List (String × Bytes)}
    {outcome : Except Error Unit}, (commit b partition entries).value = (b', outcome) →
      partition' ≠ partition → ∀ entries',
        (commit b' partition' entries').value.2 = (commit b partition' entries').value.2

/-- Nothing has ever been written. -/
def Empty {σ : Type} [Backing σ] (b : σ) : Prop :=
  (∀ partition tag, get b partition tag = .ok none) ∧ loadTable b = .ok none

end Backing

open Backing

theorem Sections.getElem?_insertAll (entries : List (String × Bytes)) (sections : Sections)
    (tag : String) :
    (sections.insertAll entries)[tag]? = (lastBytes? entries tag).or sections[tag]? := by
  induction entries generalizing sections with
  | nil => rfl
  | cons entry entries ih =>
    have hs : lastBytes? (entry :: entries) tag =
        (lastBytes? entries tag).or (if tag = entry.1 then some entry.2 else none) := by
      rw [lastBytes?, List.reverse_cons, List.lookup_append, lastBytes?]
      rw [List.lookup_cons, List.lookup_nil]
      by_cases ht : tag = entry.1
      · rw [ht, beq_self_eq_true, if_pos rfl]
      · rw [beq_eq_false_iff_ne.mpr ht, if_neg ht]
    rw [hs, Option.or_assoc, show sections.insertAll (entry :: entries) =
      Sections.insertAll (sections.insert entry.1 entry.2) entries from rfl, ih, getElem?_insert]
    split <;> rfl

instance : Atomic Memory where
  committed {b b' partition entries} h partition' tag := by
    cases h
    change Except.ok (((b.partitions.sections.insert partition _)[partition']?).bind _) = _
    rw [getElem?_insert]
    split
    · rename_i hp
      subst hp
      rw [Option.bind_some, Sections.getElem?_insertAll]
      cases lastBytes? entries tag with
      | some bytes => rfl
      | none =>
        rw [Option.none_or]
        change _ = Except.ok (b.partitions.sections[partition']?.bind _)
        cases b.partitions.sections[partition']? <;> simp
    · rfl
  refused h := nomatch h
  saved b table := rfl

instance : Recalls Memory where
  recalled h := by
    cases h
    rfl

theorem Memory.empty : Empty ({} : Memory) :=
  ⟨fun partition tag => by
    change Except.ok (((∅ : Std.ExtTreeMap Partition Sections)[partition]?).bind _) = _
    rw [Std.ExtTreeMap.getElem?_empty, Option.bind_none], rfl⟩

instance : Separate Memory where
  apart {_ _ _ partition' _ _} _ _ entries' := by
    have hok (m : Memory) : (commit m partition' entries').value.2 = .ok () := rfl
    rw [hok, hok]

namespace Refusing

variable {σ : Type} [Backing σ]

instance [Atomic σ] : Atomic (Refusing σ) where
  committed {b b' partition entries} h := by
    change (b.commit partition entries).value = _ at h
    unfold Refusing.commit at h
    split at h
    · cases h
    · obtain ⟨rfl, ho⟩ := Prod.mk.inj h
      exact Atomic.committed (b := b.inner) (Prod.ext rfl ho)
  refused {b b' partition entries e} h := by
    change (b.commit partition entries).value = _ at h
    unfold Refusing.commit at h
    split at h
    · cases h
      rfl
    · obtain ⟨rfl, ho⟩ := Prod.mk.inj h
      exact Atomic.refused (b := b.inner) (Prod.ext rfl ho)
  saved b table := Atomic.saved b.inner table

/-- A commit is refused by the plan, or is one of the inner backing. -/
theorem commit_cases (b : Refusing σ) (partition : Partition) (entries : List (String × Bytes)) :
    (∃ e, (Backing.commit b partition entries).value = ({ b with plan := b.plan.tail }, .error e)) ∨
    (Backing.commit b partition entries).value =
      (⟨(Backing.commit b.inner partition entries).value.1, b.plan.tail⟩,
        (Backing.commit b.inner partition entries).value.2) := by
  change (∃ e, (b.commit partition entries).value = _) ∨ (b.commit partition entries).value = _
  unfold Refusing.commit
  split
  · rename_i e _
    exact .inl ⟨e, rfl⟩
  · exact .inr rfl

instance [Durable σ] : Durable (Refusing σ) where
  kept {b b' partition entries tag bytes} h ht := by
    rcases b.commit_cases partition entries with ⟨e, hv⟩ | hv
    · cases h.symm.trans hv
    · obtain ⟨rfl, ho⟩ := Prod.mk.inj (h.symm.trans hv)
      exact Durable.kept (b := b.inner) (Prod.ext rfl ho.symm) ht

instance [Recalls σ] : Recalls (Refusing σ) where
  recalled {b b' table} h := by
    obtain ⟨rfl, ho⟩ := Prod.mk.inj h
    exact Recalls.recalled (b := b.inner) (Prod.ext rfl ho)

/-- The errors that are still to come are errors of the plan. -/
theorem plan_of_commit {b b' : Refusing σ} {partition : Partition} {entries : List (String × Bytes)}
    {outcome : Except Error Unit} (h : (Backing.commit b partition entries).value = (b', outcome)) :
    b'.plan = b.plan.tail := by
  change (b.commit partition entries).value = _ at h
  unfold Refusing.commit at h
  split at h
  · cases h
    rfl
  · obtain ⟨rfl, -⟩ := Prod.mk.inj h
    rfl

/-- Over memory only the plan refuses a commit. -/
theorem mem_plan_of_commit {b b' : Refusing Memory} {partition : Partition}
    {entries : List (String × Bytes)} {e : Error}
    (h : (Backing.commit b partition entries).value = (b', .error e)) : some e ∈ b.plan := by
  change (b.commit partition entries).value = _ at h
  unfold Refusing.commit at h
  split at h
  · rename_i e' he
    cases h
    exact List.mem_of_head? (Option.join_eq_some_iff.mp he)
  · cases h

theorem empty {b : σ} (h : Empty b) (plan : List (Option Error)) :
    Empty (⟨b, plan⟩ : Refusing σ) := h

end Refusing

namespace Faulty

variable {σ : Type} [Backing σ]

/-- A commit is refused without effect, or is one of the inner backing. -/
theorem commit_eq_or (b : Faulty σ) (partition : Partition) (entries : List (String × Bytes)) :
    (Backing.commit b partition entries).value.1 = b ∨
      (Backing.commit b partition entries).value.1 =
        { b with inner := (Backing.commit b.inner partition entries).value.1 } := by
  simp only [Backing.commit]
  split
  · exact .inl rfl
  · exact .inr rfl

theorem saveTable_eq_or (b : Faulty σ) (table : CacheTable) :
    (Backing.saveTable b table).value.1 = b ∨ (Backing.saveTable b table).value.1 =
      { b with inner := (Backing.saveTable b.inner table).value.1 } := by
  simp only [Backing.saveTable]
  split
  · exact .inl rfl
  · exact .inr rfl

end Faulty

namespace Barring

variable {σ : Type} [Backing σ]

/-- A commit of a barred partition is refused without effect, any other is one of the inner
backing. -/
theorem value_commit (b : Barring σ) (partition : Partition) (entries : List (String × Bytes)) :
    (Backing.commit b partition entries).value = match b.barred partition with
      | some e => (b, .error e)
      | none => ({ b with inner := (Backing.commit b.inner partition entries).value.1 },
          (Backing.commit b.inner partition entries).value.2) := by
  change (b.commit partition entries).value = _
  unfold Barring.commit
  cases b.barred partition <;> rfl

instance [Atomic σ] : Atomic (Barring σ) where
  committed {b b' partition entries} h := by
    rw [value_commit] at h
    split at h
    · cases h
    · obtain ⟨rfl, ho⟩ := Prod.mk.inj h
      exact Atomic.committed (b := b.inner) (Prod.ext rfl ho)
  refused {b b' partition entries e} h := by
    rw [value_commit] at h
    split at h
    · cases h
      rfl
    · obtain ⟨rfl, ho⟩ := Prod.mk.inj h
      exact Atomic.refused (b := b.inner) (Prod.ext rfl ho)
  saved b table := Atomic.saved b.inner table

instance [Separate σ] : Separate (Barring σ) where
  apart {b b' partition partition' entries outcome} h hne entries' := by
    rw [value_commit] at h
    split at h
    · cases h
      rfl
    · obtain ⟨rfl, ho⟩ := Prod.mk.inj h
      have hinner : (Backing.commit b.inner partition entries).value =
          ((Backing.commit b.inner partition entries).value.1, outcome) := Prod.ext rfl ho
      rw [value_commit, value_commit]
      dsimp only
      split
      · rfl
      · exact Separate.apart hinner hne entries'

end Barring

namespace Journal

variable {σ : Type} [Backing σ]

instance [Durable σ] : Durable (Journal σ) where
  kept {b b' partition entries tag bytes} h ht := by
    obtain ⟨rfl, ho⟩ := Prod.mk.inj h
    exact Durable.kept (b := b.inner) (Prod.ext rfl ho) ht

/-- Every commit is one of the inner backing, and the journal has it last. -/
theorem inner_of_commit {b b' : Journal σ} {partition : Partition}
    {entries : List (String × Bytes)} {outcome : Except Error Unit}
    (h : (Backing.commit b partition entries).value = (b', outcome)) :
    (Backing.commit b.inner partition entries).value = (b'.inner, outcome) ∧
      b'.commits = b.commits ++ [(partition, entries)] := by
  obtain ⟨rfl, ho⟩ := Prod.mk.inj h
  exact ⟨Prod.ext rfl ho, rfl⟩

end Journal

end MachineVault
