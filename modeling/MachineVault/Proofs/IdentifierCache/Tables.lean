import Mathlib.Data.List.Forall2
import Mathlib.Data.List.Induction
import MachineVault.Proofs.IdentifierCache
import MachineVault.Proofs.Medium

/-! Tables of the identifier cache. Of conflicting entries the last one is kept, every pair that is
given up on the way is warned of once, and a cache that is saved is loaded again without a warning. -/

namespace MachineVault

/-- The warning about a pair that an entry pushes out. -/
def CacheEntry.warning (e : CacheEntry) (pair : MachineId × Block) : Event :=
  if pair.2 = e.location then .tableSharesBlock e.location e.id pair.1
  else .tableRepeatsId e.id e.location pair.2

theorem CacheEntry.level_warning (e : CacheEntry) (pair : MachineId × Block) :
    (e.warning pair).line.level = .warn := by
  unfold warning
  split <;> rfl

namespace IdentifierCache

variable {cache : IdentifierCache} {id : MachineId} {block : Block} {e : CacheEntry}
  {table : CacheTable}

/-- The pairs that an entry pushes out: that of the machine on its block, then that of the machine
itself on another block. -/
def pushedOut (cache : IdentifierCache) (e : CacheEntry) : List (MachineId × Block) :=
  (cache.pushesOff? e).toList.map (·, e.location) ++
    (cache.leaves? e.id e.location).toList.map (e.id, ·)

theorem pushesOff?_eq_some {id : MachineId} : cache.pushesOff? e = some id ↔
    cache.locationOf? id = some e.location ∧ id ≠ e.id := by
  simp [pushesOff?, Option.filter_eq_some_iff, idAt?_eq_some]

theorem mem_pushedOut : (id, block) ∈ cache.pushedOut e ↔ cache.locationOf? id = some block ∧
    (cache.insert e.id e.location).locationOf? id ≠ some block := by
  have hl : (id, block) ∈ cache.pushedOut e ↔
      (cache.locationOf? id = some block ∧ id ≠ e.id ∧ block = e.location) ∨
        cache.locationOf? id = some block ∧ id = e.id ∧ block ≠ e.location := by
    simp only [pushedOut, List.mem_append, List.mem_map, Option.mem_toList, pushesOff?_eq_some,
      leaves?_eq_some, Prod.mk.injEq]
    grind
  rw [hl, ne_eq (_ : Option Block), locationOf?_insert_eq_some]
  grind

theorem nodup_pushedOut (cache : IdentifierCache) (e : CacheEntry) : (cache.pushedOut e).Nodup := by
  have hnodup {α β : Type} (o : Option α) (f : α → β) : (o.toList.map f).Nodup := by
    cases o <;> simp
  refine List.nodup_append.mpr ⟨hnodup _ _, hnodup _ _, fun pair hp pair' hp' heq => ?_⟩
  obtain ⟨id, -, rfl⟩ := List.mem_map.mp hp
  obtain ⟨block, hl, rfl⟩ := List.mem_map.mp hp'
  exact (leaves?_eq_some.mp (Option.mem_toList.mp hl)).2 (Prod.mk.inj heq).2.symm

theorem log_insertEntry (cache : IdentifierCache) (e : CacheEntry) :
    (cache.insertEntry e).log = (cache.pushedOut e).map e.warning := by
  unfold insertEntry pushedOut
  cases hl : cache.leaves? e.id e.location with
  | none => cases cache.pushesOff? e <;> simp [CacheEntry.warning]
  | some block =>
    have hne : block ≠ e.location := (leaves?_eq_some.mp hl).2
    cases cache.pushesOff? e <;> simp [CacheEntry.warning, hne]

/-- What has been read of a table up to an entry. -/
def readTo (table : CacheTable) (n : Nat) : IdentifierCache :=
  (ofTable ⟨table.entries.take n⟩).value

/-- The pairs that the entries of a table push out, each with the place of the entry, and the
warnings of reading the table: one about each of them. -/
structure Warns (table : CacheTable) (discards : List (Nat × MachineId × Block)) : Prop where
  nodup : discards.Nodup
  mem : ∀ n id block, (n, id, block) ∈ discards ↔ (readTo table n).locationOf? id = some block ∧
    (readTo table (n + 1)).locationOf? id ≠ some block
  log : List.Forall₂ (fun event (discard : Nat × MachineId × Block) =>
    ∃ e, table.entries[discard.1]? = some e ∧ event = e.warning discard.2)
    (ofTable table).log discards
  level : ∀ event ∈ (ofTable table).log, event.line.level = .warn

theorem value_ofTable_snoc (entries : List CacheEntry) (e : CacheEntry) :
    (ofTable ⟨entries ++ [e]⟩).value = (ofTable ⟨entries⟩).value.insert e.id e.location := by
  rw [value_ofTable, value_ofTable, List.foldl_append]
  rfl

theorem log_ofTable_snoc (entries : List CacheEntry) (e : CacheEntry) :
    (ofTable ⟨entries ++ [e]⟩).log =
      (ofTable ⟨entries⟩).log ++ ((ofTable ⟨entries⟩).value.pushedOut e).map e.warning := by
  unfold ofTable
  generalize empty = cache
  induction entries generalizing cache with
  | nil =>
    rw [← log_insertEntry]
    exact List.append_nil _
  | cons e' entries ih =>
    simp only [List.cons_append, List.foldlM_cons, Logged.log_bind, Logged.value_bind, ih,
      List.append_assoc]

theorem readTo_append {entries : List CacheEntry} {n : Nat} (h : n ≤ entries.length)
    (rest : List CacheEntry) : readTo ⟨entries ++ rest⟩ n = readTo ⟨entries⟩ n := by
  rw [readTo, readTo, List.take_append_of_le_length h]

theorem readTo_of_length_le {entries : List CacheEntry} {n : Nat} (h : entries.length ≤ n) :
    readTo ⟨entries⟩ n = (ofTable ⟨entries⟩).value := by
  rw [readTo, List.take_of_length_le h]

variable {entries : List CacheEntry} {discards : List (Nat × MachineId × Block)}

theorem Warns.lt (h : Warns ⟨entries⟩ discards) {n : Nat} (hm : (n, id, block) ∈ discards) :
    n < entries.length := by
  obtain ⟨hheld, hgone⟩ := (h.mem n id block).mp hm
  by_contra hn
  rw [readTo_of_length_le (by omega)] at hheld hgone
  exact hgone hheld

/-- Another entry pushes out its pairs, and nothing changes about the entries before it. -/
theorem Warns.snoc (h : Warns ⟨entries⟩ discards) (e : CacheEntry) : Warns ⟨entries ++ [e]⟩
    (discards ++ ((ofTable ⟨entries⟩).value.pushedOut e).map (entries.length, ·)) := by
  have hlength : (entries ++ [e]).length = entries.length + 1 := List.length_append
  refine ⟨?_, fun n id block => ?_, ?_, ?_⟩
  · refine List.nodup_append.mpr ⟨h.nodup, ?_, ?_⟩
    · exact (nodup_pushedOut _ e).map (Prod.mk_right_injective _)
    · rintro ⟨n, id, block⟩ hm _ hp rfl
      obtain ⟨_, -, heq⟩ := List.mem_map.mp hp
      exact absurd (congrArg Prod.fst heq) (Nat.ne_of_gt (h.lt hm))
  · have hmem : (n, id, block) ∈
        discards ++ ((ofTable ⟨entries⟩).value.pushedOut e).map (entries.length, ·) ↔
        (n, id, block) ∈ discards ∨
          n = entries.length ∧ (id, block) ∈ (ofTable ⟨entries⟩).value.pushedOut e := by
      simp [eq_comm, and_comm]
    rw [hmem]
    -- Before the new entry nothing has changed, at it its own pairs go, and behind it nothing is read.
    rcases Nat.lt_trichotomy n entries.length with hn | rfl | hn
    · rw [readTo_append hn.le, readTo_append hn, ← h.mem]
      exact or_iff_left fun h' => absurd h'.1 hn.ne
    · rw [readTo_append le_rfl, readTo_of_length_le le_rfl, readTo_of_length_le hlength.le,
        value_ofTable_snoc, ← mem_pushedOut]
      exact (or_iff_right fun hm => absurd (h.lt hm) (Nat.lt_irrefl _)).trans (and_iff_right rfl)
    · rw [readTo_of_length_le (hlength.trans_le hn),
        readTo_of_length_le (hlength.trans_le (Nat.le_succ_of_le hn))]
      refine iff_of_false ?_ fun h' => h'.2 h'.1
      rintro (hm | ⟨rfl, -⟩)
      · exact absurd (h.lt hm) (Nat.lt_asymm hn)
      · exact absurd hn (Nat.lt_irrefl _)
  · rw [log_ofTable_snoc]
    refine List.rel_append (h.log.imp fun event discard => ?_) ?_
    · rintro ⟨e', he, hw⟩
      exact ⟨e', (List.getElem?_append_left (List.getElem?_eq_some_iff.mp he).1).trans he, hw⟩
    · rw [List.forall₂_map_left_iff, List.forall₂_map_right_iff, List.forall₂_same]
      exact fun pair _ => ⟨e, List.getElem?_concat_length, rfl⟩
  · rw [log_ofTable_snoc, List.forall_mem_append, List.forall_mem_map]
    exact ⟨h.level, fun pair _ => e.level_warning pair⟩

theorem warns_nil : Warns ⟨[]⟩ [] where
  nodup := .nil
  mem n id block := by simp [readTo, ofTable, locationOf?_empty]
  log := .nil
  level := List.forall_mem_nil _

theorem exists_warns (table : CacheTable) : ∃ discards, Warns table discards := by
  obtain ⟨entries⟩ := table
  induction entries using List.reverseRecOn with
  | nil => exact ⟨[], warns_nil⟩
  | append_singleton entries e ih =>
    obtain ⟨discards, h⟩ := ih
    exact ⟨_, h.snoc e⟩

/-- There is nothing to warn of where no two entries share a half. -/
theorem log_ofTable_of_pairwise
    (h : entries.Pairwise fun a b => a.id ≠ b.id ∧ a.location ≠ b.location) :
    (ofTable ⟨entries⟩).log = [] := by
  have hread (n : Nat) (id : MachineId) (block : Block) :
      (readTo ⟨entries⟩ n).locationOf? id = some block ↔ ⟨id, block⟩ ∈ entries.take n :=
    locationOf?_ofTable (h.sublist (List.take_sublist n entries))
  obtain ⟨discards, hw⟩ := exists_warns ⟨entries⟩
  have hnil : discards = [] := by
    refine List.eq_nil_iff_forall_not_mem.mpr fun (n, id, block) hm => ?_
    obtain ⟨hheld, hgone⟩ := (hw.mem n id block).mp hm
    rw [Ne, hread] at hgone
    exact hgone (List.take_subset_take_left _ (Nat.le_succ n) ((hread n id block).mp hheld))
  have hlog := hw.log
  rw [hnil, List.forall₂_nil_right_iff] at hlog
  exact hlog

theorem ofTable_toTable_eq (cache : IdentifierCache) : ofTable cache.toTable = ⟨cache, []⟩ := by
  rw [← log_ofTable_of_pairwise cache.toTable_pairwise]
  exact congrArg (Logged.mk · _) cache.ofTable_toTable

/-- The ways in which saving a cache ends. It is on the medium to be loaded again, or it goes into a
file that the system does not let be written or that a frame cannot count the bytes of. -/
inductive Saved (cache : IdentifierCache) (m : Medium) : Medium × Except Error Unit → Prop
  | kept {m' : Medium} (hload : ofStored <$> m'.loadTable = .ok ⟨cache, []⟩) :
      Saved cache m (m', .ok ())
  | refused {t : TableFile} {frame : Bytes} {files : FileSystem} {cause : FileError}
      (ht : m.table = .file t) (hf : Frame.wrap tableMagic cache.toTable.encode = .ok frame)
      (hr : m.files.replace t.path frame = (files, .error cause)) :
      Saved cache m ({ m with files }, .error (.file cause))
  | tooLong {t : TableFile} {cause : FormatError} (ht : m.table = .file t)
      (hl : 2 ^ 32 ≤ cache.toTable.encode.length) (hc : cause.Oversize) :
      Saved cache m (m, .error (.format cause))

theorem saved (cache : IdentifierCache) (m : Medium) :
    cache.Saved m (m.saveTable cache.toTable).value := by
  have hkept {m' : Medium} (h : (m.saveTable cache.toTable).value = (m', .ok ())) :
      cache.Saved m (m', .ok ()) := by
    have hload : m'.loadTable = .ok (some cache.toTable) :=
      Backing.Recalls.recalled (b := m) h
    refine .kept ?_
    rw [hload]
    exact congrArg Except.ok cache.ofTable_toTable_eq
  cases ht : m.table with
  | memory t =>
    have hv : (m.saveTable cache.toTable).value =
        ({ m with table := .memory (t.save cache.toTable) }, .ok ()) := by
      rw [Medium.saveTable, ht]
      rfl
    rw [hv]
    exact hkept hv
  | file t =>
    have hv := Medium.value_saveTable ht cache.toTable
    rcases m.files.replaceFramed_cases tableMagic t.path cache.toTable.encode with
      ⟨cause, hw, hr⟩ | ⟨frame, hw, hr⟩
    · rw [hv, hr]
      refine .tooLong ht (Nat.le_of_not_lt fun hlt => ?_) ((OnlyOversize.frame _ _).error hw)
      obtain ⟨frame, hw'⟩ := Frame.exists_wrap tableMagic hlt
      cases hw.symm.trans hw'
    · cases hf : m.files.replace t.path frame with
      | mk files outcome =>
      rw [hr, hf] at hv
      cases outcome with
      | ok u =>
        rw [hv]
        exact hkept hv
      | error cause =>
        rw [hv]
        exact .refused ht hw hf

/-- The entries of a cache, each once and in ascending order of blocks. -/
structure Lists (cache : IdentifierCache) (entries : List CacheEntry) : Prop where
  ascending : entries.Pairwise fun a b => compare a.location b.location = .lt
  mem : ∀ id block, ⟨id, block⟩ ∈ entries ↔ cache.locationOf? id = some block

end IdentifierCache

end MachineVault
