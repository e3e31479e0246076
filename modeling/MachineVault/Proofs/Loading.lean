import MachineVault.LoadedChunk.Loading
import MachineVault.Proofs.LoadedChunk
import Mathlib.Data.List.Induction

/-! What any stored records come to. The first readable record that names a block of the partition
fills it; the others only leave their mark on the report, which is a tally of all verdicts. -/

namespace MachineVault

/-- The first of some records that can be read and names a block, with its bytes. -/
def recordFor? (records : List Bytes) (block : Block) : Option (Bytes × Machine) :=
  records.findSome? fun bytes =>
    ((Machine.decode bytes).toOption.filter (·.location = block)).map (bytes, ·)

section RecordFor

variable {records : List Bytes} {bytes : Bytes} {record : Machine} {block : Block}

theorem recordFor?_eq_none : recordFor? records block = none ↔
    ∀ bytes ∈ records, ∀ record, Machine.decode bytes = .ok record → record.location ≠ block := by
  rw [recordFor?, List.findSome?_eq_none_iff]
  refine forall_congr' fun bytes => forall_congr' fun _ => ?_
  cases Machine.decode bytes with
  | error cause => simp [Except.toOption]
  | ok record => simp [Except.toOption, Option.filter]

theorem recordFor?_eq_some : recordFor? records block = some (bytes, record) ↔
    ∃ before after, records = before ++ bytes :: after ∧ Machine.decode bytes = .ok record ∧
      record.location = block ∧ recordFor? before block = none := by
  rw [recordFor?, List.findSome?_eq_some_iff]
  constructor
  · intro h
    rcases h with ⟨before, b, after, heq, hb, hn⟩
    obtain ⟨record', hr, he⟩ := Option.map_eq_some_iff.mp hb
    cases he
    obtain ⟨hd, hl⟩ := Option.filter_eq_some_iff.mp hr
    refine ⟨before, after, heq, ?_, of_decide_eq_true hl, List.findSome?_eq_none_iff.mpr hn⟩
    cases hm : Machine.decode bytes with
    | error cause =>
      rw [hm] at hd
      cases hd
    | ok m =>
      rw [hm] at hd
      cases hd
      rfl
  · intro h
    rcases h with ⟨before, after, heq, hd, hl, hn⟩
    refine ⟨before, bytes, after, heq, ?_, List.findSome?_eq_none_iff.mp hn⟩
    simp [hd, hl, Except.toOption, Option.filter]

theorem isSome_recordFor? : (recordFor? records block).isSome ↔
    ∃ bytes ∈ records, ∃ record, Machine.decode bytes = .ok record ∧ record.location = block := by
  rw [Option.isSome_iff_ne_none, ne_eq, recordFor?_eq_none]
  simp

theorem recordFor?_append (records rest : List Bytes) (block : Block) :
    recordFor? (records ++ rest) block = (recordFor? records block).or (recordFor? rest block) :=
  List.findSome?_append

theorem recordFor?_snoc_of_error {cause : Error} (h : Machine.decode bytes = .error cause) :
    recordFor? (records ++ [bytes]) block = recordFor? records block := by
  rw [recordFor?_append]
  simp [h, Except.toOption, recordFor?]

theorem recordFor?_snoc_of_ok (h : Machine.decode bytes = .ok record) :
    recordFor? (records ++ [bytes]) block =
      if record.location = block then (recordFor? records block).or (some (bytes, record))
      else recordFor? records block := by
  rw [recordFor?_append]
  by_cases hl : record.location = block
  · simp [h, hl, Except.toOption, Option.filter, recordFor?]
  · simp [h, hl, Except.toOption, Option.filter, recordFor?]

end RecordFor

/-- The slot that a record fills. -/
def Slot.ofRecord? (registry : Registry) (preserve : Bool) (bytes : Bytes) (record : Machine) :
    Option Slot :=
  match registry.rebuild record with
  | .ok machine => some (.live machine)
  | .error _ => if preserve then some (.raw ⟨record.id, record.typeTag, bytes⟩) else none

/-- The slot that some records leave on a block of the partition. -/
def slotFor? (registry : Registry) (preserve : Bool) (records : List Bytes) (block : Block) :
    Option Slot :=
  (recordFor? records block).bind fun (bytes, record) =>
    Slot.ofRecord? registry preserve bytes record

theorem slotFor?_of_recordFor? {registry : Registry} {preserve : Bool} {records : List Bytes}
    {block : Block} {bytes : Bytes} {record : Machine}
    (h : recordFor? records block = some (bytes, record)) :
    slotFor? registry preserve records block =
      Slot.ofRecord? registry preserve bytes record := by
  rw [slotFor?, h]
  rfl

theorem LoadReport.isClean_iff {r : LoadReport} : r.isClean = true ↔ r.unresolved = [] ∧
    r.failedRecords = 0 ∧ r.missingRecords = [] ∧ r.inconsistent = 0 ∧ r.cacheMismatches = 0 := by
  simp [isClean, and_assoc]

namespace Verdict

def isRebuilt : Verdict → Bool
  | rebuilt _ _ => true
  | _ => false

/-- The block and the tag of a record whose type is unknown. -/
def unresolved? : Verdict → Option (Block × String)
  | unbuilt record _ (.unknownType tag) => some (record.location, tag)
  | _ => none

/-- The record counts as failed. -/
def isFailed : Verdict → Bool
  | undecodable _ | outside _ | repeated _ => true
  | unbuilt _ _ (.unknownType _) | rebuilt _ _ => false
  | unbuilt _ _ _ => true

/-- The pair of a record that can be read and is not kept. -/
def dropped? (preserve : Bool) : Verdict → Option (MachineId × Block)
  | outside record | repeated record => some (record.id, record.location)
  | unbuilt record _ _ => if preserve then none else some (record.id, record.location)
  | undecodable _ | rebuilt _ _ => none

/-- The record fills a block that the index does not list as it is. -/
def isDisputed (index : ChunkIndex) : Verdict → Bool
  | rebuilt record _ | unbuilt record _ _ => (Loading.indexDispute? index record).isSome
  | _ => false

end Verdict

namespace Loading

/-- How a record is judged that comes after others. -/
def verdict (partition : Partition) (registry : Registry) (before : List Bytes) (bytes : Bytes) :
    Verdict :=
  match Machine.decode bytes with
  | .error cause => .undecodable cause
  | .ok record =>
    if ¬ partition.contains record.location then .outside record
    else if (recordFor? before record.location).isSome then .repeated record
    else match registry.rebuild record with
    | .ok machine => .rebuilt record machine
    | .error cause => .unbuilt record bytes cause

/-- The verdicts on records that come after others. -/
def verdicts (partition : Partition) (registry : Registry) (before : List Bytes) :
    List Bytes → List Verdict
  | [] => []
  | bytes :: rest =>
    verdict partition registry before bytes :: verdicts partition registry (before ++ [bytes]) rest

/-- The report on a load, up to the index entries without a record. -/
def tally (partition : Partition) (generation : Nat) (index : ChunkIndex) (preserve : Bool)
    (verdicts : List Verdict) : LoadReport where
  partition
  generation
  machines := verdicts.countP Verdict.isRebuilt
  unresolved := verdicts.filterMap Verdict.unresolved?
  failedRecords := verdicts.countP Verdict.isFailed
  dropped := verdicts.filterMap (Verdict.dropped? preserve)
  inconsistent := verdicts.countP (Verdict.isDisputed index)

variable {partition : Partition} {generation : Nat} {index : ChunkIndex} {registry : Registry}
  {preserve : Bool} {before records : List Bytes} {bytes : Bytes} {record : Machine} {l : Loading}

/-- The ways in which a record is judged. -/
inductive Judged (partition : Partition) (registry : Registry) (before : List Bytes)
    (bytes : Bytes) : Verdict → Prop
  | undecodable {cause : Error} (hd : Machine.decode bytes = .error cause) :
      Judged partition registry before bytes (.undecodable cause)
  | outside {record : Machine} (hd : Machine.decode bytes = .ok record)
      (hp : record.location.partition ≠ partition) :
      Judged partition registry before bytes (.outside record)
  | repeated {record : Machine} (hd : Machine.decode bytes = .ok record)
      (hp : record.location.partition = partition)
      (hs : (recordFor? before record.location).isSome) :
      Judged partition registry before bytes (.repeated record)
  | rebuilt {record machine : Machine} (hd : Machine.decode bytes = .ok record)
      (hp : record.location.partition = partition)
      (hf : recordFor? before record.location = none)
      (hr : registry.rebuild record = .ok machine) :
      Judged partition registry before bytes (.rebuilt record machine)
  | unbuilt {record : Machine} {cause : Error} (hd : Machine.decode bytes = .ok record)
      (hp : record.location.partition = partition)
      (hf : recordFor? before record.location = none)
      (hr : registry.rebuild record = .error cause) :
      Judged partition registry before bytes (.unbuilt record bytes cause)

theorem judged (partition : Partition) (registry : Registry) (before : List Bytes)
    (bytes : Bytes) : Judged partition registry before bytes
      (verdict partition registry before bytes) := by
  unfold verdict
  cases hd : Machine.decode bytes with
  | error cause => exact .undecodable hd
  | ok record =>
    dsimp only
    by_cases hp : partition.contains record.location = true
    · rw [if_neg (not_not_intro hp)]
      have hp := of_decide_eq_true hp
      by_cases hs : (recordFor? before record.location).isSome = true
      · rw [if_pos hs]
        exact .repeated hd hp hs
      · rw [if_neg hs]
        have hf := Option.not_isSome_iff_eq_none.mp hs
        cases hr : registry.rebuild record with
        | ok machine => exact .rebuilt hd hp hf hr
        | error cause => exact .unbuilt hd hp hf hr
    · rw [if_pos hp]
      exact .outside hd fun heq => hp (decide_eq_true heq)

/-- A verdict that shows neither as a failure nor as an unknown type is on a record that becomes a
machine. -/
theorem Judged.exists_rebuilt {v : Verdict} (j : Judged partition registry before bytes v)
    (hf : v.isFailed = false) (hu : v.unresolved? = none) : ∃ record machine,
      Machine.decode bytes = .ok record ∧ record.location.partition = partition ∧
        recordFor? before record.location = none ∧ registry.rebuild record = .ok machine := by
  cases j with
  | undecodable | outside | repeated => cases hf
  | rebuilt hd hp hfirst hr => exact ⟨_, _, hd, hp, hfirst, hr⟩
  | @unbuilt record cause =>
    cases cause with
    | unknownType => cases hu
    | _ => cases hf

/-- A readable record is dropped if it lies outside the partition, comes second on its block, or
fills no slot. -/
theorem dropped?_verdict {id : MachineId} {block : Block} :
    (verdict partition registry before bytes).dropped? preserve = some (id, block) ↔
      ∃ record, Machine.decode bytes = .ok record ∧ record.id = id ∧ record.location = block ∧
        (block.partition ≠ partition ∨ (recordFor? before block).isSome ∨
          Slot.ofRecord? registry preserve bytes record = none) := by
  have j := judged partition registry before bytes
  generalize verdict partition registry before bytes = v at j
  constructor
  · intro h
    cases j with
    | undecodable | rebuilt => cases h
    | outside hd hp =>
      cases h
      exact ⟨_, hd, rfl, rfl, .inl hp⟩
    | repeated hd hp hs =>
      cases h
      exact ⟨_, hd, rfl, rfl, .inr (.inl hs)⟩
    | unbuilt hd hp hf hr =>
      cases preserve
      · cases h
        exact ⟨_, hd, rfl, rfl, .inr (.inr (by simp [Slot.ofRecord?, hr]))⟩
      · cases h
  · intro h
    rcases h with ⟨record, hd', rfl, rfl, hlost⟩
    cases j with
    | undecodable hd =>
      rw [hd] at hd'
      cases hd'
    | outside hd | repeated hd =>
      rw [hd] at hd'
      cases hd'
      rfl
    | rebuilt hd hp hf hr =>
      rw [hd] at hd'
      cases hd'
      simp [hp, hf, Slot.ofRecord?, hr] at hlost
    | unbuilt hd hp hf hr =>
      rw [hd] at hd'
      cases hd'
      cases preserve
      · rfl
      · simp [hp, hf, Slot.ofRecord?, hr] at hlost

theorem verdicts_append (before records rest : List Bytes) :
    verdicts partition registry before (records ++ rest) =
      verdicts partition registry before records ++
        verdicts partition registry (before ++ records) rest := by
  induction records generalizing before with
  | nil =>
    rw [List.append_nil]
    rfl
  | cons bytes records ih =>
    rw [List.cons_append, verdicts, verdicts, ih, List.append_assoc]
    rfl

theorem verdicts_snoc : verdicts partition registry before (records ++ [bytes]) =
    verdicts partition registry before records ++
      [verdict partition registry (before ++ records) bytes] :=
  verdicts_append before records [bytes]

/-- Every verdict is on one of the records, behind those before it. -/
theorem mem_verdicts {v : Verdict} : v ∈ verdicts partition registry [] records ↔
    ∃ before bytes after, records = before ++ bytes :: after ∧
      verdict partition registry before bytes = v := by
  suffices h : ∀ front, v ∈ verdicts partition registry front records ↔
      ∃ before bytes after, records = before ++ bytes :: after ∧
        verdict partition registry (front ++ before) bytes = v from h []
  induction records with
  | nil => simp [verdicts]
  | cons b rest ih =>
    intro front
    rw [verdicts, List.mem_cons, ih]
    constructor
    · intro h
      rcases h with rfl | ⟨before, bytes, after, rfl, hv⟩
      · exact ⟨[], b, rest, rfl, by rw [List.append_nil]⟩
      · exact ⟨b :: before, bytes, after, rfl, by rwa [List.append_assoc] at hv⟩
    · intro h
      rcases h with ⟨before, bytes, after, heq, hv⟩
      cases before with
      | nil =>
        cases heq
        exact .inl (by rw [← hv, List.append_nil])
      | cons b' before =>
        cases heq
        exact .inr ⟨before, bytes, after, rfl, by rwa [List.append_assoc]⟩

theorem countP_verdicts_eq_zero {p : Verdict → Bool} :
    (verdicts partition registry [] records).countP p = 0 ↔
      ∀ before bytes after, records = before ++ bytes :: after →
        p (verdict partition registry before bytes) = false := by
  simp only [List.countP_eq_zero, mem_verdicts, Bool.not_eq_true]
  constructor
  · exact fun h before bytes after heq => h _ ⟨before, bytes, after, heq, rfl⟩
  · rintro h _ ⟨before, bytes, after, heq, rfl⟩
    exact h before bytes after heq

/-- One more verdict is one more mark on the report. -/
theorem report_settle {vs : List Verdict} (v : Verdict)
    (h : l.report = tally partition generation index preserve vs) :
    (l.settle index preserve v).report =
      tally partition generation index preserve (vs ++ [v]) := by
  cases v with
  | undecodable cause | outside record | repeated record =>
    simp [settle, fail, drop, h, tally, Verdict.isRebuilt, Verdict.unresolved?, Verdict.isFailed,
      Verdict.dropped?, Verdict.isDisputed]
  | rebuilt record machine =>
    simp [settle, meet, h, tally, Verdict.isRebuilt, Verdict.unresolved?, Verdict.isFailed,
      Verdict.dropped?, Verdict.isDisputed, List.countP_singleton]
    rfl
  | unbuilt record bytes cause =>
    cases preserve <;> cases cause <;>
      simp [settle, keepRaw, blame, meet, drop, fail, h, tally, Verdict.isRebuilt,
        Verdict.unresolved?, Verdict.isFailed, Verdict.dropped?, Verdict.isDisputed,
        List.countP_singleton] <;>
      rfl

/-- Where a load stands that has taken some records. -/
structure Surveyed (l : Loading) (partition : Partition) (generation : Nat) (index : ChunkIndex)
    (registry : Registry) (preserve : Bool) (records : List Bytes) : Prop where
  identity : l.chunk.partition = partition ∧ l.chunk.generation = generation ∧
    l.chunk.persisted = true
  slot : ∀ block, l.chunk.slot? block =
    if block.partition = partition then slotFor? registry preserve records block else none
  seen : ∀ block, block ∈ l.seen ↔
    block.partition = partition ∧ (recordFor? records block).isSome
  report : l.report =
    tally partition generation index preserve (verdicts partition registry [] records)

theorem surveyed_start (partition : Partition) (generation : Nat) (index : ChunkIndex)
    (registry : Registry) (preserve : Bool) :
    (start partition generation).Surveyed partition generation index registry preserve [] where
  identity := ⟨rfl, rfl, rfl⟩
  slot block := by simp [start, LoadedChunk.slot?, slotFor?, recordFor?]
  seen block := by simp [start, recordFor?]
  report := rfl

namespace Surveyed

theorem judge (t : l.Surveyed partition generation index registry preserve records)
    (bytes : Bytes) : l.judge registry bytes = verdict partition registry records bytes := by
  unfold Loading.judge verdict
  cases Machine.decode bytes with
  | error cause => rfl
  | ok record =>
    dsimp only
    rw [t.identity.1]
    by_cases hp : partition.contains record.location = true
    · have hs : l.seen.contains record.location = (recordFor? records record.location).isSome := by
        rw [Bool.eq_iff_iff, Std.ExtTreeSet.contains_iff_mem, t.seen]
        simpa [Partition.contains] using fun _ => of_decide_eq_true hp
      generalize l.seen.contains record.location = seen at hs
      subst hs
      rfl
    · rw [if_pos hp, if_pos hp]

/-- A record that fills no block leaves the chunk as it is. -/
theorem skip (t : l.Surveyed partition generation index registry preserve records) {l' : Loading}
    (hc : l'.chunk = l.chunk) (hs : l'.seen = l.seen)
    (hr : l'.report = tally partition generation index preserve
      (verdicts partition registry [] (records ++ [bytes])))
    (h : ∀ block, block.partition = partition →
      recordFor? (records ++ [bytes]) block = recordFor? records block) :
    l'.Surveyed partition generation index registry preserve (records ++ [bytes]) where
  identity := hc ▸ t.identity
  slot block := by
    rw [hc, t.slot]
    split
    · rename_i hb
      rw [slotFor?, slotFor?, h block hb]
    · rfl
  seen block := by
    rw [hs, t.seen]
    refine and_congr_right fun hb => ?_
    rw [h block hb]
  report := hr

/-- A block of the partition is free as long as no record is read for it. -/
theorem free (t : l.Surveyed partition generation index registry preserve records) {block : Block}
    (hp : block.partition = partition) (hf : recordFor? records block = none) :
    l.chunk.slot? block = none := by
  rw [t.slot, if_pos hp, slotFor?, hf, Option.bind_none]

/-- The first record for a block of the partition fills it, if it fills any. -/
theorem fill (t : l.Surveyed partition generation index registry preserve records) {l' : Loading}
    (hd : Machine.decode bytes = .ok record) (hp : record.location.partition = partition)
    (hf : recordFor? records record.location = none)
    (hc : l'.chunk = match Slot.ofRecord? registry preserve bytes record with
      | some slot => l.chunk.place record.location slot
      | none => l.chunk)
    (hs : l'.seen = l.seen.insert record.location)
    (hr : l'.report = tally partition generation index preserve
      (verdicts partition registry [] (records ++ [bytes]))) :
    l'.Surveyed partition generation index registry preserve (records ++ [bytes]) where
  identity := by
    rw [hc]
    split
    · exact t.identity
    · exact t.identity
  slot block := by
    rw [hc]
    by_cases hb : record.location = block
    · subst hb
      have hrecord : recordFor? (records ++ [bytes]) record.location = some (bytes, record) := by
        rw [recordFor?_snoc_of_ok hd, if_pos rfl, hf, Option.none_or]
      rw [if_pos hp, slotFor?_of_recordFor? hrecord]
      cases Slot.ofRecord? registry preserve bytes record with
      | none => exact t.free hp hf
      | some slot => simp
    · rw [slotFor?, recordFor?_snoc_of_ok hd, if_neg hb]
      cases Slot.ofRecord? registry preserve bytes record with
      | none => exact t.slot block
      | some slot =>
        rw [LoadedChunk.slot?_place, if_neg (Ne.symm hb)]
        exact t.slot block
  seen block := by
    rw [hs, Std.ExtTreeSet.mem_insert, t.seen, Std.LawfulEqCmp.compare_eq_iff_eq,
      recordFor?_snoc_of_ok hd]
    by_cases hb : record.location = block
    · subst hb
      simp [hp, hf]
    · simp [hb]
  report := hr

/-- One more record is taken. -/
theorem add (t : l.Surveyed partition generation index registry preserve records)
    (bytes : Bytes) : (Loading.add index registry preserve l bytes).value.Surveyed partition
      generation index registry preserve (records ++ [bytes]) := by
  have hv := t.judge bytes
  have hr : (l.settle index preserve (l.judge registry bytes)).report =
      tally partition generation index preserve
        (verdicts partition registry [] (records ++ [bytes])) := by
    rw [verdicts_snoc, List.nil_append, ← hv]
    exact report_settle _ t.report
  have j := judged partition registry records bytes
  change (l.settle index preserve (l.judge registry bytes)).Surveyed ..
  rw [hv] at hr ⊢
  generalize verdict partition registry records bytes = v at hr j
  cases j with
  | undecodable hd => exact t.skip rfl rfl hr fun block _ => recordFor?_snoc_of_error hd
  | outside hd hp =>
    refine t.skip rfl rfl hr fun block hb => ?_
    rw [recordFor?_snoc_of_ok hd, if_neg]
    rintro rfl
    exact hp hb
  | repeated hd hp hs =>
    refine t.skip rfl rfl hr fun block hb => ?_
    rw [recordFor?_snoc_of_ok hd]
    split
    · rename_i heq
      rw [← heq, Option.or_of_isSome hs]
    · rfl
  | rebuilt hd hp hf hb =>
    refine t.fill hd hp hf ?_ rfl hr
    rw [Slot.ofRecord?, hb]
    rfl
  | @unbuilt record cause hd hp hf hb =>
    refine t.fill hd hp hf ?_ ?_ hr
    · rw [Slot.ofRecord?, hb]
      cases preserve <;> cases cause <;> rfl
    · cases preserve <;> cases cause <;> rfl

end Surveyed

/-- The records of a load, taken one after another. -/
theorem surveyed_foldl (partition : Partition) (generation : Nat) (index : ChunkIndex)
    (registry : Registry) (preserve : Bool) (records : List Bytes) :
    (records.foldl (fun l bytes => (Loading.add index registry preserve l bytes).value)
      (start partition generation)).Surveyed partition generation index registry preserve
        records := by
  induction records using List.reverseRecOn with
  | nil => exact surveyed_start ..
  | append_singleton records bytes ih =>
    rw [List.foldl_append]
    exact ih.add bytes

/-- The blocks without a record stay in the order of the index. -/
theorem map_fst_missing : (l.missing index).map Prod.fst =
    index.entries.keys.filter fun block => block ∉ l.seen := by
  rw [missing, ← Std.ExtTreeMap.map_fst_toList_eq_keys, List.filter_map]
  simp [Function.comp_def]

theorem mem_missing {block : Block} : block ∈ (l.missing index).map Prod.fst ↔
    (index.get? block).isSome ∧ block ∉ l.seen := by
  rw [map_fst_missing, List.mem_filter, Std.ExtTreeMap.mem_keys,
    Std.ExtTreeMap.mem_iff_isSome_getElem?, ChunkIndex.get?, decide_eq_true_iff]

end Loading

namespace LoadedChunk

/-- A chunk and a report are what stored records come to. -/
structure Brought (partition : Partition) (generation : Nat) (index : ChunkIndex)
    (records : List Bytes) (registry : Registry) (preserve : Bool)
    (outcome : LoadedChunk × LoadReport) : Prop where
  identity : outcome.1.partition = partition ∧ outcome.1.generation = generation
  slot : ∀ block, outcome.1.slot? block =
    if block.partition = partition then slotFor? registry preserve records block else none
  report : outcome.2 = { Loading.tally partition generation index preserve
    (Loading.verdicts partition registry [] records) with
      missingRecords := outcome.2.missingRecords }
  missing : ∀ block, block ∈ outcome.2.missingRecords ↔ (index.get? block).isSome ∧
    ¬(block.partition = partition ∧ (recordFor? records block).isSome)

theorem Brought.of_surveyed {partition : Partition} {generation : Nat} {index : ChunkIndex}
    {records : List Bytes} {registry : Registry} {preserve : Bool} {l : Loading}
    (t : l.Surveyed partition generation index registry preserve records) :
    Brought partition generation index records registry preserve (l.finish index).value where
  identity := ⟨t.identity.1, t.identity.2.1⟩
  slot := t.slot
  report := by simp only [Loading.finish, t.report]
  missing block := by
    rw [← t.seen]
    exact Loading.mem_missing

theorem brought_load (partition : Partition) (generation : Nat) (index : ChunkIndex)
    (records : List Bytes) (registry : Registry) (preserve : Bool) :
    Brought partition generation index records registry preserve
      (load partition generation index records registry preserve).value := by
  rw [load, Logged.value_bind, Logged.value_foldlM]
  exact .of_surveyed (Loading.surveyed_foldl ..)

theorem persisted_load (partition : Partition) (generation : Nat) (index : ChunkIndex)
    (records : List Bytes) (registry : Registry) (preserve : Bool) :
    (load partition generation index records registry preserve).value.1.persisted = true := by
  rw [load, Logged.value_bind, Logged.value_foldlM]
  exact (Loading.surveyed_foldl ..).identity.2.2

theorem missingRecords_load (partition : Partition) (generation : Nat) (index : ChunkIndex)
    (records : List Bytes) (registry : Registry) (preserve : Bool) :
    (load partition generation index records registry preserve).value.2.missingRecords =
      index.entries.keys.filter fun block =>
        ¬(block.partition = partition ∧ (recordFor? records block).isSome) := by
  rw [load, Logged.value_bind, Logged.value_foldlM]
  refine Loading.map_fst_missing.trans (List.filter_congr fun block _ => ?_)
  exact decide_eq_decide.mpr (not_congr ((Loading.surveyed_foldl ..).seen block))

namespace Brought

variable {partition : Partition} {generation : Nat} {index : ChunkIndex} {records : List Bytes}
  {registry : Registry} {preserve : Bool} {outcome : LoadedChunk × LoadReport}

theorem dropped (h : Brought partition generation index records registry preserve outcome) :
    outcome.2.dropped = (Loading.verdicts partition registry [] records).filterMap
      (Verdict.dropped? preserve) :=
  congrArg LoadReport.dropped h.report

/-- The dropped pairs are those of readable records that lie outside the partition, come second on
their block, or fill no slot. -/
theorem mem_dropped {id : MachineId} {block : Block}
    (h : Brought partition generation index records registry preserve outcome) :
    (id, block) ∈ outcome.2.dropped ↔ ∃ before bytes after record,
      records = before ++ bytes :: after ∧ Machine.decode bytes = .ok record ∧ record.id = id ∧
        record.location = block ∧ (block.partition ≠ partition ∨
          (recordFor? before block).isSome ∨ Slot.ofRecord? registry preserve bytes record = none) := by
  rw [h.dropped, List.mem_filterMap]
  constructor
  · intro h
    rcases h with ⟨v, hm, hd⟩
    obtain ⟨before, bytes, after, heq, rfl⟩ := Loading.mem_verdicts.mp hm
    obtain ⟨record, hrecord⟩ := Loading.dropped?_verdict.mp hd
    exact ⟨before, bytes, after, record, heq, hrecord⟩
  · intro h
    rcases h with ⟨before, bytes, after, record, heq, hrecord⟩
    exact ⟨_, Loading.mem_verdicts.mpr ⟨before, bytes, after, heq, rfl⟩,
      Loading.dropped?_verdict.mpr ⟨record, hrecord⟩⟩

/-- Without a failure and without an unknown type, every record is the first on its block and has
become a machine. -/
theorem exists_rebuilt
    (h : Brought partition generation index records registry preserve outcome)
    (hf : outcome.2.failedRecords = 0) (hu : outcome.2.unresolved = []) {before after : List Bytes}
    {bytes : Bytes} (heq : records = before ++ bytes :: after) :
    ∃ record machine, Machine.decode bytes = .ok record ∧ record.location.partition = partition ∧
      recordFor? before record.location = none ∧ registry.rebuild record = .ok machine := by
  rw [h.report] at hf hu
  refine (Loading.judged partition registry before bytes).exists_rebuilt ?_ ?_
  · exact Loading.countP_verdicts_eq_zero.mp hf before bytes after heq
  · refine List.filterMap_eq_nil_iff.mp hu _ (Loading.mem_verdicts.mpr ?_)
    exact ⟨before, bytes, after, heq, rfl⟩

end Brought

end LoadedChunk

end MachineVault
