import MachineVault.Proofs.Loading
import Mathlib.Data.List.Nodup

/-! The books of a load. Each record is counted once, as a machine, under an unknown type or as a
failure; the chunk holds as many machines as are counted; what is dropped and what is missing are
listed in order; and a report is clean only where the records and the index say the same. -/

namespace MachineVault

/-- Some records, each with those before it. -/
def arrivals (before : List Bytes) : List Bytes → List (List Bytes × Bytes)
  | [] => []
  | bytes :: rest => (before, bytes) :: arrivals (before ++ [bytes]) rest

namespace Loading

/-- The bytes are the first record for a block of the partition, and no machine comes of it. -/
def isUnbuilt (partition : Partition) (registry : Registry) (before : List Bytes) (bytes : Bytes) :
    Bool :=
  match Machine.decode bytes with
  | .ok record => record.location.partition = partition ∧
      recordFor? before record.location = none ∧ ¬(registry.rebuild record).isOk
  | .error _ => false

/-- The machine and the block of a record that can be read and is not kept: it lies outside the
partition, its block has a record before it, or no machine comes of it and such records are not
preserved. -/
def lost? (partition : Partition) (registry : Registry) (preserve : Bool) (before : List Bytes)
    (bytes : Bytes) : Option (MachineId × Block) :=
  match Machine.decode bytes with
  | .ok record =>
    if record.location.partition ≠ partition ∨ (recordFor? before record.location).isSome ∨
      (preserve = false ∧ ¬(registry.rebuild record).isOk) then some (record.id, record.location)
    else none
  | .error _ => none

end Loading

/-- Every record can be read and becomes a machine on a block of the partition, no block is named
twice, and the index lists just these blocks with the types of their records. -/
structure Intact (partition : Partition) (index : ChunkIndex) (records : List Bytes)
    (registry : Registry) (found : List Machine) : Prop where
  decoded : records.map Machine.decode = found.map .ok
  distinct : (found.map Machine.location).Nodup
  inside : ∀ record ∈ found, record.location.partition = partition
  rebuilt : ∀ record ∈ found, (registry.rebuild record).isOk
  indexed : ∀ block tag, index.get? block = some tag ↔
    ∃ record ∈ found, record.location = block ∧ record.typeTag = tag

/-- A chunk and a report account for every record and for every entry of the index. -/
structure Accounted (partition : Partition) (index : ChunkIndex) (records : List Bytes)
    (registry : Registry) (preserve : Bool) (outcome : LoadedChunk × LoadReport) : Prop where
  total : outcome.2.machines + outcome.2.unresolved.length + outcome.2.failedRecords =
    records.length
  machines : outcome.1.machineCount = outcome.2.machines
  /-- On a block of the partition stands what becomes of the first record for it. -/
  slot : ∀ block, outcome.1.slot? block =
    if block.partition = partition then slotFor? registry preserve records block else none
  dropped : outcome.2.dropped = (arrivals [] records).filterMap fun (before, bytes) =>
    Loading.lost? partition registry preserve before bytes
  raw : outcome.1.rawCount = if preserve then (arrivals [] records).countP fun (before, bytes) =>
    Loading.isUnbuilt partition registry before bytes else 0
  ascending : outcome.2.missingRecords.Pairwise fun a b => compare a b = .lt
  missing : ∀ block, block ∈ outcome.2.missingRecords ↔ (index.get? block).isSome ∧
    ¬(block.partition = partition ∧
      ∃ bytes ∈ records, ∃ record, Machine.decode bytes = .ok record ∧ record.location = block)
  clean : outcome.2.isClean = true ↔ ∃ found, Intact partition index records registry found

namespace Verdict

def isUnbuilt : Verdict → Bool
  | unbuilt _ _ _ => true
  | _ => false

/-- Each verdict is counted once. -/
theorem count_eq_length (vs : List Verdict) : vs.countP isRebuilt +
    (vs.filterMap unresolved?).length + vs.countP isFailed = vs.length := by
  induction vs with
  | nil => rfl
  | cons v vs ih =>
    rw [List.countP_cons, List.countP_cons, List.filterMap_cons, List.length_cons, ← ih]
    cases v with
    | undecodable | outside | repeated | rebuilt =>
      simp only [isRebuilt, unresolved?, isFailed, if_true, Bool.false_eq_true, if_false]
      omega
    | unbuilt record bytes cause =>
      cases cause <;>
        simp only [isRebuilt, unresolved?, isFailed, if_true, Bool.false_eq_true, if_false,
          List.length_cons] <;>
        omega

end Verdict

namespace Loading

variable {partition : Partition} {generation : Nat} {index : ChunkIndex} {registry : Registry}
  {preserve : Bool} {before records : List Bytes} {bytes : Bytes} {l : Loading}

theorem verdicts_eq_map (before records : List Bytes) :
    verdicts partition registry before records = (arrivals before records).map fun (before, bytes) =>
      verdict partition registry before bytes := by
  induction records generalizing before with
  | nil => rfl
  | cons bytes rest ih => rw [verdicts, arrivals, List.map_cons, ih]

theorem length_verdicts (before records : List Bytes) :
    (verdicts partition registry before records).length = records.length := by
  induction records generalizing before with
  | nil => rfl
  | cons bytes rest ih => rw [verdicts, List.length_cons, List.length_cons, ih]

theorem isUnbuilt_verdict : (verdict partition registry before bytes).isUnbuilt =
    isUnbuilt partition registry before bytes := by
  have j := judged partition registry before bytes
  generalize verdict partition registry before bytes = v at j
  cases j with
  | undecodable hd => simp [Verdict.isUnbuilt, isUnbuilt, hd]
  | outside hd hp => simp [Verdict.isUnbuilt, isUnbuilt, hd, hp]
  | repeated hd hp hs => simp [Verdict.isUnbuilt, isUnbuilt, hd, Option.isSome_iff_ne_none.mp hs]
  | rebuilt hd hp hf hr =>
    simp [Verdict.isUnbuilt, isUnbuilt, hd, hp, hf, hr, Except.isOk, Except.toBool]
  | unbuilt hd hp hf hr =>
    simp [Verdict.isUnbuilt, isUnbuilt, hd, hp, hf, hr, Except.isOk, Except.toBool]

theorem dropped?_eq_lost? : (verdict partition registry before bytes).dropped? preserve =
    lost? partition registry preserve before bytes := by
  have j := judged partition registry before bytes
  generalize verdict partition registry before bytes = v at j
  cases j with
  | undecodable hd => simp [Verdict.dropped?, lost?, hd]
  | outside hd hp => simp [Verdict.dropped?, lost?, hd, hp]
  | repeated hd hp hs => simp [Verdict.dropped?, lost?, hd, hs]
  | rebuilt hd hp hf hr =>
    simp [Verdict.dropped?, lost?, hd, hp, hf, hr, Except.isOk, Except.toBool]
  | unbuilt hd hp hf hr =>
    cases preserve <;> simp [Verdict.dropped?, lost?, hd, hp, hf, hr, Except.isOk, Except.toBool]

/-- A load under way holds as much as its verdicts say. -/
structure Counted (l : Loading) (preserve : Bool) (vs : List Verdict) : Prop where
  machines : l.chunk.machineCount = vs.countP Verdict.isRebuilt
  raw : l.chunk.rawCount = vs.countP fun v => preserve && v.isUnbuilt

namespace Counted

variable {vs : List Verdict} {v : Verdict} {l' : Loading}

/-- A verdict that fills no block leaves the numbers as they are. -/
theorem skip (h : l.Counted preserve vs) (hc : l'.chunk = l.chunk) (hr : v.isRebuilt = false)
    (hu : (preserve && v.isUnbuilt) = false) : l'.Counted preserve (vs ++ [v]) where
  machines := by
    rw [hc, h.machines, List.countP_append, List.countP_singleton, hr]
    rfl
  raw := by
    rw [hc, h.raw, List.countP_append, List.countP_singleton, hu]
    rfl

theorem fill (h : l.Counted preserve vs) {block : Block} {slot : Slot}
    (hfree : l.chunk.slot? block = none) (hc : l'.chunk = l.chunk.place block slot)
    (hr : v.isRebuilt = slot.machine?.isSome)
    (hu : (preserve && v.isUnbuilt) = slot.record?.isSome) : l'.Counted preserve (vs ++ [v]) where
  machines := by
    rw [hc, LoadedChunk.machineCount_place hfree, h.machines, List.countP_append,
      List.countP_singleton, hr]
  raw := by
    rw [hc, LoadedChunk.rawCount_place hfree, h.raw, List.countP_append, List.countP_singleton, hu]

/-- One more record is taken. -/
theorem add (h : l.Counted preserve (verdicts partition registry [] records))
    (t : l.Surveyed partition generation index registry preserve records) (bytes : Bytes) :
    (Loading.add index registry preserve l bytes).value.Counted preserve
      (verdicts partition registry [] (records ++ [bytes])) := by
  have hv := t.judge bytes
  have j := judged partition registry records bytes
  change (l.settle index preserve (l.judge registry bytes)).Counted ..
  rw [verdicts_snoc, List.nil_append, hv]
  generalize verdict partition registry records bytes = v at j
  cases j with
  | undecodable | outside | repeated => exact h.skip rfl rfl (Bool.and_false preserve)
  | rebuilt hd hp hf hr => exact h.fill (t.free hp hf) rfl rfl (Bool.and_false preserve)
  | @unbuilt record cause hd hp hf hr =>
    have hc : (l.settle index preserve (.unbuilt record bytes cause)).chunk =
        if preserve then l.chunk.place record.location (.raw ⟨record.id, record.typeTag, bytes⟩)
        else l.chunk := by
      cases preserve <;> cases cause <;> rfl
    cases preserve with
    | false => exact h.skip hc rfl rfl
    | true => exact h.fill (t.free hp hf) hc rfl rfl

end Counted

theorem counted_foldl (partition : Partition) (generation : Nat) (index : ChunkIndex)
    (registry : Registry) (preserve : Bool) (records : List Bytes) :
    (records.foldl (fun l bytes => (Loading.add index registry preserve l bytes).value)
      (start partition generation)).Counted preserve
        (verdicts partition registry [] records) := by
  induction records using List.reverseRecOn with
  | nil => exact ⟨by simp [start, LoadedChunk.machineCount, LoadedChunk.machines, verdicts],
      by simp [start, LoadedChunk.rawCount, LoadedChunk.rawRecords, verdicts]⟩
  | append_singleton records bytes ih =>
    rw [List.foldl_append]
    exact ih.add (surveyed_foldl ..) bytes

end Loading

variable {partition : Partition} {index : ChunkIndex} {records : List Bytes} {registry : Registry}

theorem Intact.mem_found {found : List Machine} {record : Machine}
    (h : records.map Machine.decode = found.map .ok) :
    record ∈ found ↔ ∃ bytes ∈ records, Machine.decode bytes = .ok record := by
  rw [← List.mem_map (f := Machine.decode), h, List.mem_map]
  simp

/-- Where every record is the first for a block of the partition and becomes a machine, the blocks
of all of them are different. -/
theorem exists_found (h : ∀ before bytes after, records = before ++ bytes :: after →
      ∃ record machine, Machine.decode bytes = .ok record ∧ record.location.partition = partition ∧
        recordFor? before record.location = none ∧ registry.rebuild record = .ok machine) :
    ∃ found : List Machine, records.map Machine.decode = found.map .ok ∧
      (found.map Machine.location).Nodup ∧
      ∀ record ∈ found, record.location.partition = partition ∧ (registry.rebuild record).isOk := by
  induction records using List.reverseRecOn with
  | nil => exact ⟨[], rfl, List.nodup_nil, nofun⟩
  | append_singleton records bytes ih =>
    obtain ⟨found, hd, hn, hf⟩ := ih fun before b after heq =>
      h before b (after ++ [bytes]) (by rw [heq, List.append_assoc, List.cons_append])
    obtain ⟨record, machine, hrecord, hp, hfirst, hr⟩ := h records bytes [] rfl
    have hnew : record.location ∉ found.map Machine.location := by
      intro hm
      obtain ⟨other, hother, hl⟩ := List.mem_map.mp hm
      obtain ⟨b, hb, hdb⟩ := (Intact.mem_found hd).mp hother
      exact recordFor?_eq_none.mp hfirst b hb other hdb hl
    refine ⟨found ++ [record], ?_, ?_, fun other hm => ?_⟩
    · rw [List.map_append, List.map_append, hd, List.map_singleton, hrecord, List.map_singleton]
    · rw [List.map_append, List.nodup_append]
      refine ⟨hn, List.nodup_singleton _, ?_⟩
      rintro a ha b hb rfl
      rw [List.map_singleton, List.mem_singleton] at hb
      exact hnew (hb ▸ ha)
    · rcases List.mem_append.mp hm with hm | hm
      · exact hf other hm
      · rw [List.mem_singleton.mp hm, hr]
        exact ⟨hp, rfl⟩

namespace Loading

variable {before : List Bytes} {bytes : Bytes} {record machine : Machine}

theorem indexDispute?_eq_none : indexDispute? index record = none ↔
    index.get? record.location = some record.typeTag := by
  unfold indexDispute?
  cases index.get? record.location with
  | none => simp
  | some tag => simp

theorem verdict_of_rebuilt (hd : Machine.decode bytes = .ok record)
    (hp : record.location.partition = partition) (hf : recordFor? before record.location = none)
    (hr : registry.rebuild record = .ok machine) :
    verdict partition registry before bytes = .rebuilt record machine := by
  simp [verdict, hd, hp, hf, hr, Partition.contains]

end Loading

namespace Intact

variable {found : List Machine}

/-- Where all is intact, every record is judged to be so. -/
theorem exists_rebuilt (h : Intact partition index records registry found) {v : Verdict}
    (hv : v ∈ Loading.verdicts partition registry [] records) :
    ∃ record machine, v = .rebuilt record machine ∧
      Loading.indexDispute? index record = none := by
  obtain ⟨before, bytes, after, heq, rfl⟩ := Loading.mem_verdicts.mp hv
  have hd := h.decoded
  have hn := h.distinct
  rw [heq, List.map_append, List.map_cons] at hd
  obtain ⟨front, rest, rfl, hfront, hrest⟩ := List.map_eq_append_iff.mp hd.symm
  obtain ⟨record, back, rfl, hrecord, -⟩ := List.map_eq_cons_iff.mp hrest
  have hm : record ∈ front ++ record :: back := List.mem_append_right _ List.mem_cons_self
  obtain ⟨machine, hr⟩ : ∃ machine, registry.rebuild record = .ok machine := by
    have hok := h.rebuilt record hm
    cases hr : registry.rebuild record with
    | ok machine => exact ⟨machine, rfl⟩
    | error cause =>
      rw [hr] at hok
      cases hok
  have hfirst : recordFor? before record.location = none := by
    refine recordFor?_eq_none.mpr fun b hb other hother hl => ?_
    have hmem := (mem_found hfront.symm).mpr ⟨b, hb, hother⟩
    rw [List.map_append, List.map_cons] at hn
    exact (List.nodup_append.mp hn).2.2 _ (List.mem_map_of_mem hmem) _ List.mem_cons_self hl
  refine ⟨record, machine, ?_, ?_⟩
  · exact Loading.verdict_of_rebuilt hrecord.symm (h.inside record hm) hfirst hr
  · exact Loading.indexDispute?_eq_none.mpr ((h.indexed _ _).mpr ⟨record, hm, rfl, rfl⟩)

end Intact

namespace LoadedChunk.Brought

variable {generation : Nat} {preserve : Bool} {outcome : LoadedChunk × LoadReport}

theorem exists_intact (h : Brought partition generation index records registry preserve outcome)
    (hclean : outcome.2.isClean = true) :
    ∃ found, Intact partition index records registry found := by
  obtain ⟨hu, hf, hmissing, hi, -⟩ := LoadReport.isClean_iff.mp hclean
  obtain ⟨found, hd, hn, hfound⟩ :=
    exists_found fun before bytes after heq => h.exists_rebuilt hf hu heq
  have hlisted {record : Machine} (hr : record ∈ found) :
      index.get? record.location = some record.typeTag := by
    obtain ⟨bytes, hb, hdecode⟩ := (Intact.mem_found hd).mp hr
    obtain ⟨before, after, heq⟩ := List.append_of_mem hb
    obtain ⟨record', machine, hdecode', hp, hfirst, hbuilt⟩ := h.exists_rebuilt hf hu heq
    cases hdecode.symm.trans hdecode'
    rw [h.report] at hi
    have hv := Loading.countP_verdicts_eq_zero.mp hi before bytes after heq
    rw [Loading.verdict_of_rebuilt hdecode hp hfirst hbuilt] at hv
    rw [Verdict.isDisputed, Option.isSome_eq_false_iff, Option.isNone_iff_eq_none] at hv
    exact Loading.indexDispute?_eq_none.mp hv
  refine ⟨found, hd, hn, fun r hr => (hfound r hr).1, fun r hr => (hfound r hr).2, ?_⟩
  intro block tag
  constructor
  · intro hget
    have hfilled : block.partition = partition ∧ (recordFor? records block).isSome := by
      by_contra hn
      have hm := (h.missing block).mpr ⟨by rw [hget]; rfl, hn⟩
      rw [hmissing] at hm
      cases hm
    obtain ⟨bytes, hb, record, hdecode, rfl⟩ := isSome_recordFor?.mp hfilled.2
    have hr := (Intact.mem_found hd).mpr ⟨bytes, hb, hdecode⟩
    exact ⟨record, hr, rfl, Option.some.inj ((hlisted hr).symm.trans hget)⟩
  · rintro ⟨record, hr, rfl, rfl⟩
    exact hlisted hr

theorem isClean_of_intact {found : List Machine}
    (h : Brought partition generation index records registry preserve outcome)
    (hintact : Intact partition index records registry found) : outcome.2.isClean = true := by
  rw [LoadReport.isClean_iff, h.report]
  refine ⟨?_, ?_, ?_, ?_, rfl⟩
  · refine List.filterMap_eq_nil_iff.mpr fun v hv => ?_
    obtain ⟨record, machine, rfl, -⟩ := hintact.exists_rebuilt hv
    rfl
  · refine List.countP_eq_zero.mpr fun v hv => ?_
    obtain ⟨record, machine, rfl, -⟩ := hintact.exists_rebuilt hv
    exact Bool.false_ne_true
  · refine List.eq_nil_iff_forall_not_mem.mpr fun block hm => ?_
    obtain ⟨hsome, hno⟩ := (h.missing block).mp hm
    obtain ⟨tag, hget⟩ := Option.isSome_iff_exists.mp hsome
    obtain ⟨record, hr, rfl, -⟩ := (hintact.indexed block tag).mp hget
    obtain ⟨bytes, hb, hdecode⟩ := (Intact.mem_found hintact.decoded).mp hr
    exact hno ⟨hintact.inside record hr, isSome_recordFor?.mpr ⟨bytes, hb, record, hdecode, rfl⟩⟩
  · refine List.countP_eq_zero.mpr fun v hv => ?_
    obtain ⟨record, machine, rfl, hnone⟩ := hintact.exists_rebuilt hv
    rw [Verdict.isDisputed, hnone]
    exact Bool.false_ne_true

/-- A report is clean exactly if the partition is intact. -/
theorem isClean_iff (h : Brought partition generation index records registry preserve outcome) :
    outcome.2.isClean = true ↔ ∃ found, Intact partition index records registry found :=
  ⟨h.exists_intact, fun ⟨_, hintact⟩ => h.isClean_of_intact hintact⟩

end LoadedChunk.Brought

/-- Whatever is stored for a partition, a load accounts for all of it. -/
theorem accounted_load (partition : Partition) (generation : Nat) (index : ChunkIndex)
    (records : List Bytes) (registry : Registry) (preserve : Bool) :
    Accounted partition index records registry preserve
      (LoadedChunk.load partition generation index records registry preserve).value := by
  have h := LoadedChunk.brought_load partition generation index records registry preserve
  have hcounted := Loading.counted_foldl partition generation index registry preserve records
  have hchunk : (LoadedChunk.load partition generation index records registry preserve).value.1 =
      (records.foldl (fun l bytes => (Loading.add index registry preserve l bytes).value)
        (Loading.start partition generation)).chunk := by
    rw [LoadedChunk.load, Logged.value_bind, Logged.value_foldlM]
    rfl
  have hmissing := LoadedChunk.missingRecords_load partition generation index records registry
    preserve
  generalize (LoadedChunk.load partition generation index records registry preserve).value =
    outcome at h hchunk hmissing
  have hreport := h.report
  refine ⟨?_, ?_, h.slot, ?_, ?_, ?_, ?_, h.isClean_iff⟩
  · rw [hreport, ← Loading.length_verdicts [] records]
    exact Verdict.count_eq_length _
  · rw [hchunk, hcounted.machines, hreport]
    rfl
  · rw [h.dropped, Loading.verdicts_eq_map, List.filterMap_map]
    refine List.filterMap_congr fun arrival _ => ?_
    exact Loading.dropped?_eq_lost?
  · rw [hchunk, hcounted.raw, Loading.verdicts_eq_map, List.countP_map]
    cases preserve with
    | false => simp [Function.comp_def]
    | true => simp [Function.comp_def, Loading.isUnbuilt_verdict]
  · rw [hmissing]
    exact List.Pairwise.filter _ Std.ExtTreeMap.ordered_keys
  · intro block
    rw [h.missing, isSome_recordFor?]

end MachineVault
