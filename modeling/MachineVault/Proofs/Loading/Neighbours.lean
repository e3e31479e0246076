import MachineVault.Proofs.Loading
import MachineVault.Proofs.Record

/-! What one bad record costs the others. A record that is passed over shows in the report alone, as
a failure and where it can be read as dropped; one of which no machine comes changes nothing but the
block that it names. -/

namespace MachineVault

/-- A record that a load passes over: it cannot be read, it lies outside the partition, or a record
before it names the same block of the partition. -/
inductive Passed (partition : Partition) (before : List Bytes) (bytes : Bytes) : Prop
  | undecodable {cause : Error} (hd : Machine.decode bytes = .error cause)
  | outside {record : Machine} (hd : Machine.decode bytes = .ok record)
      (hp : record.location.partition ≠ partition)
  | repeated {record other : Machine} {earlier : Bytes} (hd : Machine.decode bytes = .ok record)
      (hp : record.location.partition = partition) (hm : earlier ∈ before)
      (he : Machine.decode earlier = .ok other) (hl : other.location = record.location)

/-- A load that differs from another one by a record that it has passed over. The third load ends
in front of that record. -/
structure PassesOver (bytes : Bytes) (outcome without front : LoadedChunk × LoadReport) : Prop where
  chunk : outcome.1 = without.1
  report : ∃ rest, without.2.dropped = front.2.dropped ++ rest ∧ outcome.2 = { without.2 with
    failedRecords := without.2.failedRecords + 1
    dropped := front.2.dropped ++ ((Machine.decode bytes).toOption.map fun record =>
      (record.id, record.location)).toList ++ rest }

section Passed

variable {partition : Partition} {before rest : List Bytes} {bytes : Bytes} {block : Block}

theorem recordFor?_snoc_of_ne (h : ∀ record, Machine.decode bytes = .ok record →
    record.location ≠ block) : recordFor? (before ++ [bytes]) block = recordFor? before block := by
  cases hd : Machine.decode bytes with
  | error cause => exact recordFor?_snoc_of_error hd
  | ok record => rw [recordFor?_snoc_of_ok hd, if_neg (h record hd)]

/-- What is read for the blocks of the partition is the same with and without the record. -/
theorem Passed.recordFor?_snoc (h : Passed partition before bytes)
    (hb : block.partition = partition) :
    recordFor? (before ++ [bytes]) block = recordFor? before block := by
  cases h with
  | undecodable hd => exact recordFor?_snoc_of_error hd
  | @outside record hd hp =>
    refine recordFor?_snoc_of_ne fun record' hd' => ?_
    cases hd.symm.trans hd'
    rintro rfl
    exact hp hb
  | repeated hd hp hm he hl =>
    rw [recordFor?_snoc_of_ok hd]
    split
    · rename_i hblock
      have hs := isSome_recordFor?.mpr ⟨_, hm, _, he, hl.trans hblock⟩
      rw [Option.or_of_isSome hs]
    · rfl

theorem recordFor?_insert (h : recordFor? (before ++ [bytes]) block = recordFor? before block) :
    recordFor? (before ++ bytes :: rest) block = recordFor? (before ++ rest) block := by
  rw [List.append_cons, recordFor?_append, h, ← recordFor?_append]

end Passed

namespace Loading

variable {partition : Partition} {generation : Nat} {index : ChunkIndex} {registry : Registry}
  {preserve : Bool} {before before' records : List Bytes} {bytes : Bytes}

/-- A verdict depends on the records before it only through what they say on the blocks of the
partition. -/
theorem verdict_congr (h : ∀ block : Block, block.partition = partition →
    recordFor? before block = recordFor? before' block) :
    verdict partition registry before bytes = verdict partition registry before' bytes := by
  unfold verdict
  cases Machine.decode bytes with
  | error cause => rfl
  | ok record =>
    dsimp only
    by_cases hp : partition.contains record.location = true
    · rw [h _ (of_decide_eq_true hp)]
    · rw [if_pos hp, if_pos hp]

theorem verdicts_congr (h : ∀ block : Block, block.partition = partition →
    recordFor? before block = recordFor? before' block) :
    verdicts partition registry before records = verdicts partition registry before' records := by
  induction records generalizing before before' with
  | nil => rfl
  | cons bytes rest ih =>
    have hsnoc (block : Block) (hb : block.partition = partition) :
        recordFor? (before ++ [bytes]) block = recordFor? (before' ++ [bytes]) block := by
      rw [recordFor?_append, h block hb, ← recordFor?_append]
    rw [verdicts, verdicts, verdict_congr h, ih hsnoc]

/-- A failure among other verdicts that is on a readable or on an unreadable record. -/
theorem tally_insert {v : Verdict} (hr : v.isRebuilt = false) (hu : v.unresolved? = none)
    (hf : v.isFailed = true) (hi : v.isDisputed index = false) (front back : List Verdict) :
    tally partition generation index preserve (front ++ v :: back) =
      { tally partition generation index preserve (front ++ back) with
        failedRecords := (tally partition generation index preserve (front ++ back)).failedRecords + 1
        dropped := front.filterMap (Verdict.dropped? preserve) ++ (v.dropped? preserve).toList ++
          back.filterMap (Verdict.dropped? preserve) } := by
  have hdropped : (v :: back).filterMap (Verdict.dropped? preserve) =
      (v.dropped? preserve).toList ++ back.filterMap (Verdict.dropped? preserve) := by
    rw [List.filterMap_cons]
    cases v.dropped? preserve <;> rfl
  simp only [tally, List.countP_append, List.countP_cons, List.filterMap_append, hdropped,
    List.filterMap_cons_none hu, hr, hf, hi, if_true, Bool.false_eq_true, if_false, Nat.add_zero,
    Nat.add_assoc, List.append_assoc]

/-- A record that is passed over is judged to be a failure, and dropped where it can be read. -/
theorem verdict_passed (h : Passed partition before bytes) (index : ChunkIndex)
    (registry : Registry) (preserve : Bool) :
    let v := verdict partition registry before bytes
    v.isRebuilt = false ∧ v.unresolved? = none ∧ v.isFailed = true ∧ v.isDisputed index = false ∧
      v.dropped? preserve =
        (Machine.decode bytes).toOption.map fun record => (record.id, record.location) := by
  have j := judged partition registry before bytes
  generalize verdict partition registry before bytes = v at j
  have hknown {record : Machine} (hd : Machine.decode bytes = .ok record)
      (hp : record.location.partition = partition) :
      recordFor? before record.location ≠ none := fun hf => by
    have hsnoc := h.recordFor?_snoc hp
    rw [recordFor?_snoc_of_ok hd, if_pos rfl, hf] at hsnoc
    cases hsnoc
  cases j with
  | undecodable hd | outside hd | repeated hd =>
    rw [hd]
    exact ⟨rfl, rfl, rfl, rfl, rfl⟩
  | rebuilt hd hp hf | unbuilt hd hp hf => exact absurd hf (hknown hd hp)

end Loading

namespace LoadedChunk

variable {partition : Partition} {before : List Bytes} {bytes : Bytes}

theorem chunk_passed (h : Passed partition before bytes) (generation : Nat) (index : ChunkIndex)
    (rest : List Bytes) (registry : Registry) (preserve : Bool) :
    (load partition generation index (before ++ bytes :: rest) registry preserve).value.1 =
      (load partition generation index (before ++ rest) registry preserve).value.1 := by
  have b := brought_load partition generation index (before ++ bytes :: rest) registry preserve
  have b' := brought_load partition generation index (before ++ rest) registry preserve
  refine ext_slot? ?_ ?_ ?_ fun block => ?_
  · exact b.identity.1.trans b'.identity.1.symm
  · exact b.identity.2.trans b'.identity.2.symm
  · rw [persisted_load, persisted_load]
  · rw [b.slot, b'.slot]
    split
    · rename_i hb
      rw [slotFor?, slotFor?, recordFor?_insert (h.recordFor?_snoc hb)]
    · rfl

theorem missingRecords_passed (h : Passed partition before bytes) (generation : Nat)
    (index : ChunkIndex) (rest : List Bytes) (registry : Registry) (preserve : Bool) :
    (load partition generation index (before ++ bytes :: rest) registry
        preserve).value.2.missingRecords =
      (load partition generation index (before ++ rest) registry
        preserve).value.2.missingRecords := by
  rw [missingRecords_load, missingRecords_load]
  refine List.filter_congr fun block _ => decide_eq_decide.mpr (not_congr ?_)
  exact and_congr_right fun hb => by rw [recordFor?_insert (h.recordFor?_snoc hb)]

theorem passesOver_load (h : Passed partition before bytes) (generation : Nat)
    (index : ChunkIndex) (rest : List Bytes) (registry : Registry) (preserve : Bool) :
    PassesOver bytes
      (load partition generation index (before ++ bytes :: rest) registry preserve).value
      (load partition generation index (before ++ rest) registry preserve).value
      (load partition generation index before registry preserve).value := by
  have b := brought_load partition generation index (before ++ bytes :: rest) registry preserve
  have b' := brought_load partition generation index (before ++ rest) registry preserve
  have hfront := (brought_load partition generation index before registry preserve).dropped
  obtain ⟨hr, hu, hf, hi, hd⟩ := Loading.verdict_passed h index registry preserve
  have hrest : Loading.verdicts partition registry (before ++ [bytes]) rest =
      Loading.verdicts partition registry before rest :=
    Loading.verdicts_congr fun block hb => h.recordFor?_snoc hb
  refine ⟨chunk_passed h generation index rest registry preserve,
    (Loading.verdicts partition registry before rest).filterMap (Verdict.dropped? preserve), ?_, ?_⟩
  · rw [b'.dropped, hfront, Loading.verdicts_append]
    exact List.filterMap_append
  · rw [b.report, b'.report, missingRecords_passed h, hfront, Loading.verdicts_append,
      Loading.verdicts_append, List.nil_append, Loading.verdicts, hrest,
      Loading.tally_insert hr hu hf hi, hd]

/-- One bad record leaves its neighbours alone. If it is passed over, it changes no more than the
count of failures and the list of what is dropped; and whatever becomes of a record that can be
read, it changes no block but its own. -/
theorem neighbours_spared (partition : Partition) (generation : Nat) (index : ChunkIndex)
    (registry : Registry) (preserve : Bool) (before : List Bytes) (bytes : Bytes)
    (rest : List Bytes) :
    (Passed partition before bytes → PassesOver bytes
      (load partition generation index (before ++ bytes :: rest) registry preserve).value
      (load partition generation index (before ++ rest) registry preserve).value
      (load partition generation index before registry preserve).value) ∧
    ∀ record, Machine.decode bytes = .ok record → ∀ block, block ≠ record.location →
      (load partition generation index (before ++ bytes :: rest) registry
          preserve).value.1.slot? block =
        (load partition generation index (before ++ rest) registry
          preserve).value.1.slot? block := by
  refine ⟨fun h => passesOver_load h generation index rest registry preserve, ?_⟩
  intro record hd block hb
  have hsnoc : recordFor? (before ++ [bytes]) block = recordFor? before block :=
    recordFor?_snoc_of_ne fun record' hd' => by
      cases hd.symm.trans hd'
      exact hb.symm
  rw [(brought_load ..).slot, (brought_load ..).slot, slotFor?, slotFor?, recordFor?_insert hsnoc]

/-- Two machines of a type for which there is no factory. -/
def relic : Machine := ⟨.ofRandom 1, "relic", ⟨"world", 8, 5, 8⟩, .null⟩

def idol : Machine := ⟨.ofRandom 2, "relic", ⟨"world", 1, 5, 1⟩, .null⟩

theorem decode_relic : Machine.decode relic.encode = .ok relic := by
  have h := Machine.decode_encode relic [] (by decide +kernel)
  rw [List.append_nil] at h
  exact h.trans (if_pos (by decide +kernel))

theorem neighbours_spared_relic :
    Passed relic.location.partition [relic.encode] relic.encode ∧
    PassesOver relic.encode
      (load relic.location.partition 1 ⟨⟨0, 0⟩, ∅⟩ ([relic.encode] ++ [relic.encode, idol.encode]) {}
        true).value
      (load relic.location.partition 1 ⟨⟨0, 0⟩, ∅⟩ ([relic.encode] ++ [idol.encode]) {} true).value
      (load relic.location.partition 1 ⟨⟨0, 0⟩, ∅⟩ [relic.encode] {} true).value ∧
    (load relic.location.partition 1 ⟨⟨0, 0⟩, ∅⟩ ([] ++ [relic.encode, idol.encode]) {}
        true).value.1.slot? idol.location =
      (load relic.location.partition 1 ⟨⟨0, 0⟩, ∅⟩ ([] ++ [idol.encode]) {}
        true).value.1.slot? idol.location := by
  have hpassed : Passed relic.location.partition [relic.encode] relic.encode :=
    .repeated decode_relic rfl List.mem_cons_self decode_relic rfl
  refine ⟨hpassed, (neighbours_spared ..).1 hpassed, ?_⟩
  exact (neighbours_spared _ _ _ _ _ [] relic.encode [idol.encode]).2 relic decode_relic
    idol.location (by decide +kernel)

end LoadedChunk

end MachineVault
