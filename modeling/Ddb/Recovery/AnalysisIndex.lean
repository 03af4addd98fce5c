import Ddb.Recovery.Redo
import Ddb.Storage.WalCodec

/-!
# What the analysis says of a log

The analysis fills four containers in one pass over the records: two lists of decoded entries, a map of the transactions, and
in each of its entries the positions of the transaction's own records in the lists. REDO looks the entries up again by LSN and
transaction. The log reader has refused LSNs that do not increase, so an entry that is found is the one of its record.
-/

namespace Ddb.Recovery

open Ddb.Lib Ddb.Storage

variable {records : List WalRecord} {record : WalRecord} {state : RecoveryState}

/-- The positions of a list, dealt out by owner: each owner has its own, in order. -/
structure DealtOut {α : Type} (entries : List α) (owner : α → Nat) (positions : Nat → List Nat) : Prop where
  ascending : ∀ id, (positions id).Pairwise (· < ·)
  own : ∀ id, ∀ i ∈ positions id, ∃ entry, entries[i]? = some entry ∧ owner entry = id
  whole : ∀ i, i < entries.length → ∃! id, i ∈ positions id

theorem mem_findIdxs {α : Type} {entries : List α} {owner : α → Nat} {id i : Nat} :
    i ∈ entries.findIdxs (fun entry => owner entry = id) ↔ ∃ entry, entries[i]? = some entry ∧ owner entry = id := by
  rw [List.mem_findIdxs_iff_exists_getElem_pos]
  constructor
  · rintro ⟨hi, howner⟩
    exact ⟨entries[i], List.getElem?_eq_getElem hi, of_decide_eq_true howner⟩
  · rintro ⟨entry, hentry, rfl⟩
    obtain ⟨hi, rfl⟩ := List.getElem?_eq_some_iff.mp hentry
    exact ⟨hi, decide_eq_true rfl⟩

theorem dealtOut_findIdxs {α : Type} (entries : List α) (owner : α → Nat) :
    DealtOut entries owner fun id => entries.findIdxs fun entry => owner entry = id where
  ascending _ := List.pairwise_findIdxs
  own _ _ hmem := mem_findIdxs.mp hmem
  whole i hi := by
    refine ⟨owner entries[i], mem_findIdxs.mpr ⟨_, List.getElem?_eq_getElem hi, rfl⟩, fun id hid => ?_⟩
    obtain ⟨entry, hentry, rfl⟩ := mem_findIdxs.mp hid
    rw [List.getElem?_eq_getElem hi] at hentry
    rw [Option.some.inj hentry]

/-- The positions that the analysis has noted for a transaction. -/
def RecoveryState.allocationIndexes (state : RecoveryState) (id : Nat) : List Nat :=
  ((state.transaction id).map TransactionAnalysis.allocationIndexes).getD []

def RecoveryState.mutationIndexes (state : RecoveryState) (id : Nat) : List Nat :=
  ((state.transaction id).map TransactionAnalysis.mutationIndexes).getD []

/-- A transaction without an entry has no positions. -/
theorem Analyzed.indexes (h : Analyzed records state) (id : Nat) :
    state.allocationIndexes id = (allocationsIn records).findIdxs (fun entry => entry.transactionId = id) ∧
    state.mutationIndexes id = (mutationsIn records).findIdxs fun entry => entry.transactionId = id := by
  have hsummary : state.allocationIndexes id = (summary records id).allocationIndexes ∧
      state.mutationIndexes id = (summary records id).mutationIndexes := by
    rw [RecoveryState.allocationIndexes, RecoveryState.mutationIndexes, h.transaction id]
    cases hmentions : mentions records id with
    | true => exact ⟨rfl, rfl⟩
    | false =>
      rw [summary_of_not_mentions hmentions]
      exact ⟨rfl, rfl⟩
  exact hsummary

theorem has_iff {type : WalRecordType} {id : Nat} :
    has type records id = true ↔ ∃ record ∈ records, record.type = type ∧ record.transactionId = id := by
  simp [has]

/-- The entry of a transaction, as the log has it. -/
theorem Analyzed.of_transaction (h : Analyzed records state)
    (hends : ∀ id, ¬ (has .commit records id = true ∧ has .abort records id = true)) {id : Nat}
    {transaction : TransactionAnalysis} (htransaction : state.transaction id = some transaction) :
    transaction.transactionId = id ∧
    (transaction.status = .committed ↔ ∃ record ∈ records, record.type = .commit ∧ record.transactionId = id) ∧
    (transaction.status = .aborted ↔ ∃ record ∈ records, record.type = .abort ∧ record.transactionId = id) := by
  have hid := hends id
  rw [h.transaction id] at htransaction
  split at htransaction
  · obtain rfl := Option.some.inj htransaction
    rw [← has_iff, ← has_iff]
    refine ⟨rfl, ?_⟩
    simp only [RecoveryAnalyzer.classify, summary]
    by_cases hcommit : has .commit records id = true
    · simp [hcommit, show ¬ has .abort records id = true from fun habort => hid ⟨hcommit, habort⟩]
    · by_cases habort : has .abort records id = true
      · simp [hcommit, habort]
      · simp [hcommit, habort]
  · cases htransaction

/-- REDO of a record, told by the record alone. -/
def redoDecoded (records : List WalRecord) (record : WalRecord) : ReplayOp Unit :=
  match allocating records record, writing records record with
  | some page, _ => do let _ ← ReplayContext.redoPageAllocate page
  | none, some mutation => do let _ ← ReplayContext.redoPhysicalMutation record.lsn mutation
  | none, none => pure ()

theorem forM_congr {body body' : WalRecord → ReplayOp Unit} (h : ∀ record ∈ records, body record = body' record) :
    records.forM body = records.forM body' := by
  induction records with
  | nil => rfl
  | cons record rest ih =>
    obtain ⟨hrecord, hrest⟩ := List.forall_mem_cons.mp h
    change (do body record; rest.forM body) = (do body' record; rest.forM body')
    rw [hrecord, ih hrest]

/-- Decoded entries come in the order of their records. -/
theorem pairwise_filterMap {α : Type} {lsn : α → Nat} {of : WalRecord → Option α}
    (hof : ∀ record entry, of record = some entry → lsn entry = record.lsn)
    (h : records.Pairwise fun a b => a.lsn < b.lsn) : (records.filterMap of).Pairwise fun a b => lsn a < lsn b := by
  rw [List.pairwise_filterMap]
  refine h.imp fun hlt a ha b hb => ?_
  rwa [hof _ _ ha, hof _ _ hb]

/-- The lookup of a record's entry, by LSN and transaction. -/
def FindsOwn (state : RecoveryState) (record : WalRecord) : Prop :=
  (record.type = .pageAllocate → ∃ page, LogManager.decodePageAllocate record.payload = .ok page ∧
    (state.allocations.find? fun entry => entry.lsn = record.lsn ∧ entry.transactionId = record.transactionId) =
      some ⟨record.lsn, record.transactionId, page⟩) ∧
  (record.type = .physicalMutation → ∃ mutation, LogManager.decodePhysicalMutation record.payload = .ok mutation ∧
    (state.mutations.find? fun entry => entry.lsn = record.lsn ∧ entry.transactionId = record.transactionId) =
      some ⟨record.lsn, record.transactionId, mutation⟩)

theorem Analyzed.findsOwn (h : Analyzed records state) (hascending : records.Pairwise fun a b => a.lsn < b.lsn)
    (hmem : record ∈ records) (hdecodable : Decodable record) : FindsOwn state record := by
  constructor
  · intro htype
    simp only [Decodable, htype] at hdecodable
    obtain ⟨page, hdecode⟩ := hdecodable
    refine ⟨page, hdecode, ?_⟩
    rw [h.allocations]
    exact find_allocation hascending hmem (by rw [allocationOf, if_pos htype, hdecode]; rfl)
  · intro htype
    simp only [Decodable, htype] at hdecodable
    obtain ⟨mutation, hdecode⟩ := hdecodable
    refine ⟨mutation, hdecode, ?_⟩
    rw [h.mutations]
    exact find_mutation hascending hmem (by rw [mutationOf, if_pos htype, hdecode]; rfl)

/-- The analysis of a log that can be read. Two ends of one transaction are refused. Otherwise the lists are the decoded records
in the order of their LSNs, the positions are dealt out to the transactions, the status is the end that the log has, and every
lookup of REDO finds the entry of its own record: REDO runs as if it decoded each record itself. -/
theorem analysis_faithful {file : Bytes} (hread : LogManager.readRecords file = .ok records) :
    (∀ id, (∃ record ∈ records, record.type = .commit ∧ record.transactionId = id) →
      (∃ record ∈ records, record.type = .abort ∧ record.transactionId = id) →
      ∀ state, RecoveryAnalyzer.analyze records ≠ .ok state) ∧
    ∀ state, RecoveryAnalyzer.analyze records = .ok state →
      (state.mutations = mutationsIn records ∧ state.mutations.Pairwise fun a b => a.lsn < b.lsn) ∧
      (state.allocations = allocationsIn records ∧ state.allocations.Pairwise fun a b => a.lsn < b.lsn) ∧
      DealtOut state.mutations MutationRecord.transactionId state.mutationIndexes ∧
      DealtOut state.allocations AllocationRecord.transactionId state.allocationIndexes ∧
      (∀ record ∈ records, (state.transaction record.transactionId).isSome) ∧
      (∀ id transaction, state.transaction id = some transaction → transaction.transactionId = id ∧
        (transaction.status = .committed ↔ ∃ record ∈ records, record.type = .commit ∧ record.transactionId = id) ∧
        (transaction.status = .aborted ↔ ∃ record ∈ records, record.type = .abort ∧ record.transactionId = id)) ∧
      (∀ record ∈ records, FindsOwn state record) ∧
      RedoEngine.run state = records.forM (redoDecoded records) := by
  have hascending : records.Pairwise fun a b => a.lsn < b.lsn := (LogManager.readRecords_ordered hread).1
  refine ⟨fun id hcommit habort state hok => ?_, fun state hok => ?_⟩
  · exact (analyze_ok hok).2 id ⟨has_iff.mpr hcommit, has_iff.mpr habort⟩
  · obtain ⟨hstate, hends⟩ := analyze_ok hok
    have hdecodable := (analyze_succeeds_iff.mp ⟨state, hok⟩).1
    have hmutations := pairwise_filterMap (fun _ _ hof => (mutationOf_eq_some hof).2.2.1) hascending
    have hallocations := pairwise_filterMap (fun _ _ hof => (allocationOf_eq_some hof).2.2.1) hascending
    refine ⟨⟨hstate.mutations, hstate.mutations ▸ hmutations⟩, ⟨hstate.allocations, hstate.allocations ▸ hallocations⟩,
      ?_, ?_, fun record hmem => ?_, fun id transaction => hstate.of_transaction hends,
      fun record hmem => hstate.findsOwn hascending hmem (hdecodable record hmem), ?_⟩
    · rw [hstate.mutations, show state.mutationIndexes = _ from funext fun id => (hstate.indexes id).2]
      exact dealtOut_findIdxs _ _
    · rw [hstate.allocations, show state.allocationIndexes = _ from funext fun id => (hstate.indexes id).1]
      exact dealtOut_findIdxs _ _
    · obtain ⟨transaction, htransaction, -⟩ := hstate.status (List.any_eq_true.mpr ⟨record, hmem, decide_eq_true rfl⟩)
      rw [htransaction]
      rfl
    · rw [RedoEngine.run, hstate.records]
      exact forM_congr fun record hmem => redoRecord_eq hstate hascending hmem (hdecodable record hmem)

/-- Two transactions, one at its end; the first has written after the second. -/
def interleaved : List WalRecord :=
  [⟨1, 1, .begin, []⟩, ⟨2, 2, .begin, []⟩, ⟨3, 2, .pageAllocate, leBytes 8 1⟩, ⟨4, 1, .pageAllocate, leBytes 8 0⟩,
    ⟨5, 2, .commit, []⟩]

theorem interleaved_analyzed : ∃ state, RecoveryAnalyzer.analyze interleaved = .ok state ∧
    state.allocationIndexes 2 = [0] ∧ ∀ record ∈ interleaved, FindsOwn state record := by
  have hread : LogManager.readRecords (LogManager.fileOf interleaved) = .ok interleaved := by decide +kernel
  have hchecks : ((RecoveryAnalyzer.analyze interleaved).map fun state => state.allocationIndexes 2).toOption = some [0] := by
    decide +kernel
  cases hanalyze : RecoveryAnalyzer.analyze interleaved with
  | error e =>
    rw [hanalyze] at hchecks
    cases hchecks
  | ok state =>
    rw [hanalyze] at hchecks
    exact ⟨state, rfl, Option.some.inj hchecks, ((analysis_faithful hread).2 state hanalyze).2.2.2.2.2.2.1⟩

end Ddb.Recovery
