import Mathlib.Data.List.Basic
import Ddb.Storage.LogManager

/-!
# Recovery analysis

One pass over the records of a log: allocations and mutations are decoded and put into two lists, and every transaction that
has a record gets an entry with what is known of its end and with the positions of its allocations and mutations. A log in
which a transaction has both a COMMIT and an ABORT record is refused.

`std::map` is a tree map, which is walked in the order of its keys. The counters and the time of the pass are left out.
-/

namespace Ddb.Recovery

open Ddb.Lib Ddb.Storage Std

inductive TransactionStatus where
  | committed
  | aborted
  | incomplete
  deriving DecidableEq, Repr

structure AllocationRecord where
  lsn : Nat
  transactionId : Nat
  pageId : PageId
  deriving DecidableEq

structure MutationRecord where
  lsn : Nat
  transactionId : Nat
  mutation : PhysicalMutation
  deriving DecidableEq

structure TransactionAnalysis where
  transactionId : Nat
  status : TransactionStatus
  began : Bool
  committed : Bool
  aborted : Bool
  allocationIndexes : List Nat
  mutationIndexes : List Nat
  deriving DecidableEq

/-- A default-constructed entry, with its id. -/
def TransactionAnalysis.blank (id : Nat) : TransactionAnalysis := ⟨id, .incomplete, false, false, false, [], []⟩

structure RecoveryState where
  records : List WalRecord
  allocations : List AllocationRecord
  mutations : List MutationRecord
  transactions : TreeMap Nat TransactionAnalysis

namespace RecoveryState

def transaction (state : RecoveryState) (id : Nat) : Option TransactionAnalysis := state.transactions[id]?

def put (state : RecoveryState) (transaction : TransactionAnalysis) : RecoveryState :=
  { state with transactions := state.transactions.insert transaction.transactionId transaction }

end RecoveryState

namespace RecoveryAnalyzer

def validateEmptyPayload (record : WalRecord) : Except Err Unit :=
  if record.payload ≠ [] then .error (.wal "terminal WAL record has a payload") else .ok ()

/-- The loop body. -/
def analyzeRecord (state : RecoveryState) (record : WalRecord) : Except Err RecoveryState := do
  let transaction := (state.transactions[record.transactionId]?).getD (.blank record.transactionId)
  match record.type with
  | .begin =>
    validateEmptyPayload record
    return state.put { transaction with began := true }
  | .commit =>
    validateEmptyPayload record
    return state.put { transaction with committed := true }
  | .abort =>
    validateEmptyPayload record
    return state.put { transaction with aborted := true }
  | .pageAllocate =>
    let page ← LogManager.decodePageAllocate record.payload
    return { state.put { transaction with
        allocationIndexes := transaction.allocationIndexes ++ [state.allocations.length] } with
      allocations := state.allocations ++ [⟨record.lsn, record.transactionId, page⟩] }
  | .physicalMutation =>
    let mutation ← LogManager.decodePhysicalMutation record.payload
    return { state.put { transaction with
        mutationIndexes := transaction.mutationIndexes ++ [state.mutations.length] } with
      mutations := state.mutations ++ [⟨record.lsn, record.transactionId, mutation⟩] }

def conflicting (transaction : TransactionAnalysis) : Bool := transaction.committed && transaction.aborted

def classify (transaction : TransactionAnalysis) : TransactionAnalysis :=
  { transaction with
    status := if transaction.committed then .committed else if transaction.aborted then .aborted else .incomplete }

/-- `analyze`, on the records that `read_records` returns. -/
def analyze (records : List WalRecord) : Except Err RecoveryState := do
  let state ← records.foldlM analyzeRecord ⟨records, [], [], ∅⟩
  if state.transactions.toList.any fun entry => conflicting entry.2 then
    throw (.wal "transaction has conflicting terminal WAL records")
  return { state with transactions := state.transactions.map fun _ => classify }

end RecoveryAnalyzer

/-! ## What a log says -/

variable {records done : List WalRecord} {record : WalRecord} {state state' : RecoveryState} {id : Nat}

def allocationOf (record : WalRecord) : Option AllocationRecord :=
  if record.type = .pageAllocate then
    (LogManager.decodePageAllocate record.payload).toOption.map fun page => ⟨record.lsn, record.transactionId, page⟩
  else none

def mutationOf (record : WalRecord) : Option MutationRecord :=
  if record.type = .physicalMutation then
    (LogManager.decodePhysicalMutation record.payload).toOption.map fun mutation =>
      ⟨record.lsn, record.transactionId, mutation⟩
  else none

def allocationsIn (records : List WalRecord) : List AllocationRecord := records.filterMap allocationOf

def mutationsIn (records : List WalRecord) : List MutationRecord := records.filterMap mutationOf

/-- The log has a record of this type of the transaction. -/
def has (type : WalRecordType) (records : List WalRecord) (id : Nat) : Bool :=
  records.any fun record => record.type = type ∧ record.transactionId = id

/-- The log has a record of the transaction. -/
def mentions (records : List WalRecord) (id : Nat) : Bool := records.any fun record => record.transactionId = id

/-- What the records of a transaction add up to. -/
def summary (records : List WalRecord) (id : Nat) : TransactionAnalysis where
  transactionId := id
  status := .incomplete
  began := has .begin records id
  committed := has .commit records id
  aborted := has .abort records id
  allocationIndexes := (allocationsIn records).findIdxs fun entry => entry.transactionId = id
  mutationIndexes := (mutationsIn records).findIdxs fun entry => entry.transactionId = id

/-- The payload is one that the analysis accepts for the type. -/
def Decodable (record : WalRecord) : Prop :=
  match record.type with
  | .pageAllocate => ∃ page, LogManager.decodePageAllocate record.payload = .ok page
  | .physicalMutation => ∃ mutation, LogManager.decodePhysicalMutation record.payload = .ok mutation
  | _ => record.payload = []

/-- The state of the pass over `records` when it has seen `done`. -/
structure Gathered (records done : List WalRecord) (state : RecoveryState) : Prop where
  records : state.records = records
  allocations : state.allocations = allocationsIn done
  mutations : state.mutations = mutationsIn done
  transactions : ∀ id, state.transactions[id]? = if mentions done id then some (summary done id) else none

theorem has_append (type : WalRecordType) : has type (done ++ [record]) id =
    (has type done id || decide (record.type = type ∧ record.transactionId = id)) := by
  simp [has]

theorem mentions_append : mentions (done ++ [record]) id = (mentions done id || decide (record.transactionId = id)) := by
  simp [mentions]

theorem allocationsIn_append : allocationsIn (done ++ [record]) = allocationsIn done ++ (allocationOf record).toList := by
  rw [allocationsIn, List.filterMap_append, allocationsIn]
  cases h : allocationOf record <;> simp [h]

theorem mutationsIn_append : mutationsIn (done ++ [record]) = mutationsIn done ++ (mutationOf record).toList := by
  rw [mutationsIn, List.filterMap_append, mutationsIn]
  cases h : mutationOf record <;> simp [h]

/-- A transaction without a record has an empty summary. -/
theorem summary_of_not_mentions (h : mentions done id = false) : summary done id = .blank id := by
  have hnone : ∀ record ∈ done, record.transactionId ≠ id := by
    simpa [mentions] using h
  have hhas : ∀ type, has type done id = false := by
    intro type
    simp only [has, List.any_eq_false]
    intro record hmem
    simp [hnone record hmem]
  have hallocations : ∀ entry ∈ allocationsIn done, entry.transactionId ≠ id := by
    intro entry hentry
    obtain ⟨record, hmem, hof⟩ := List.mem_filterMap.mp hentry
    rw [allocationOf] at hof
    split at hof
    · obtain ⟨page, -, rfl⟩ := Option.map_eq_some_iff.mp hof
      exact hnone record hmem
    · cases hof
  have hmutations : ∀ entry ∈ mutationsIn done, entry.transactionId ≠ id := by
    intro entry hentry
    obtain ⟨record, hmem, hof⟩ := List.mem_filterMap.mp hentry
    rw [mutationOf] at hof
    split at hof
    · obtain ⟨mutation, -, rfl⟩ := Option.map_eq_some_iff.mp hof
      exact hnone record hmem
    · cases hof
  rw [summary, hhas, hhas, hhas, List.findIdxs_eq_nil_iff.mpr fun entry hentry => decide_eq_false (hallocations entry hentry),
    List.findIdxs_eq_nil_iff.mpr fun entry hentry => decide_eq_false (hmutations entry hentry)]
  rfl

/-- The entry the pass updates is the summary so far. -/
theorem Gathered.entry (h : Gathered records done state) (id : Nat) : (state.transactions[id]?).getD (.blank id) = summary done id := by
  rw [h.transactions id]
  cases hmentions : mentions done id with
  | true => rfl
  | false => exact (summary_of_not_mentions hmentions).symm

/-- A record changes the summary of its own transaction only. -/
theorem summary_append_of_ne (hne : record.transactionId ≠ id) : summary (done ++ [record]) id = summary done id := by
  have hallocation : ∀ entry ∈ (allocationOf record).toList, decide (entry.transactionId = id) = false := by
    intro entry hentry
    rw [Option.mem_toList, allocationOf] at hentry
    split at hentry
    · obtain ⟨page, -, rfl⟩ := Option.map_eq_some_iff.mp hentry
      exact decide_eq_false hne
    · cases hentry
  have hmutation : ∀ entry ∈ (mutationOf record).toList, decide (entry.transactionId = id) = false := by
    intro entry hentry
    rw [Option.mem_toList, mutationOf] at hentry
    split at hentry
    · obtain ⟨mutation, -, rfl⟩ := Option.map_eq_some_iff.mp hentry
      exact decide_eq_false hne
    · cases hentry
  simp only [summary, has_append, hne, and_false, decide_false, Bool.or_false, allocationsIn_append, mutationsIn_append,
    List.findIdxs_append, List.findIdxs_eq_nil_iff.mpr hallocation, List.findIdxs_eq_nil_iff.mpr hmutation, List.append_nil]

/-- The common part of the five cases: the entry of the record's transaction is replaced by its new summary. -/
theorem Gathered.put (h : Gathered records done state) {transaction : TransactionAnalysis}
    (htransaction : transaction = summary (done ++ [record]) record.transactionId)
    (hallocations : state'.allocations = allocationsIn (done ++ [record]))
    (hmutations : state'.mutations = mutationsIn (done ++ [record]))
    (hrecords : state'.records = state.records)
    (htransactions : state'.transactions = (state.put transaction).transactions) :
    Gathered records (done ++ [record]) state' := by
  refine ⟨hrecords.trans h.records, hallocations, hmutations, fun id => ?_⟩
  rw [htransactions, RecoveryState.put, TreeMap.getElem?_insert, htransaction, mentions_append]
  by_cases heq : record.transactionId = id
  · subst heq
    simp [summary]
  · have hcompare : compare (summary (done ++ [record]) record.transactionId).transactionId id ≠ .eq := by
      simpa [summary] using heq
    rw [if_neg hcompare, h.transactions id, summary_append_of_ne heq]
    simp [heq]

theorem Gathered.step (h : Gathered records done state) (hrun : RecoveryAnalyzer.analyzeRecord state record = .ok state') :
    Gathered records (done ++ [record]) state' := by
  obtain ⟨lsn, t, type, payload⟩ := record
  rw [RecoveryAnalyzer.analyzeRecord] at hrun
  dsimp only at hrun
  rw [h.entry t] at hrun
  cases type with
  | pageAllocate =>
    cases hdecode : LogManager.decodePageAllocate payload with
    | error e => simp [hdecode, bind, Except.bind] at hrun
    | ok page =>
      have hof : allocationOf ⟨lsn, t, .pageAllocate, payload⟩ = some ⟨lsn, t, page⟩ := by
        simp [allocationOf, hdecode, Except.toOption]
      have hnone : mutationOf ⟨lsn, t, .pageAllocate, payload⟩ = none := if_neg nofun
      simp only [hdecode, bind, Except.bind, pure, Except.pure, Except.ok.injEq] at hrun
      subst hrun
      refine h.put ?_ ?_ ?_ rfl rfl
      · simp [summary, has_append, allocationsIn_append, mutationsIn_append, hof, hnone, List.findIdxs_append, h.allocations]
      · rw [allocationsIn_append, hof, ← h.allocations]
        rfl
      · rw [mutationsIn_append, hnone, ← h.mutations]
        exact (List.append_nil _).symm
  | physicalMutation =>
    cases hdecode : LogManager.decodePhysicalMutation payload with
    | error e => simp [hdecode, bind, Except.bind] at hrun
    | ok mutation =>
      have hof : mutationOf ⟨lsn, t, .physicalMutation, payload⟩ = some ⟨lsn, t, mutation⟩ := by
        simp [mutationOf, hdecode, Except.toOption]
      have hnone : allocationOf ⟨lsn, t, .physicalMutation, payload⟩ = none := if_neg nofun
      simp only [hdecode, bind, Except.bind, pure, Except.pure, Except.ok.injEq] at hrun
      subst hrun
      refine h.put ?_ ?_ ?_ rfl rfl
      · simp [summary, has_append, allocationsIn_append, mutationsIn_append, hof, hnone, List.findIdxs_append, h.mutations]
      · rw [allocationsIn_append, hnone, ← h.allocations]
        exact (List.append_nil _).symm
      · rw [mutationsIn_append, hof, ← h.mutations]
        rfl
  | _ =>
    have hallocation : ∀ type, type ≠ .pageAllocate → allocationOf ⟨lsn, t, type, payload⟩ = none := fun _ hne => if_neg hne
    have hmutation : ∀ type, type ≠ .physicalMutation → mutationOf ⟨lsn, t, type, payload⟩ = none := fun _ hne => if_neg hne
    dsimp only at hrun
    by_cases hpayload : payload ≠ []
    · rw [RecoveryAnalyzer.validateEmptyPayload, if_pos hpayload] at hrun
      cases hrun
    · rw [RecoveryAnalyzer.validateEmptyPayload, if_neg hpayload] at hrun
      obtain rfl := Except.ok.inj hrun
      refine h.put ?_ ?_ ?_ rfl rfl
      · simp [summary, has_append, allocationsIn_append, mutationsIn_append, hallocation, hmutation]
      · simp [allocationsIn_append, hallocation, ← h.allocations, RecoveryState.put]
      · simp [mutationsIn_append, hmutation, ← h.mutations, RecoveryState.put]

/-- The pass succeeds on a record it can decode. -/
theorem analyzeRecord_succeeds (state : RecoveryState) (h : Decodable record) :
    ∃ state', RecoveryAnalyzer.analyzeRecord state record = .ok state' := by
  obtain ⟨lsn, t, type, payload⟩ := record
  cases type with
  | pageAllocate =>
    obtain ⟨page, hdecode⟩ : ∃ page, LogManager.decodePageAllocate payload = .ok page := h
    simp only [RecoveryAnalyzer.analyzeRecord, hdecode]
    exact ⟨_, rfl⟩
  | physicalMutation =>
    obtain ⟨mutation, hdecode⟩ : ∃ mutation, LogManager.decodePhysicalMutation payload = .ok mutation := h
    simp only [RecoveryAnalyzer.analyzeRecord, hdecode]
    exact ⟨_, rfl⟩
  | _ =>
    obtain rfl : payload = [] := h
    exact ⟨_, rfl⟩

theorem Gathered.run {rest : List WalRecord} (h : Gathered records done state)
    (hrun : rest.foldlM RecoveryAnalyzer.analyzeRecord state = .ok state') : Gathered records (done ++ rest) state' := by
  induction rest generalizing done state with
  | nil =>
    obtain rfl := Except.ok.inj hrun
    rwa [List.append_nil]
  | cons record rest ih =>
    rw [List.foldlM_cons] at hrun
    cases hrecord : RecoveryAnalyzer.analyzeRecord state record with
    | error e =>
      rw [hrecord] at hrun
      cases hrun
    | ok next =>
      rw [hrecord] at hrun
      rw [List.append_cons]
      exact ih (h.step hrecord) hrun

theorem foldlM_analyzeRecord_succeeds (h : ∀ record ∈ records, Decodable record) (state : RecoveryState) :
    ∃ state', records.foldlM RecoveryAnalyzer.analyzeRecord state = .ok state' := by
  induction records generalizing state with
  | nil => exact ⟨state, rfl⟩
  | cons record rest ih =>
    obtain ⟨hrecord, hrest⟩ := List.forall_mem_cons.mp h
    obtain ⟨next, hnext⟩ := analyzeRecord_succeeds state hrecord
    obtain ⟨last, hlast⟩ := ih hrest next
    rw [List.foldlM_cons, hnext]
    exact ⟨last, hlast⟩

/-- The result of the analysis: the log's own words, and a classified summary of every transaction it mentions. -/
structure Analyzed (records : List WalRecord) (state : RecoveryState) : Prop where
  allocations : state.allocations = allocationsIn records
  mutations : state.mutations = mutationsIn records
  transaction : ∀ id, state.transaction id =
    if mentions records id then some (RecoveryAnalyzer.classify (summary records id)) else none
  records : state.records = records

theorem gathered_nil (records : List WalRecord) : Gathered records [] ⟨records, [], [], ∅⟩ :=
  ⟨rfl, rfl, rfl, fun _ => TreeMap.getElem?_emptyc⟩

theorem has_mentions {type : WalRecordType} (h : has type records id = true) : mentions records id = true := by
  obtain ⟨record, hmem, hrecord⟩ := List.any_eq_true.mp h
  exact List.any_eq_true.mpr ⟨record, hmem, decide_eq_true (of_decide_eq_true hrecord).2⟩

/-- The check at the end of the pass. -/
theorem Gathered.any_conflicting (h : Gathered records done state) :
    (state.transactions.toList.any fun entry => RecoveryAnalyzer.conflicting entry.2) = true ↔
      ∃ id, has .commit done id = true ∧ has .abort done id = true := by
  rw [List.any_eq_true]
  constructor
  · rintro ⟨⟨id, transaction⟩, hmem, hboth⟩
    have hget := TreeMap.mem_toList_iff_getElem?_eq_some.mp hmem
    rw [h.transactions id] at hget
    split at hget
    · obtain rfl := Option.some.inj hget
      exact ⟨id, Bool.and_eq_true_iff.mp hboth⟩
    · cases hget
  · rintro ⟨id, hcommit, habort⟩
    refine ⟨(id, summary done id), TreeMap.mem_toList_iff_getElem?_eq_some.mpr ?_, ?_⟩
    · rw [h.transactions id, if_pos (has_mentions hcommit)]
    · rw [RecoveryAnalyzer.conflicting, summary, hcommit, habort]
      rfl

theorem analyze_ok (h : RecoveryAnalyzer.analyze records = .ok state) :
    Analyzed records state ∧ ∀ id, ¬ (has .commit records id = true ∧ has .abort records id = true) := by
  rw [RecoveryAnalyzer.analyze] at h
  cases hpass : records.foldlM RecoveryAnalyzer.analyzeRecord ⟨records, [], [], ∅⟩ with
  | error e =>
    rw [hpass] at h
    cases h
  | ok last =>
    have hlast := (gathered_nil records).run hpass
    rw [List.nil_append] at hlast
    rw [hpass] at h
    by_cases hconflict : (last.transactions.toList.any fun entry => RecoveryAnalyzer.conflicting entry.2) = true
    · simp [hconflict, bind, Except.bind, throw, throwThe, MonadExceptOf.throw] at h
    · simp only [hconflict, bind, Except.bind, pure, Except.pure] at h
      obtain rfl := Except.ok.inj h
      refine ⟨⟨hlast.allocations, hlast.mutations, fun id => ?_, hlast.records⟩, fun id hboth => ?_⟩
      · rw [RecoveryState.transaction, TreeMap.getElem?_map, hlast.transactions id]
        split <;> rfl
      · exact hconflict (hlast.any_conflicting.mpr ⟨id, hboth⟩)

/-- A log is accepted when every record can be decoded and no transaction has both ends. -/
theorem analyze_succeeds (hdecodable : ∀ record ∈ records, Decodable record)
    (hends : ∀ id, ¬ (has .commit records id = true ∧ has .abort records id = true)) :
    ∃ state, RecoveryAnalyzer.analyze records = .ok state := by
  obtain ⟨last, hpass⟩ := foldlM_analyzeRecord_succeeds hdecodable ⟨records, [], [], ∅⟩
  have hlast := (gathered_nil records).run hpass
  have hconflict : ¬ (last.transactions.toList.any fun entry => RecoveryAnalyzer.conflicting entry.2) = true := by
    rw [hlast.any_conflicting]
    rintro ⟨id, hboth⟩
    exact hends id hboth
  rw [RecoveryAnalyzer.analyze, hpass]
  simp only [hconflict, bind, Except.bind, pure, Except.pure]
  exact ⟨_, rfl⟩

theorem decodable_of_analyzeRecord (h : RecoveryAnalyzer.analyzeRecord state record = .ok state') : Decodable record := by
  obtain ⟨lsn, transactionId, type, payload⟩ := record
  have hempty : ∀ {next : RecoveryState}, (do
      RecoveryAnalyzer.validateEmptyPayload ⟨lsn, transactionId, type, payload⟩
      return next : Except Err RecoveryState) = .ok state' → payload = [] := by
    intro next h
    by_contra hne
    rw [RecoveryAnalyzer.validateEmptyPayload, if_pos hne] at h
    cases h
  cases type with
  | pageAllocate =>
    cases hdecode : LogManager.decodePageAllocate payload with
    | ok page => exact ⟨page, hdecode⟩
    | error e => simp [RecoveryAnalyzer.analyzeRecord, hdecode, bind, Except.bind] at h
  | physicalMutation =>
    cases hdecode : LogManager.decodePhysicalMutation payload with
    | ok mutation => exact ⟨mutation, hdecode⟩
    | error e => simp [RecoveryAnalyzer.analyzeRecord, hdecode, bind, Except.bind] at h
  | _ => exact hempty h

theorem decodable_of_foldlM (h : records.foldlM RecoveryAnalyzer.analyzeRecord state = .ok state') :
    ∀ record ∈ records, Decodable record := by
  induction records generalizing state with
  | nil => exact fun _ hmem => nomatch hmem
  | cons first rest ih =>
    rw [List.foldlM_cons] at h
    cases hfirst : RecoveryAnalyzer.analyzeRecord state first with
    | error e =>
      rw [hfirst] at h
      cases h
    | ok next =>
      rw [hfirst] at h
      exact List.forall_mem_cons.mpr ⟨decodable_of_analyzeRecord hfirst, ih h⟩

/-- And only then. -/
theorem analyze_succeeds_iff : (∃ state, RecoveryAnalyzer.analyze records = .ok state) ↔
    (∀ record ∈ records, Decodable record) ∧ ∀ id, ¬ (has .commit records id = true ∧ has .abort records id = true) := by
  constructor
  · rintro ⟨state, h⟩
    refine ⟨?_, (analyze_ok h).2⟩
    cases hpass : records.foldlM RecoveryAnalyzer.analyzeRecord ⟨records, [], [], ∅⟩ with
    | error e =>
      rw [RecoveryAnalyzer.analyze, hpass] at h
      cases h
    | ok last => exact decodable_of_foldlM hpass
  · exact fun h => analyze_succeeds h.1 h.2

/-- Whether the log has the transaction's COMMIT record, which is all that REDO and UNDO ask about it. -/
def won (records : List WalRecord) (id : Nat) : Bool := has .commit records id

theorem Analyzed.status (h : Analyzed records state) (hmentions : mentions records id = true) :
    ∃ transaction, state.transaction id = some transaction ∧
      (transaction.status = .committed ↔ won records id = true) := by
  refine ⟨_, (h.transaction id).trans (if_pos hmentions), ?_⟩
  cases hwon : won records id with
  | true =>
    have hcommit : (summary records id).committed = true := hwon
    simp [RecoveryAnalyzer.classify, hcommit]
  | false =>
    have hcommit : (summary records id).committed = false := hwon
    simp only [RecoveryAnalyzer.classify, hcommit]
    cases (summary records id).aborted <;> simp

end Ddb.Recovery
