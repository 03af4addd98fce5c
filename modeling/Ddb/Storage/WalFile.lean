import Ddb.Storage.WalCodec
import Ddb.Lib.Run

/-!
# Opening and growing the log file

A log file that was cut anywhere opens as the records that lie whole before the cut. The length it is truncated to is
computed by encoding the records again, not from where the reader stopped, so this rests on the two being the same. From
there on a file stays a sequence of whole records through appends, flushes and reopens, and it holds what the list of
records of `LogManager` holds.
-/

namespace Ddb.Storage

open Ddb.Lib
open LogManager (encode encoding fileOf readRecords Encodable Increasing)

/-- A log manager on the bytes of its file. -/
structure LogFile where
  bytes : Bytes
  nextLsn : Nat
  durableLsn : Nat
  deriving DecidableEq

namespace LogFile

/-- `std::filesystem::resize_file`: the tail is cut off, or zeros are added. -/
def resizeFile (bytes : Bytes) (size : Nat) : Bytes := bytes.take size ++ List.replicate (size - bytes.length) 0

def openAndScan (bytes : Bytes) : Except Err LogFile := do
  let recordsOnDisk ← readRecords bytes
  let sizes ← recordsOnDisk.mapM fun record => (encode record).map List.length
  let validBytes := sizes.sum
  return {
    bytes := if bytes.length ≠ validBytes then resizeFile bytes validBytes else bytes
    nextLsn := recordsOnDisk.getLast?.elim 1 fun last => (last.lsn + 1) % 2 ^ 64
    durableLsn := recordsOnDisk.getLast?.elim 0 WalRecord.lsn }

def append (type : WalRecordType) (transactionId : UInt64) (payload : Bytes) (file : LogFile) :
    Except Err Nat × LogFile :=
  let record : WalRecord := ⟨file.nextLsn, transactionId.toNat, type, payload⟩
  let file := { file with nextLsn := (file.nextLsn + 1) % 2 ^ 64 }
  match encode record with
  | .error e => (.error e, file)
  | .ok encoded => (.ok record.lsn, { file with bytes := file.bytes ++ encoded })

/-- The subtraction of `durable_lsn_ = next_lsn_ - 1` wraps at zero. -/
def flush (file : LogFile) : LogFile :=
  { file with durableLsn := if file.nextLsn = 0 then 2 ^ 64 - 1 else file.nextLsn - 1 }

end LogFile

/-! ## Runs of a log file -/

inductive LogCall where
  | append (type : WalRecordType) (transactionId : UInt64) (payload : Bytes)
  | flush
  | reopen

/-- A log file and, for the record, what was appended to it since it was opened first. -/
structure Journal where
  file : LogFile
  appended : List WalRecord

namespace Journal

def step (journal : Journal) : LogCall → Journal
  | .append type transactionId payload =>
    match journal.file.append type transactionId payload with
    | (.ok lsn, file) => ⟨file, journal.appended ++ [⟨lsn, transactionId.toNat, type, payload⟩]⟩
    | (.error _, file) => ⟨file, journal.appended⟩
  | .flush => { journal with file := journal.file.flush }
  | .reopen =>
    match LogFile.openAndScan journal.file.bytes with
    | .ok file => { journal with file := file }
    | .error _ => journal

/-- The counter does not reach its last value. -/
def CounterLeft (journal : Journal) : LogCall → Prop
  | .append _ _ _ => journal.file.nextLsn < 2 ^ 64 - 1
  | _ => True

end Journal

/-! ## Opening -/

namespace LogFile

variable {records : List WalRecord}

theorem sizes_eq (hencodable : ∀ record ∈ records, Encodable record) :
    (records.mapM fun record => (encode record).map List.length) =
      (.ok (records.map fun record => (encoding record).length) : Except Err (List Nat)) := by
  induction records with
  | nil => rfl
  | cons record records ih =>
    have hrecord := hencodable record List.mem_cons_self
    rw [List.mapM_cons, LogManager.encode_ok hrecord, ih fun r hr => hencodable r (List.mem_cons_of_mem record hr)]
    rfl

theorem sum_sizes (records : List WalRecord) :
    (records.map fun record => (encoding record).length).sum = (fileOf records).length := by
  rw [fileOf, List.length_flatMap]

/-- A file that starts with the records the reader finds in it opens as those records. -/
theorem openAndScan_eq {tail : Bytes} (hread : readRecords (fileOf records ++ tail) = .ok records)
    (hencodable : ∀ record ∈ records, Encodable record) :
    openAndScan (fileOf records ++ tail) = .ok {
      bytes := fileOf records
      nextLsn := records.getLast?.elim 1 fun last => (last.lsn + 1) % 2 ^ 64
      durableLsn := records.getLast?.elim 0 WalRecord.lsn } := by
  have hbytes : (if (fileOf records ++ tail).length ≠ (fileOf records).length then
      resizeFile (fileOf records ++ tail) (fileOf records).length else fileOf records ++ tail) = fileOf records := by
    split
    · rw [resizeFile, List.take_left, List.length_append, Nat.sub_eq_zero_of_le (Nat.le_add_right _ _),
        List.replicate_zero, List.append_nil]
    · rename_i hlen
      rw [List.length_append] at hlen
      have htail : tail = [] := List.length_eq_zero_iff.mp (by omega)
      rw [htail, List.append_nil]
  rw [openAndScan, hread]
  simp only [bind, Except.bind, sizes_eq hencodable, sum_sizes, hbytes]
  rfl

/-! ## Torn tails -/

/-- How many of the records end within the first `k` bytes. -/
def wholeCount : List WalRecord → Nat → Nat
  | [], _ => 0
  | record :: records, k =>
    if (encoding record).length ≤ k then wholeCount records (k - (encoding record).length) + 1 else 0

theorem lt_wholeCount_iff {k i : Nat} (hi : i < records.length) :
    i < wholeCount records k ↔ (fileOf (records.take (i + 1))).length ≤ k := by
  induction records generalizing k i with
  | nil => simp at hi
  | cons record records ih =>
    rw [wholeCount, List.take_succ_cons, LogManager.fileOf_cons, List.length_append]
    split
    · rename_i hwhole
      cases i with
      | zero =>
        simp only [List.take_zero, fileOf, List.flatMap_nil, List.length_nil]
        omega
      | succ i =>
        have hnext := @ih (k - (encoding record).length) i (by simpa using hi)
        omega
    · omega

/-- The first `k` bytes are the whole records and a piece of the next one. -/
theorem take_fileOf (records : List WalRecord) (k : Nat) :
    (fileOf records).take k = fileOf (records.take (wholeCount records k)) ∨
    ∃ record ∈ records, ∃ j < (encoding record).length,
      (fileOf records).take k = fileOf (records.take (wholeCount records k)) ++ (encoding record).take j := by
  induction records generalizing k with
  | nil => exact .inl (by simp [fileOf])
  | cons record records ih =>
    rw [wholeCount]
    split
    · rename_i hwhole
      have hsplit : (fileOf (record :: records)).take k =
          encoding record ++ (fileOf records).take (k - (encoding record).length) := by
        rw [LogManager.fileOf_cons, List.take_append, List.take_of_length_le hwhole]
      rw [hsplit, List.take_succ_cons, LogManager.fileOf_cons]
      rcases ih (k - (encoding record).length) with heq | ⟨torn, htorn, j, hj, heq⟩
      · exact .inl (by rw [heq])
      · exact .inr ⟨torn, List.mem_cons_of_mem record htorn, j, hj, by rw [heq, List.append_assoc]⟩
    · rename_i hwhole
      refine .inr ⟨record, List.mem_cons_self, k, by omega, ?_⟩
      rw [LogManager.fileOf_cons, List.take_append, Nat.sub_eq_zero_of_le (by omega), List.take_zero, List.append_nil]
      rfl

theorem readRecords_take (hencodable : ∀ record ∈ records, Encodable record) (hincreasing : Increasing records) (k : Nat) :
    ∃ tail, (fileOf records).take k = fileOf (records.take (wholeCount records k)) ++ tail ∧
      readRecords ((fileOf records).take k) = .ok (records.take (wholeCount records k)) := by
  have hencodable' : ∀ record ∈ records.take (wholeCount records k), Encodable record :=
    fun record hrecord => hencodable record (List.mem_of_mem_take hrecord)
  have hincreasing' : Increasing (records.take (wholeCount records k)) :=
    hincreasing.sublist (List.take_sublist _ _)
  rcases take_fileOf records k with heq | ⟨torn, htorn, j, hj, heq⟩
  · refine ⟨[], by rw [heq, List.append_nil], ?_⟩
    rw [heq, LogManager.readRecords_fileOf hencodable' hincreasing']
  · refine ⟨(encoding torn).take j, heq, ?_⟩
    rw [heq, LogManager.readRecords_append hencodable' hincreasing', LogManager.readFrom_eq,
      LogManager.readRecord_torn (hencodable torn htorn) hj]

end LogFile

/-! ## Growing -/

namespace Journal

variable {first : List WalRecord} {journal : Journal}

/-- The file is a sequence of whole records, the first ones and then the appended ones, below the next LSN. -/
structure Kept (first : List WalRecord) (journal : Journal) : Prop where
  bytes : journal.file.bytes = fileOf (first ++ journal.appended)
  encodable : ∀ record ∈ first ++ journal.appended, Encodable record
  increasing : Increasing (first ++ journal.appended)
  below : ∀ record ∈ first ++ journal.appended, record.lsn < journal.file.nextLsn
  next_pos : 0 < journal.file.nextLsn
  next_lt : journal.file.nextLsn < 2 ^ 64

theorem Kept.readRecords (h : Kept first journal) :
    LogManager.readRecords journal.file.bytes = .ok (first ++ journal.appended) := by
  rw [h.bytes, LogManager.readRecords_fileOf h.encodable h.increasing]

/-- Where the counter stands after opening a file with these records. -/
theorem counter_after {records : List WalRecord} {bound : Nat} (hbound : bound < 2 ^ 64) (hpos : 0 < bound)
    (hincreasing : Increasing records) (hbelow : ∀ record ∈ records, record.lsn < bound) :
    0 < (records.getLast?.elim 1 fun last => (last.lsn + 1) % 2 ^ 64) ∧
      (records.getLast?.elim 1 fun last => (last.lsn + 1) % 2 ^ 64) ≤ bound ∧
      ∀ record ∈ records, record.lsn < records.getLast?.elim 1 fun last => (last.lsn + 1) % 2 ^ 64 := by
  rcases List.eq_nil_or_concat records with rfl | ⟨before, last, rfl⟩
  · simp only [List.getLast?_nil, Option.elim_none]
    exact ⟨Nat.one_pos, hpos, by simp⟩
  · rw [List.concat_eq_append] at hincreasing hbelow ⊢
    have hlast := hbelow last (by simp)
    have hmod : (last.lsn + 1) % 2 ^ 64 = last.lsn + 1 := Nat.mod_eq_of_lt (by omega)
    simp only [List.getLast?_concat, Option.elim_some, hmod]
    refine ⟨Nat.succ_pos _, hlast, fun record hrecord => ?_⟩
    rcases List.mem_append.mp hrecord with hbefore | hsame
    · exact Nat.lt_succ_of_lt ((List.pairwise_append.mp hincreasing).2.2 record hbefore last (by simp))
    · rw [List.mem_singleton.mp hsame]
      exact Nat.lt_succ_self _

theorem Kept.reopened (h : Kept first journal) : ∃ file, LogFile.openAndScan journal.file.bytes = .ok file ∧
    Kept first { journal with file := file } := by
  have hread := h.readRecords
  rw [h.bytes, ← List.append_nil (fileOf _)] at hread
  obtain ⟨hpos, hle, hbelow⟩ := counter_after h.next_lt h.next_pos h.increasing h.below
  have hopen := LogFile.openAndScan_eq hread h.encodable
  rw [List.append_nil, ← h.bytes] at hopen
  exact ⟨_, hopen, h.bytes, h.encodable, h.increasing, hbelow, hpos, Nat.lt_of_le_of_lt hle h.next_lt⟩

theorem Kept.appended (h : Kept first journal) (type : WalRecordType) (transactionId : UInt64) (payload : Bytes)
    (hleft : journal.file.nextLsn < 2 ^ 64 - 1) : Kept first (journal.step (.append type transactionId payload)) := by
  have hmod : (journal.file.nextLsn + 1) % 2 ^ 64 = journal.file.nextLsn + 1 := Nat.mod_eq_of_lt (by omega)
  have hpos := h.next_pos
  by_cases hsize : payload.length ≤ LogManager.kMaxRecordSize - LogManager.kMinimumRecordSize
  · have hnew : Encodable ⟨journal.file.nextLsn, transactionId.toNat, type, payload⟩ :=
      ⟨hpos, h.next_lt, transactionId.toNat_lt, hsize⟩
    simp only [step, LogFile.append, LogManager.encode_ok hnew, hmod]
    constructor
    case bytes =>
      rw [← List.append_assoc, LogManager.fileOf_append, ← h.bytes]
      simp [fileOf]
    case encodable =>
      intro record hrecord
      rw [← List.append_assoc, List.mem_append, List.mem_singleton] at hrecord
      rcases hrecord with hold | rfl
      · exact h.encodable record hold
      · exact hnew
    case increasing =>
      rw [← List.append_assoc]
      refine List.pairwise_append.mpr ⟨h.increasing, List.pairwise_singleton _ _, fun record hrecord last hlast => ?_⟩
      rw [List.mem_singleton.mp hlast]
      exact h.below record hrecord
    case below =>
      intro record hrecord
      rw [← List.append_assoc, List.mem_append, List.mem_singleton] at hrecord
      rcases hrecord with hold | rfl
      · exact Nat.lt_succ_of_lt (h.below record hold)
      · exact Nat.lt_succ_self _
    case next_pos => dsimp only; omega
    case next_lt => dsimp only; omega
  · -- The payload is refused, but its LSN is used up.
    have hrefused : encode ⟨journal.file.nextLsn, transactionId.toNat, type, payload⟩ =
        .error (.wal "WAL payload is too large") := by
      rw [encode, if_neg (Nat.pos_iff_ne_zero.mp hpos), if_pos (Nat.lt_of_not_le hsize)]
    simp only [step, LogFile.append, hrefused, hmod]
    exact ⟨h.bytes, h.encodable, h.increasing, fun record hrecord => Nat.lt_succ_of_lt (h.below record hrecord),
      Nat.succ_pos _, by dsimp only; omega⟩

theorem kept_step (journal : Journal) (call : LogCall) (h : Kept first journal) (hleft : journal.CounterLeft call) :
    Kept first (journal.step call) := by
  cases call with
  | append type transactionId payload => exact h.appended type transactionId payload hleft
  | flush =>
    rw [step, LogFile.flush]
    exact ⟨h.bytes, h.encodable, h.increasing, h.below, h.next_pos, h.next_lt⟩
  | reopen =>
    obtain ⟨file, hopen, hkept⟩ := h.reopened
    rw [step, hopen]
    exact hkept

/-- A begin record and the commit record behind it. -/
def beginCommit : List WalRecord := [⟨1, 7, .begin, []⟩, ⟨2, 7, .commit, []⟩]

theorem beginCommit_encodable : ∀ record ∈ beginCommit, Encodable record ∧ record.lsn < 2 ^ 64 - 1 := by
  simp only [beginCommit, List.mem_cons, List.not_mem_nil, or_false, forall_eq_or_imp, forall_eq]
  exact ⟨⟨⟨by decide, by decide, by decide, by decide⟩, by decide⟩, ⟨by decide, by decide, by decide, by decide⟩,
    by decide⟩

/-- The log as a list of records, on a file that answers every call. -/
def log (journal : Journal) : LogManager := ⟨journal.appended, journal.file.nextLsn, journal.file.durableLsn, false, [], []⟩

/-- An append to the file answers and does what an append to the list does. -/
theorem append_log (h : Kept [] journal) (hleft : journal.file.nextLsn < 2 ^ 64 - 1) (type : WalRecordType) (id : UInt64)
    (payload : Bytes) : (LogManager.append type id.toNat payload).run journal.log =
      ((journal.file.append type id payload).1, (journal.step (.append type id payload)).log) := by
  have hpos : ¬ journal.log.nextLsn = 0 := Nat.pos_iff_ne_zero.mp h.next_pos
  have hmod : (journal.file.nextLsn + 1) % 2 ^ 64 = journal.file.nextLsn + 1 := Nat.mod_eq_of_lt (by omega)
  rw [LogManager.append, Op.get_bind, Op.modify_bind, Op.throwIf_bind_neg hpos]
  by_cases hsize : payload.length ≤ LogManager.kMaxRecordSize - LogManager.kMinimumRecordSize
  · have hnew : Encodable ⟨journal.file.nextLsn, id.toNat, type, payload⟩ := ⟨h.next_pos, h.next_lt, id.toNat_lt, hsize⟩
    rw [Op.throwIf_bind_neg (Nat.not_lt.mpr hsize)]
    simp only [step, LogFile.append, LogManager.encode_ok hnew, log, hmod]
    rfl
  · have hrefused : encode ⟨journal.file.nextLsn, id.toNat, type, payload⟩ = .error (.wal "WAL payload is too large") :=
      (if_neg hpos).trans (if_pos (Nat.lt_of_not_le hsize))
    rw [Op.throwIf_bind_pos (Nat.lt_of_not_le hsize)]
    simp only [step, LogFile.append, hrefused, log, hmod]

/-- A call on the list of records. -/
def call (log : LogManager) : LogCall → LogManager
  | .append type transactionId payload => ((LogManager.append type transactionId.toNat payload).run log).2
  | .flush => (LogManager.flush.run log).2
  | .reopen => LogManager.reopen log.records

theorem step_log (h : Kept [] journal) {c : LogCall} (hleft : journal.CounterLeft c) : (journal.step c).log = call journal.log c := by
  cases c with
  | append type id payload => exact (congrArg Prod.snd (append_log h hleft type id payload)).symm
  | flush =>
    rw [step, LogFile.flush, if_neg (Nat.pos_iff_ne_zero.mp h.next_pos)]
    rfl
  | reopen =>
    have hread := h.readRecords
    rw [h.bytes, ← List.append_nil (fileOf _)] at hread
    have hopen := LogFile.openAndScan_eq hread h.encodable
    rw [List.append_nil, ← h.bytes] at hopen
    rw [step, hopen]
    simp only [log, call, LogManager.reopen, List.nil_append]
    cases hlast : journal.appended.getLast? with
    | none => rfl
    | some last =>
      have hlt := h.below last (List.mem_of_getLast? hlast)
      have hnext := h.next_lt
      simp only [Option.elim_some, Nat.mod_eq_of_lt (show last.lsn + 1 < 2 ^ 64 by omega)]

theorem exec_log (h : Kept [] journal) {calls : List LogCall} (hcalls : EachStep step CounterLeft journal calls) :
    Kept [] (exec step journal calls) ∧ (exec step journal calls).log = exec call journal.log calls := by
  induction calls generalizing journal with
  | nil => exact ⟨h, rfl⟩
  | cons c rest ih =>
    rw [exec_cons, exec_cons, ← step_log h hcalls.1]
    exact ih (kept_step journal c h hcalls.1) hcalls.2

/-- **Refinement.** A new file goes through any appends, flushes and reopens as the list of records does: it reads back as the
list, both counters are the same, and an append gets the same answer. -/
theorem file_refines_log : ∃ file, LogFile.openAndScan [] = .ok file ∧
    ∀ calls, EachStep step CounterLeft ⟨file, []⟩ calls → ∃ journal, exec step ⟨file, []⟩ calls = journal ∧
      journal.log = exec call .empty calls ∧ readRecords journal.file.bytes = .ok journal.log.records ∧
      ∀ type id payload, journal.file.nextLsn < 2 ^ 64 - 1 →
        (journal.file.append type id payload).1 = ((LogManager.append type id.toNat payload).run journal.log).1 := by
  refine ⟨⟨[], 1, 0⟩, rfl, fun calls hcalls => ?_⟩
  have hnew : Kept [] ⟨⟨[], 1, 0⟩, []⟩ := ⟨rfl, by simp, List.Pairwise.nil, by simp, Nat.one_pos, by decide⟩
  obtain ⟨hkept, hlog⟩ := exec_log hnew hcalls
  exact ⟨_, rfl, hlog, hkept.readRecords, fun type id payload hleft => by rw [append_log hkept hleft]⟩

end Journal

end Ddb.Storage
