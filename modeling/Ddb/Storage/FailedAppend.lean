import Ddb.Storage.WalFile

/-!
# Appends that fail

The stream may fail in the middle of a record and leave a beginning of it at the end of the file. The LSN of the record is
used up, nothing is taken back, and the next append goes to the end of the file, behind the piece. A reader stops at a piece
that ends the file, but it takes a piece with something behind it for a record.

As long as an append only comes when the file ends with a whole record, the file reads back as the records whose append
returned.
-/

namespace Ddb.Storage

open Ddb.Lib
open LogManager (encode encoding fileOf readRecords Encodable Increasing)

/-- An append and what the file system does to it: nothing, or a failure after some bytes, but never after all of them. -/
structure AppendCall where
  type : WalRecordType
  transactionId : UInt64
  payload : Bytes
  fault : Option Nat

namespace LogFile

def tryAppend (c : AppendCall) (file : LogFile) : Except Err Nat × LogFile :=
  let record : WalRecord := ⟨file.nextLsn, c.transactionId.toNat, c.type, c.payload⟩
  let file := { file with nextLsn := (file.nextLsn + 1) % 2 ^ 64 }
  match encode record with
  | .error e => (.error e, file)
  | .ok encoded =>
    match c.fault with
    | none => (.ok record.lsn, { file with bytes := file.bytes ++ encoded })
    | some written => (.error (.wal "WAL append failed"), { file with bytes := file.bytes ++ encoded.dropLast.take written })

/-- A file that works takes the record as `append` does. -/
theorem tryAppend_none (file : LogFile) (type : WalRecordType) (transactionId : UInt64) (payload : Bytes) :
    file.tryAppend ⟨type, transactionId, payload, none⟩ = file.append type transactionId payload := by
  cases hencode : encode ⟨file.nextLsn, transactionId.toNat, type, payload⟩ with
  | error e | ok encoded => simp only [tryAppend, append, hencode]

end LogFile

namespace Journal

/-- A log on a new file. -/
def new : Journal := ⟨⟨[], 1, 0⟩, []⟩

def tryStep (journal : Journal) (c : AppendCall) : Journal :=
  match journal.file.tryAppend c with
  | (.ok lsn, file) => ⟨file, journal.appended ++ [⟨lsn, c.transactionId.toNat, c.type, c.payload⟩]⟩
  | (.error _, file) => ⟨file, journal.appended⟩

/-- The file has the bytes of the records whose append returned and no others, and the counter does not reach its last
value. -/
def EndsWhole (journal : Journal) (_ : AppendCall) : Prop :=
  journal.file.bytes = fileOf journal.appended ∧ journal.file.nextLsn < 2 ^ 64 - 1

variable {journal : Journal}

/-- Behind the whole records there may be a piece of one. -/
structure Piece (journal : Journal) : Prop where
  kept : Kept [] ⟨⟨fileOf journal.appended, journal.file.nextLsn, journal.file.durableLsn⟩, journal.appended⟩
  tail : journal.file.bytes = fileOf journal.appended ∨ ∃ record k, Encodable record ∧ k < (encoding record).length ∧
    journal.file.bytes = fileOf journal.appended ++ (encoding record).take k

theorem Kept.piece (h : Kept [] journal) : Piece journal :=
  ⟨⟨rfl, h.encodable, h.increasing, h.below, h.next_pos, h.next_lt⟩, .inl h.bytes⟩

/-- The reader finds the whole records. -/
theorem Piece.readRecords (h : Piece journal) : LogManager.readRecords journal.file.bytes = .ok journal.appended := by
  rcases h.tail with hbytes | ⟨record, k, hrecord, hk, hbytes⟩
  · rw [hbytes]
    exact h.kept.readRecords
  · have hread := LogManager.readRecords_append h.kept.encodable h.kept.increasing ((encoding record).take k)
    rw [LogManager.readFrom_eq, LogManager.readRecord_torn hrecord hk] at hread
    rw [hbytes]
    exact hread

theorem encodable_of_encode {record : WalRecord} {encoded : Bytes} (hlsn : record.lsn < 2 ^ 64)
    (hid : record.transactionId < 2 ^ 64) (h : encode record = .ok encoded) : Encodable record ∧ encoding record = encoded := by
  rw [encode] at h
  split at h
  · cases h
  rename_i hzero
  split at h
  · cases h
  rename_i hsize
  exact ⟨⟨Nat.pos_of_ne_zero hzero, hlsn, hid, Nat.le_of_not_lt hsize⟩, Except.ok.inj h⟩

theorem take_dropLast_encoding (record : WalRecord) (k : Nat) :
    ∃ j < (encoding record).length, (encoding record).dropLast.take k = (encoding record).take j := by
  have hlength := LogManager.encoding_length record
  refine ⟨min k ((encoding record).length - 1), ?_, ?_⟩
  · rw [hlength, LogManager.kMinimumRecordSize]
    omega
  · rw [List.dropLast_eq_take, List.take_take]

theorem piece_tryStep (journal : Journal) (c : AppendCall) (h : Piece journal) (hwhole : journal.EndsWhole c) :
    Piece (journal.tryStep c) := by
  obtain ⟨type, transactionId, payload, fault⟩ := c
  obtain ⟨hbytes, hleft⟩ := hwhole
  have hkept : Kept [] journal := ⟨hbytes, h.kept.encodable, h.kept.increasing, h.kept.below, h.kept.next_pos, h.kept.next_lt⟩
  cases fault with
  | none =>
    have hstep : journal.tryStep ⟨type, transactionId, payload, none⟩ = journal.step (.append type transactionId payload) := by
      rw [tryStep, LogFile.tryAppend_none]
      rfl
    rw [hstep]
    exact (hkept.appended type transactionId payload hleft).piece
  | some written =>
    -- Whatever is left of it, the record has used its LSN up.
    have hmod : (journal.file.nextLsn + 1) % 2 ^ 64 = journal.file.nextLsn + 1 := Nat.mod_eq_of_lt (by omega)
    have hpos := hkept.next_pos
    have hbehind : Kept [] ⟨⟨fileOf journal.appended, journal.file.nextLsn + 1, journal.file.durableLsn⟩, journal.appended⟩ :=
      ⟨rfl, hkept.encodable, hkept.increasing, fun record hrecord => Nat.lt_succ_of_lt (hkept.below record hrecord),
        Nat.succ_pos _, by dsimp only; omega⟩
    simp only [tryStep, LogFile.tryAppend, hmod]
    cases hencode : encode ⟨journal.file.nextLsn, transactionId.toNat, type, payload⟩ with
    | error e => exact ⟨hbehind, .inl hbytes⟩
    | ok encoded =>
      obtain ⟨hrecord, rfl⟩ := encodable_of_encode hkept.next_lt transactionId.toNat_lt hencode
      obtain ⟨k, hk, htake⟩ := take_dropLast_encoding ⟨journal.file.nextLsn, transactionId.toNat, type, payload⟩ written
      refine ⟨hbehind, .inr ⟨_, k, hrecord, hk, ?_⟩⟩
      dsimp only
      rw [htake, hbytes]

theorem piece_new : Piece new :=
  Kept.piece ⟨rfl, by simp [new], by simp [new, Increasing], by simp [new], by decide, by decide⟩

/-- The second append fails before it has written a byte, the last one after five bytes. -/
def bruisedRun : List AppendCall :=
  [⟨.begin, 1, [], none⟩, ⟨.begin, 2, [], some 0⟩, ⟨.commit, 1, [], none⟩, ⟨.begin, 3, [], some 5⟩]

/-- A BEGIN record is torn after one byte, and then another one is appended. -/
def poisonedRun : List AppendCall := [⟨.begin, 1, [], some 1⟩, ⟨.begin, 2, [], none⟩]

end Journal

end Ddb.Storage
