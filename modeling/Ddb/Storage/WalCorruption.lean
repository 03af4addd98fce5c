import Ddb.Storage.WalFile

/-!
# A changed byte

One byte of a log of whole records is changed. A change of any byte but those of a length field is caught by the
checksum; a length that stays inside the file is caught by the payload length, which no longer fits. A length that
reaches past the end of the file makes the reader stop as at a torn tail, and the record and all behind it are gone.
-/

namespace Ddb.Storage.LogManager

open Ddb.Lib

variable {records out : List WalRecord} {record : WalRecord} {i j : Nat} {old byte : UInt8} {before after : List WalRecord}

/-- Byte `i` is in the length field of a record, and with its new value the record reaches past the end of the file while
it is no longer than a record may be. -/
def ReachesPastEnd (records : List WalRecord) (i : Nat) (byte : UInt8) : Prop :=
  ∃ before record after, records = before ++ record :: after ∧
    (fileOf before).length + 8 ≤ i ∧ i < (fileOf before).length + 12 ∧
    (fileOf records).length <
      (fileOf before).length + leValue (window ((fileOf records).set i byte) ((fileOf before).length + 8) 4) ∧
    leValue (window ((fileOf records).set i byte) ((fileOf before).length + 8) 4) ≤ kMaxRecordSize

/-! ## The changed record -/

/-- The checksum covers every byte of a record of unchanged length. -/
theorem not_decoded_set (hold : (encoding record)[j]? = some old) (hne : byte ≠ old) :
    ¬ Decoded ((encoding record).set j byte) := by
  intro hdecoded
  have hsum := hdecoded.checksum
  have hsaved : leValue (leBytes 4 (checksum (body record)).toNat) = (checksum (body record)).toNat :=
    leValue_leBytes_of_lt (checksum (body record)).toNat_lt
  rw [List.length_set] at hsum
  by_cases hj : j < (encoding record).length - kChecksumSize
  · -- In the checked part: the checksum is another one, the saved one is not.
    rw [List.drop_set_of_lt hj, drop_encoding, hsaved, List.take_set, take_encoding] at hsum
    have hbody : (body record)[j]? = some old := by
      rw [← take_encoding, List.getElem?_take_of_lt hj, hold]
    exact checksum_set_ne hbody hne (UInt32.toNat_inj.mp hsum)
  · -- In the saved checksum.
    rw [List.take_set_of_le (by omega), take_encoding, List.drop_set, if_neg hj, ← hsaved, ← drop_encoding] at hsum
    have hsame := leValue_injective (by simp) hsum
    have hat := congrArg (fun bytes => bytes[j - ((encoding record).length - kChecksumSize)]?) hsame
    have hlt : j < (encoding record).length := (List.getElem?_eq_some_iff.mp hold).1
    have hindex : (encoding record).length - kChecksumSize + (j - ((encoding record).length - kChecksumSize)) = j := by
      omega
    simp only [List.getElem?_drop, hindex, hold] at hat
    rw [List.getElem?_set_self (by rw [List.length_drop]; omega), Option.some.injEq] at hat
    exact hne hat.symm

/-- A record with one byte changed is refused, whichever byte it is: the checksum is over all bytes before it, and each step
of it can be undone. -/
theorem decode_changed (record : WalRecord) (bytes : Bytes) (hencode : encode record = .ok bytes) (j : Nat)
    (old byte : UInt8) (hold : bytes[j]? = some old) (hne : byte ≠ old) :
    ∃ message, decode (bytes.set j byte) = .error (.wal message) := by
  have hbytes : bytes = encoding record := by
    rw [encode] at hencode
    split at hencode
    · cases hencode
    split at hencode
    · cases hencode
    exact (Except.ok.inj hencode).symm
  rw [hbytes] at hold ⊢
  rcases decode_cases ((encoding record).set j byte) with ⟨_, _, hdecoded⟩ | herror
  · exact absurd hdecoded (not_decoded_set hold hne)
  · exact herror

/-- A begin record whose saved checksum is off by one bit. -/
theorem decode_changed_begin :
    ∃ message, decode ((encoding ⟨1, 7, .begin, []⟩).set 36 ((encoding ⟨1, 7, .begin, []⟩).getD 36 0 ^^^ 1)) =
      .error (.wal message) :=
  decode_changed ⟨1, 7, .begin, []⟩ _ rfl 36 ((encoding ⟨1, 7, .begin, []⟩).getD 36 0) _ (by decide +kernel)
    (by decide +kernel)

/-- A length field that was changed spells another length. -/
theorem lengthField_set_ne (h : Encodable record) (hold : (encoding record)[j]? = some old) (hne : byte ≠ old)
    (hlow : 8 ≤ j) (hhigh : j < 12) :
    leValue (window ((encoding record).set j byte) 8 4) ≠ (encoding record).length := by
  intro hsame
  rw [← lengthField h rfl] at hsame
  have hlt : j < (encoding record).length := (List.getElem?_eq_some_iff.mp hold).1
  have hmin := encoding_length record
  simp only [kMinimumRecordSize] at hmin
  have hwindow := leValue_injective (by rw [window_length (by simp; omega), window_length (by omega)]) hsame
  have hat := congrArg (fun bytes => bytes[j - 8]?) hwindow
  simp only [window, List.getElem?_take_of_lt (show j - 8 < 4 by omega), List.getElem?_drop,
    show 8 + (j - 8) = j by omega, hold, List.getElem?_set_self hlt, Option.some.injEq] at hat
  exact hne hat

/-- What the reader does at a whole record whose bytes it must refuse. -/
theorem readRecord_refused {input : Bytes} {length : Nat} (hlength : leValue (window input 8 4) = length)
    (hmin : kMinimumRecordSize ≤ length) (hmax : length ≤ kMaxRecordSize) (hinput : length ≤ input.length)
    (hbad : ¬ Decoded (input.take length)) : ∃ message, readRecord input out = .error (.wal message) := by
  rw [readRecord_whole hlength hmin hmax hinput]
  rcases decode_cases (input.take length) with ⟨_, _, hdecoded⟩ | ⟨message, herror⟩
  · exact absurd hdecoded hbad
  · rw [herror]
    exact ⟨message, rfl⟩

/-- A changed byte outside the length field is refused. -/
theorem readRecord_changed (h : Encodable record) (hold : (encoding record)[j]? = some old) (hne : byte ≠ old)
    (hj : j < 8 ∨ 12 ≤ j) (rest : Bytes) :
    ∃ message, readRecord ((encoding record).set j byte ++ rest) out = .error (.wal message) := by
  have hmin := encoding_length record
  have hfield : window ((encoding record).set j byte ++ rest) 8 4 = window (encoding record) 8 4 := by
    rw [window_append_of_le rest (by rw [List.length_set, hmin, kMinimumRecordSize]; omega),
      window_set_of_not_mem byte (by omega)]
  refine readRecord_refused (lengthField h hfield) (by omega) (encoding_length_le h) (by simp) ?_
  rw [List.take_left' (by simp)]
  exact not_decoded_set hold hne

/-- A changed length is refused unless it reaches past the end of the file. -/
theorem readRecord_changed_length (h : Encodable record) (hold : (encoding record)[j]? = some old) (hne : byte ≠ old)
    (hlow : 8 ≤ j) (hhigh : j < 12) (rest : Bytes)
    (hinside : ¬ (((encoding record).set j byte ++ rest).length < leValue (window ((encoding record).set j byte) 8 4) ∧
      leValue (window ((encoding record).set j byte) 8 4) ≤ kMaxRecordSize)) :
    ∃ message, readRecord ((encoding record).set j byte ++ rest) out = .error (.wal message) := by
  have hmin := encoding_length record
  simp only [kMinimumRecordSize] at hmin
  have hother := lengthField_set_ne h hold hne hlow hhigh
  have hlen : ((encoding record).set j byte).length = (encoding record).length := List.length_set
  have hfield : window ((encoding record).set j byte ++ rest) 8 4 = window ((encoding record).set j byte) 8 4 :=
    window_append_of_le rest (by omega)
  set length := leValue (window ((encoding record).set j byte) 8 4)
  by_cases hrange : length < kMinimumRecordSize ∨ kMaxRecordSize < length
  · refine ⟨"invalid WAL record length", ?_⟩
    rw [readRecord, if_neg (by rw [List.length_append, hlen, kHeaderSize]; omega)]
    dsimp only
    rw [hfield, if_pos hrange]
  · refine readRecord_refused (congrArg leValue hfield) (by omega) (by omega) (by omega) fun hdecoded => ?_
    have hpayload := hdecoded.payloadLength
    simp only [kMinimumRecordSize] at hrange hpayload
    rw [window_take (by omega), window_append_of_le rest (by omega), window_set_of_not_mem byte (by omega),
      (fields_encoding record).payloadLength, List.length_take, leValue_leBytes_of_lt] at hpayload
    · omega
    · have hle := h.payload_le
      simp only [kMaxRecordSize, kMinimumRecordSize] at hle
      omega

/-! ## The changed file -/

/-- The record a byte of the file belongs to. -/
theorem exists_record_at (hi : i < (fileOf records).length) : ∃ before record after j,
    records = before ++ record :: after ∧ i = (fileOf before).length + j ∧ j < (encoding record).length := by
  induction records generalizing i with
  | nil => simp [fileOf] at hi
  | cons record records ih =>
    rw [fileOf_cons, List.length_append] at hi
    by_cases hfirst : i < (encoding record).length
    · exact ⟨[], record, records, i, rfl, by simp [fileOf], hfirst⟩
    · obtain ⟨before, found, after, j, hsplit, hj, hlt⟩ := @ih (i - (encoding record).length) (by omega)
      refine ⟨record :: before, found, after, j, by rw [hsplit, List.cons_append], ?_, hlt⟩
      rw [fileOf_cons, List.length_append]
      omega

theorem set_fileOf (hj : j < (encoding record).length) :
    (fileOf (before ++ record :: after)).set ((fileOf before).length + j) byte =
      fileOf before ++ ((encoding record).set j byte ++ fileOf after) := by
  rw [fileOf_append, fileOf_cons, List.set_append_right _ _ (Nat.le_add_right _ _), Nat.add_sub_cancel_left,
    List.set_append_left _ _ hj]

/-- The length field that `ReachesPastEnd` reads is the one the reader meets behind the records before it. -/
theorem window_fileOf (hj : j < (encoding record).length) :
    window ((fileOf (before ++ record :: after)).set ((fileOf before).length + j) byte) ((fileOf before).length + 8) 4 =
      window ((encoding record).set j byte) 8 4 := by
  have hmin := encoding_length record
  simp only [kMinimumRecordSize] at hmin
  rw [set_fileOf hj, window_append_right (Nat.le_add_right _ _), Nat.add_sub_cancel_left,
    window_append_of_le _ (by rw [List.length_set]; omega)]

theorem length_fileOf_split (before after : List WalRecord) :
    (fileOf (before ++ record :: after)).length =
      (fileOf before).length + ((encoding record).length + (fileOf after).length) := by
  rw [fileOf_append, fileOf_cons, List.length_append, List.length_append]

/-- Past the end of the file the reader stops: the records before are all it returns. -/
theorem readRecords_reachesPastEnd (hencodable : ∀ r ∈ before ++ record :: after, Encodable r)
    (hincreasing : Increasing (before ++ record :: after)) (hlow : 8 ≤ j) (hhigh : j < 12)
    (hpast : (encoding record).length + (fileOf after).length < leValue (window ((encoding record).set j byte) 8 4))
    (hmax : leValue (window ((encoding record).set j byte) 8 4) ≤ kMaxRecordSize) :
    readRecords ((fileOf (before ++ record :: after)).set ((fileOf before).length + j) byte) = .ok before := by
  have hmin := encoding_length record
  simp only [kMinimumRecordSize] at hmin
  have hfield : window ((encoding record).set j byte ++ fileOf after) 8 4 = window ((encoding record).set j byte) 8 4 :=
    window_append_of_le _ (by rw [List.length_set]; omega)
  have hend : readRecord ((encoding record).set j byte ++ fileOf after) before = .ok none := by
    rw [readRecord, if_neg (by rw [List.length_append, List.length_set, kHeaderSize]; omega)]
    dsimp only
    rw [hfield, if_neg (by rw [kMinimumRecordSize]; omega),
      if_pos (by rw [List.length_append, List.length_set]; exact hpast)]
  have hbefore : ∀ record ∈ before, Encodable record :=
    fun r hr => hencodable r (List.mem_append_left _ hr)
  rw [set_fileOf (by omega), readRecords_append hbefore (List.pairwise_append.mp hincreasing).1, readFrom_eq, hend]

theorem readRecords_refused (hencodable : ∀ r ∈ before ++ record :: after, Encodable r)
    (hincreasing : Increasing (before ++ record :: after)) (hold : (encoding record)[j]? = some old) (hne : byte ≠ old)
    (hinside : ¬ ReachesPastEnd (before ++ record :: after) ((fileOf before).length + j) byte) :
    ∃ message, readRecords ((fileOf (before ++ record :: after)).set ((fileOf before).length + j) byte) =
      .error (.wal message) := by
  have hj : j < (encoding record).length := (List.getElem?_eq_some_iff.mp hold).1
  have hrecord := hencodable record (by simp)
  have herror : ∃ message, readRecord ((encoding record).set j byte ++ fileOf after) before = .error (.wal message) := by
    by_cases hfield : j < 8 ∨ 12 ≤ j
    · exact readRecord_changed hrecord hold hne hfield _
    · refine readRecord_changed_length hrecord hold hne (by omega) (by omega) _ fun ⟨hpast, hmax⟩ => hinside ?_
      refine ⟨before, record, after, rfl, by omega, by omega, ?_, ?_⟩
      · rw [window_fileOf hj, length_fileOf_split]
        rw [List.length_append, List.length_set] at hpast
        omega
      · rw [window_fileOf hj]
        exact hmax
  obtain ⟨message, herror⟩ := herror
  have hbefore : ∀ record ∈ before, Encodable record :=
    fun r hr => hencodable r (List.mem_append_left _ hr)
  refine ⟨message, ?_⟩
  rw [set_fileOf hj, readRecords_append hbefore (List.pairwise_append.mp hincreasing).1, readFrom_eq, herror]

theorem readRecords_dropped (hencodable : ∀ record ∈ records, Encodable record) (hincreasing : Increasing records)
    (h : ReachesPastEnd records i byte) :
    ∃ n < records.length, readRecords ((fileOf records).set i byte) = .ok (records.take n) := by
  obtain ⟨before, record, after, rfl, hlow, hhigh, hpast, hmax⟩ := h
  obtain ⟨j, rfl⟩ := Nat.exists_eq_add_of_le (show (fileOf before).length ≤ i by omega)
  have hmin := encoding_length record
  simp only [kMinimumRecordSize] at hmin
  rw [window_fileOf (by omega)] at hpast hmax
  rw [length_fileOf_split] at hpast
  refine ⟨before.length, by simp, ?_⟩
  rw [readRecords_reachesPastEnd hencodable hincreasing (by omega) (by omega) (by omega) hmax, List.take_left]

/-- A change of one byte is reported as a `WalError`, unless it is to a length field and makes a record reach past the
end of the file: then the records from there on are dropped. -/
theorem corruption_detected_iff (records : List WalRecord) (hencodable : ∀ record ∈ records, Encodable record)
    (hincreasing : Increasing records) (i : Nat) (old byte : UInt8) (hold : (fileOf records)[i]? = some old)
    (hne : byte ≠ old) :
    ((∃ message, readRecords ((fileOf records).set i byte) = .error (.wal message)) ↔ ¬ ReachesPastEnd records i byte) ∧
    (ReachesPastEnd records i byte → ∃ n < records.length,
      readRecords ((fileOf records).set i byte) = .ok (records.take n)) := by
  have hdropped := @readRecords_dropped records i byte hencodable hincreasing
  refine ⟨⟨?_, ?_⟩, hdropped⟩
  · rintro ⟨message, herror⟩ hpast
    obtain ⟨n, _, hok⟩ := hdropped hpast
    rw [herror] at hok
    simp at hok
  · intro hinside
    obtain ⟨before, record, after, j, rfl, rfl, hj⟩ := exists_record_at (List.getElem?_eq_some_iff.mp hold).1
    rw [fileOf_append, fileOf_cons, List.getElem?_append_right (Nat.le_add_right _ _), Nat.add_sub_cancel_left,
      List.getElem?_append_left hj] at hold
    exact readRecords_refused hencodable hincreasing hold hne hinside

/-- The first length byte of a begin record goes from 40 to 41: the log reads as empty. -/
theorem enlarged_begin_dropped :
    readRecords (fileOf [⟨1, 7, .begin, []⟩]) = .ok [⟨1, 7, .begin, []⟩] ∧
      (fileOf [⟨1, 7, .begin, []⟩])[8]? = some 40 ∧
      readRecords ((fileOf [⟨1, 7, .begin, []⟩]).set 8 41) = .ok [] := by
  decide +kernel

/-- The transaction id of a begin record is changed: the reader refuses the log. -/
theorem changed_begin_detected :
    ∃ message, readRecords ((fileOf Journal.beginCommit).set 20 8) = .error (.wal message) := by
  have hencodable : ∀ record ∈ Journal.beginCommit, Encodable record :=
    fun record hrecord => (Journal.beginCommit_encodable record hrecord).1
  refine (corruption_detected_iff Journal.beginCommit hencodable (by simp [Increasing, Journal.beginCommit]) 20 7 8
    (by decide +kernel) (by decide)).1.mpr ?_
  rintro ⟨before, record, after, -, hlow, hhigh, -⟩
  cases before with
  | nil => exact absurd hhigh (by decide)
  | cons first rest =>
    have hmin := encoding_length first
    rw [fileOf_cons, List.length_append, hmin, kMinimumRecordSize] at hlow
    omega

end Ddb.Storage.LogManager
