import Ddb.Storage.LogManager

/-!
# The bytes of the log

A record is a header of 36 bytes, its payload and a checksum over both. The reader takes the length of a record from its
header, before anything else of the record is verified, and treats a file that ends inside a record as one whose last
append was torn. All that is known about a record that was read is collected in `Decoded`.
-/

namespace Ddb.Storage.LogManager

open Ddb.Lib

def kMagic : Bytes := [68, 87, 65, 76]
def kVersion : Nat := 1
def kHeaderSize : Nat := 36
def kChecksumSize : Nat := 4

/-- One step of the 32-bit FNV-1a hash. -/
def checksumStep (value : UInt32) (byte : UInt8) : UInt32 := (value ^^^ byte.toUInt32) * 16777619

def checksum (bytes : Bytes) : UInt32 := bytes.foldl checksumStep 2166136261

def typeByte : WalRecordType → UInt8
  | .begin => 1
  | .physicalMutation => 2
  | .commit => 3
  | .abort => 4
  | .pageAllocate => 5

/-- The record type of a byte from 1 to 5. -/
def typeOf (byte : UInt8) : Option WalRecordType :=
  if byte = 1 then some .begin
  else if byte = 2 then some .physicalMutation
  else if byte = 3 then some .commit
  else if byte = 4 then some .abort
  else if byte = 5 then some .pageAllocate
  else none

/-! ## Writing and reading one record -/

/-- What the checksum is computed over. -/
def body (record : WalRecord) : Bytes :=
  kMagic ++ (leBytes 2 kVersion ++ (leBytes 2 kHeaderSize ++ (leBytes 4 (kMinimumRecordSize + record.payload.length) ++
    (leBytes 8 record.lsn ++ (leBytes 8 record.transactionId ++ ([typeByte record.type] ++ ([0, 0, 0] ++
      (leBytes 4 record.payload.length ++ record.payload))))))))

def encoding (record : WalRecord) : Bytes := body record ++ leBytes 4 (checksum (body record)).toNat

def encode (record : WalRecord) : Except Err Bytes :=
  if record.lsn = 0 then .error (.wal "WAL LSN must be nonzero")
  else if record.payload.length > kMaxRecordSize - kMinimumRecordSize then .error (.wal "WAL payload is too large")
  else .ok (encoding record)

def decode (bytes : Bytes) : Except Err WalRecord :=
  if bytes.length < kMinimumRecordSize then .error (.wal "truncated WAL record")
  else if window bytes 0 4 ≠ kMagic then .error (.wal "invalid WAL magic")
  else if leValue (window bytes 4 2) ≠ kVersion then .error (.wal "unsupported WAL version")
  else if leValue (window bytes 6 2) ≠ kHeaderSize then .error (.wal "invalid WAL header length")
  else
    let length := leValue (window bytes 8 4)
    let payloadLength := leValue (window bytes 32 4)
    if ¬ (length = bytes.length ∧ kMinimumRecordSize ≤ length ∧ length ≤ kMaxRecordSize) then
      .error (.wal "invalid WAL record length")
    else if payloadLength ≠ length - kMinimumRecordSize then .error (.wal "invalid WAL payload length")
    else if (checksum (bytes.take (bytes.length - kChecksumSize))).toNat ≠
        leValue (bytes.drop (bytes.length - kChecksumSize)) then .error (.wal "invalid WAL checksum")
    else
      match typeOf (bytes.getD 28 0) with
      | none => .error (.wal "invalid WAL record type")
      | some type =>
        let lsn := leValue (window bytes 12 8)
        if lsn = 0 then .error (.wal "invalid WAL LSN")
        else .ok ⟨lsn, leValue (window bytes 20 8), type, window bytes kHeaderSize (bytes.length - kMinimumRecordSize)⟩

/-! ## Reading a file -/

/-- One turn of the loop of `read_records`: what is left to read and the records so far, or nothing at the end of the
file, which may be inside a record. -/
def readRecord (input : Bytes) (out : List WalRecord) : Except Err (Option (Bytes × List WalRecord)) :=
  if input.length < kHeaderSize then .ok none
  else
    let length := leValue (window input 8 4)
    if length < kMinimumRecordSize ∨ kMaxRecordSize < length then .error (.wal "invalid WAL record length")
    else if input.length < length then .ok none
    else do
      let record ← decode (input.take length)
      if out.getLast?.any fun last => record.lsn ≤ last.lsn then .error (.wal "non-monotonic WAL LSN")
      else return some (input.drop length, out ++ [record])

/-- The loop of `read_records`. A turn reads at least a header, so as many turns as there are bytes are enough. -/
def readLoop : Nat → Bytes → List WalRecord → Except Err (List WalRecord)
  | 0, _, out => .ok out
  | fuel + 1, input, out => do
    match ← readRecord input out with
    | none => return out
    | some (rest, out) => readLoop fuel rest out

def readFrom (input : Bytes) (out : List WalRecord) : Except Err (List WalRecord) := readLoop input.length input out

def readRecords (file : Bytes) : Except Err (List WalRecord) := readFrom file []

/-! ## The checksum -/

/-- The FNV prime is odd, so multiplying by it is undone by its inverse. -/
theorem mul_prime_injective : Function.Injective fun value : UInt32 => value * 16777619 := by
  intro left right h
  have hinverse : ∀ value : UInt32, value * 16777619 * 899433627 = value := by
    intro value
    rw [UInt32.mul_assoc, show (16777619 : UInt32) * 899433627 = 1 by decide, UInt32.mul_one]
  have h' := congrArg (· * (899433627 : UInt32)) h
  simpa only [hinverse] using h'

theorem checksumStep_injective_state (byte : UInt8) : Function.Injective fun value => checksumStep value byte := by
  intro left right h
  exact UInt32.xor_left_inj _ |>.mp (mul_prime_injective h)

theorem checksumStep_injective_byte (value : UInt32) : Function.Injective (checksumStep value) := by
  intro left right h
  have hword : left.toUInt32 = right.toUInt32 := UInt32.xor_right_inj _ |>.mp (mul_prime_injective h)
  have hnat := congrArg UInt32.toNat hword
  rw [UInt8.toNat_toUInt32, UInt8.toNat_toUInt32] at hnat
  exact UInt8.toNat_inj.mp hnat

theorem checksum_set_ne {bytes : Bytes} {i : Nat} {old new : UInt8} (hold : bytes[i]? = some old) (hne : new ≠ old) :
    checksum (bytes.set i new) ≠ checksum bytes :=
  foldl_set_ne checksumStep_injective_state checksumStep_injective_byte hold hne _

/-! ## A record that was written is read back -/

/-- What `encode` accepts; the bounds of the numbers are those of the 64-bit fields. -/
structure Encodable (record : WalRecord) : Prop where
  lsn_pos : 0 < record.lsn
  lsn_lt : record.lsn < 2 ^ 64
  transactionId_lt : record.transactionId < 2 ^ 64
  payload_le : record.payload.length ≤ kMaxRecordSize - kMinimumRecordSize

variable {record : WalRecord} {bytes input : Bytes} {out : List WalRecord} {records : List WalRecord}

theorem encode_ok (h : Encodable record) : encode record = .ok (encoding record) := by
  rw [encode, if_neg (Nat.pos_iff_ne_zero.mp h.lsn_pos), if_neg (Nat.not_lt.mpr h.payload_le)]

theorem body_length (record : WalRecord) : (body record).length = kHeaderSize + record.payload.length := by
  simp only [body, kMagic, List.length_append, leBytes_length, List.length_cons, List.length_nil, kHeaderSize]
  omega

theorem encoding_length (record : WalRecord) :
    (encoding record).length = kMinimumRecordSize + record.payload.length := by
  rw [encoding, List.length_append, body_length, leBytes_length, kHeaderSize, kMinimumRecordSize]
  omega

theorem typeOf_typeByte (type : WalRecordType) : typeOf (typeByte type) = some type := by
  cases type <;> rfl

/-- The fields of an encoded record, whatever follows it. -/
structure Fields (record : WalRecord) (bytes : Bytes) : Prop where
  magic : window bytes 0 4 = kMagic
  version : window bytes 4 2 = leBytes 2 kVersion
  headerSize : window bytes 6 2 = leBytes 2 kHeaderSize
  length : window bytes 8 4 = leBytes 4 (kMinimumRecordSize + record.payload.length)
  lsn : window bytes 12 8 = leBytes 8 record.lsn
  transactionId : window bytes 20 8 = leBytes 8 record.transactionId
  type : bytes.getD 28 0 = typeByte record.type
  payloadLength : window bytes 32 4 = leBytes 4 record.payload.length
  payload : window bytes kHeaderSize record.payload.length = record.payload

theorem fields_encoding (record : WalRecord) : Fields record (encoding record) := by
  have hmagic : kMagic.length = 4 := rfl
  have htype : (encoding record)[28]? = some (typeByte record.type) := by
    simp [encoding, body, kMagic, leBytes]
  rw [encoding, body] at htype ⊢
  simp only [List.append_assoc] at htype ⊢
  constructor
  case type => rw [List.getD_eq_getElem?_getD, htype, Option.getD_some]
  all_goals
    simp (disch := simp [hmagic, kHeaderSize]) only [window_append_right, window_append_left, leBytes_length, hmagic,
      List.length_cons, List.length_nil, kHeaderSize, Nat.reduceSub, Nat.reduceAdd, Nat.sub_self]

theorem take_encoding (record : WalRecord) :
    (encoding record).take ((encoding record).length - kChecksumSize) = body record := by
  apply List.take_left'
  rw [encoding_length, body_length, kMinimumRecordSize, kHeaderSize, kChecksumSize]
  omega

theorem drop_encoding (record : WalRecord) :
    (encoding record).drop ((encoding record).length - kChecksumSize) = leBytes 4 (checksum (body record)).toNat := by
  apply List.drop_left'
  rw [encoding_length, body_length, kMinimumRecordSize, kHeaderSize, kChecksumSize]
  omega

theorem lengthField (h : Encodable record) (hfield : window bytes 8 4 = window (encoding record) 8 4) :
    leValue (window bytes 8 4) = (encoding record).length := by
  have hpayload := h.payload_le
  rw [hfield, (fields_encoding record).length, leValue_leBytes_of_lt, encoding_length]
  simp only [kMaxRecordSize, kMinimumRecordSize] at hpayload ⊢
  omega

theorem encoding_length_le (h : Encodable record) : (encoding record).length ≤ kMaxRecordSize := by
  have hpayload := h.payload_le
  rw [encoding_length]
  simp only [kMaxRecordSize, kMinimumRecordSize] at hpayload ⊢
  omega

theorem decode_encoding (h : Encodable record) : decode (encoding record) = .ok record := by
  have hfields := fields_encoding record
  have hlength := encoding_length record
  have hmax := encoding_length_le h
  have hpayload := h.payload_le
  have hfit : leValue (leBytes 4 record.payload.length) = record.payload.length := by
    apply leValue_leBytes_of_lt
    simp only [kMaxRecordSize, kMinimumRecordSize] at hpayload
    omega
  have hchecksum : leValue (leBytes 4 (checksum (body record)).toNat) = (checksum (body record)).toNat :=
    leValue_leBytes_of_lt (checksum (body record)).toNat_lt
  have hpayloadSize : (encoding record).length - kMinimumRecordSize = record.payload.length := by omega
  rw [decode, if_neg (by omega), if_neg (not_not_intro hfields.magic), if_neg (by rw [hfields.version]; decide),
    if_neg (by rw [hfields.headerSize]; decide)]
  dsimp only
  rw [lengthField h rfl, if_neg (by omega), hfields.payloadLength, hfit, if_neg (by omega), take_encoding, drop_encoding,
    hchecksum, if_neg (not_not_intro rfl), hfields.type, typeOf_typeByte]
  dsimp only
  rw [hfields.lsn, hfields.transactionId, leValue_leBytes_of_lt h.lsn_lt, leValue_leBytes_of_lt h.transactionId_lt,
    if_neg (Nat.pos_iff_ne_zero.mp h.lsn_pos), hpayloadSize, hfields.payload]

/-! ## A payload that was read is written again -/

theorem leBytes_ofIndex_window {offset : Nat} (h : offset + 8 ≤ bytes.length) :
    leBytes 8 (PageId.ofIndex (leValue (window bytes offset 8))).index = window bytes offset 8 := by
  have hlt := leValue_lt (window bytes offset 8)
  rw [window_length h] at hlt
  rw [PageId.index_ofIndex hlt, leBytes_leValue_window h]

theorem imageOf_eq_some {image : Payload} (h : imageOf bytes = some image) : image.bytes = bytes := by
  rw [imageOf] at h
  split at h
  · rw [← Option.some.inj h]
  · cases h

/-- A mutation payload that was decoded is what encoding the mutation gives. -/
theorem encodePhysicalMutation_decode {mutation : PhysicalMutation} (h : decodePhysicalMutation bytes = .ok mutation) :
    encodePhysicalMutation mutation = .ok bytes := by
  unfold decodePhysicalMutation at h
  split at h
  · cases h
  dsimp only at h
  split at h
  · cases h
  rename_i hlengths
  split at h
  · cases h
  rename_i hkind
  split at h
  · cases h
  rename_i hvalid
  split at h
  · rename_i before after hbefore hafter
    obtain rfl := Except.ok.inj h
    simp only [not_or, not_not, kPagePayloadSize] at hlengths hkind
    obtain ⟨hfirst, hsecond, hlength⟩ := hlengths
    have hbyte : bytes.drop 8 = kindByte .payloadWrite :: bytes.drop 9 := by
      rw [← List.getElem_cons_drop (show 8 < bytes.length by omega), ← hkind, List.getD_eq_getElem _ _ (by omega)]
    have hsequence : (UInt64.ofNat (leValue (window bytes 9 8))).toNat = leValue (window bytes 9 8) := by
      have hlt := leValue_lt (window bytes 9 8)
      rw [window_length (by omega)] at hlt
      rw [UInt64.toNat_ofNat']
      exact Nat.mod_eq_of_lt hlt
    rw [encodePhysicalMutation_ok (by simpa using hvalid)]
    dsimp only
    -- Each field is the window it was read from, so the fields in a row are the bytes.
    have hsize : leBytes 4 kPagePayloadSize = window bytes 17 4 := by
      rw [← leBytes_leValue_window (show 17 + 4 ≤ bytes.length by omega), hfirst, kPagePayloadSize]
    have hsize' : leBytes 4 kPagePayloadSize = window bytes 21 4 := by
      rw [← leBytes_leValue_window (show 21 + 4 ≤ bytes.length by omega), hsecond, kPagePayloadSize]
    rw [imageOf_eq_some hbefore, imageOf_eq_some hafter, window_append_drop, hsequence,
      leBytes_ofIndex_window (by omega), leBytes_leValue_window (by omega)]
    nth_rewrite 2 [hsize']
    rw [hsize, window_append_drop, window_append_drop, window_append_drop, ← hbyte, window_append_drop, List.drop_zero]
  · cases h

theorem encodePageAllocate_decode {page : PageId} (h : decodePageAllocate bytes = .ok page) :
    encodePageAllocate page = .ok bytes := by
  unfold decodePageAllocate at h
  split at h
  · cases h
  rename_i hlength
  dsimp only at h
  split at h
  · cases h
  rename_i hvalid
  obtain rfl := Except.ok.inj h
  have hwindow : window bytes 0 8 = bytes := by
    rw [window, List.drop_zero, List.take_of_length_le (by omega)]
  have hindex := @leBytes_ofIndex_window bytes 0 (by omega)
  rw [hwindow] at hindex
  rw [encodePageAllocate, if_neg hvalid, hindex]

/-- Records, mutations and allocations are read back as they were written; a mutation loses its `previousPageLsn`, which is
no field of the log. A payload that is accepted is the one that would be written again. -/
theorem codec_round_trip :
    (∀ record, Encodable record → ∃ bytes, encode record = .ok bytes ∧ decode bytes = .ok record) ∧
    (∀ mutation : PhysicalMutation, mutation.pageId.isValid = true → ∃ bytes, encodePhysicalMutation mutation = .ok bytes ∧
      decodePhysicalMutation bytes = .ok { mutation with previousPageLsn := 0 }) ∧
    (∀ bytes mutation, decodePhysicalMutation bytes = .ok mutation → encodePhysicalMutation mutation = .ok bytes) ∧
    (∀ bytes page, decodePageAllocate bytes = .ok page → encodePageAllocate page = .ok bytes) := by
  refine ⟨?_, ?_, ?_, ?_⟩
  · intro record h
    exact ⟨encoding record, encode_ok h, decode_encoding h⟩
  · intro mutation hvalid
    have hencode := encodePhysicalMutation_ok hvalid
    exact ⟨_, hencode, (decodePhysicalMutation_encode hencode).1⟩
  · intro bytes mutation h
    exact encodePhysicalMutation_decode h
  · intro bytes page h
    exact encodePageAllocate_decode h

/-- A commit record comes back from its 40 bytes, and a page id from its 8. -/
theorem codec_round_trip_commit :
    (∃ bytes, encode ⟨3, 7, .commit, []⟩ = .ok bytes ∧ decode bytes = .ok ⟨3, 7, .commit, []⟩) ∧
      encodePageAllocate ⟨5⟩ = .ok [5, 0, 0, 0, 0, 0, 0, 0] :=
  ⟨codec_round_trip.1 _ ⟨by decide, by decide, by decide, by decide⟩,
    codec_round_trip.2.2.2 [5, 0, 0, 0, 0, 0, 0, 0] ⟨5⟩ (by decide +kernel)⟩

/-! ## What was read is well formed -/

/-- The checks a record has passed that guard its length, its payload length and all of its bytes. -/
structure Decoded (bytes : Bytes) : Prop where
  length_ge : kMinimumRecordSize ≤ bytes.length
  length : leValue (window bytes 8 4) = bytes.length
  payloadLength : leValue (window bytes 32 4) = bytes.length - kMinimumRecordSize
  checksum : (checksum (bytes.take (bytes.length - kChecksumSize))).toNat =
    leValue (bytes.drop (bytes.length - kChecksumSize))

/-- The decoder refuses by a `WalError`; what it accepts has passed the checks. -/
theorem decode_cases (bytes : Bytes) :
    (∃ record, decode bytes = .ok record ∧ Decoded bytes) ∨ ∃ message, decode bytes = .error (.wal message) := by
  rw [decode]
  split
  · exact .inr ⟨_, rfl⟩
  rename_i hmin
  split
  · exact .inr ⟨_, rfl⟩
  split
  · exact .inr ⟨_, rfl⟩
  split
  · exact .inr ⟨_, rfl⟩
  dsimp only
  split
  · exact .inr ⟨_, rfl⟩
  rename_i hlength
  split
  · exact .inr ⟨_, rfl⟩
  rename_i hpayload
  split
  · exact .inr ⟨_, rfl⟩
  rename_i hchecksum
  split
  · exact .inr ⟨_, rfl⟩
  split
  · exact .inr ⟨_, rfl⟩
  · exact .inl ⟨_, rfl, by omega, by omega, by omega, by omega⟩

/-! ## The loop -/

/-- A turn that goes on has decoded one record, of the length its header tells, behind the records so far. -/
theorem readRecord_some {rest : Bytes} {out' : List WalRecord} (h : readRecord input out = .ok (some (rest, out'))) :
    ∃ record, decode (input.take (leValue (window input 8 4))) = .ok record ∧ rest = input.drop (leValue (window input 8 4)) ∧
      out' = out ++ [record] ∧ kMinimumRecordSize ≤ leValue (window input 8 4) ∧ kHeaderSize ≤ input.length ∧
      ∀ last ∈ out.getLast?, last.lsn < record.lsn := by
  rw [readRecord] at h
  split at h
  · simp at h
  rename_i hheader
  dsimp only at h
  split at h
  · simp at h
  rename_i hlength
  split at h
  · simp at h
  cases hdecode : decode (input.take (leValue (window input 8 4))) with
  | error e => simp [hdecode, bind, Except.bind] at h
  | ok record =>
    simp only [hdecode, bind, Except.bind] at h
    split at h
    · simp at h
    · rename_i hlast
      obtain ⟨rfl, rfl⟩ : input.drop (leValue (window input 8 4)) = rest ∧ out ++ [record] = out' := by
        simpa [pure, Except.pure] using h
      refine ⟨record, rfl, rfl, rfl, by omega, by omega, fun last hmem => ?_⟩
      simpa [Option.mem_def.mp hmem] using hlast

/-- Such a turn has consumed a record. -/
theorem readRecord_shrinks {rest : Bytes} {out' : List WalRecord} (h : readRecord input out = .ok (some (rest, out'))) :
    rest.length < input.length := by
  obtain ⟨record, -, rfl, -, hlength, hheader, -⟩ := readRecord_some h
  simp only [kMinimumRecordSize, kHeaderSize] at hlength hheader
  rw [List.length_drop]
  omega

theorem readLoop_succ (fuel : Nat) (input : Bytes) (out : List WalRecord) : readLoop (fuel + 1) input out =
    match readRecord input out with
    | .error e => .error e
    | .ok none => .ok out
    | .ok (some (rest, out)) => readLoop fuel rest out := by
  rw [readLoop]
  cases readRecord input out with
  | error e => rfl
  | ok next => cases next <;> rfl

theorem readRecord_nil (out : List WalRecord) : readRecord [] out = .ok none := rfl

/-- Fuel for every byte is enough fuel. -/
theorem readLoop_enough {fuel : Nat} (h : input.length ≤ fuel) : readLoop fuel input out = readFrom input out := by
  induction fuel using Nat.strong_induction_on generalizing input out with
  | _ fuel ih =>
    rw [readFrom]
    cases fuel with
    | zero =>
      rw [List.length_eq_zero_iff.mp (Nat.le_zero.mp h)]
      rfl
    | succ fuel =>
      cases hlen : input.length with
      | zero =>
        rw [List.length_eq_zero_iff.mp hlen, readLoop_succ, readRecord_nil]
        rfl
      | succ n =>
        rw [readLoop_succ, readLoop_succ]
        rcases hread : readRecord input out with e | _ | ⟨rest, out'⟩
        · rfl
        · rfl
        · have hshrinks := readRecord_shrinks hread
          dsimp only
          rw [ih fuel (by omega) (by omega), ih n (by omega) (by omega)]

/-- The loop without its fuel. -/
theorem readFrom_eq (input : Bytes) (out : List WalRecord) : readFrom input out =
    match readRecord input out with
    | .error e => .error e
    | .ok none => .ok out
    | .ok (some (rest, out)) => readFrom rest out := by
  rw [← readLoop_enough (Nat.le_succ _), readLoop_succ]
  rcases hread : readRecord input out with e | _ | ⟨rest, out'⟩
  · rfl
  · rfl
  · exact readLoop_enough (readRecord_shrinks hread).le

/-! ## Reading what was appended -/

/-- The record comes after those already read. -/
def Follows (record : WalRecord) (out : List WalRecord) : Prop := ∀ last ∈ out.getLast?, last.lsn < record.lsn

/-- A turn on a file that starts with a whole record. -/
theorem readRecord_whole {length : Nat} (hlength : leValue (window input 8 4) = length) (hmin : kMinimumRecordSize ≤ length)
    (hmax : length ≤ kMaxRecordSize) (hinput : length ≤ input.length) :
    readRecord input out = (do
      let record ← decode (input.take length)
      if out.getLast?.any fun last => record.lsn ≤ last.lsn then .error (.wal "non-monotonic WAL LSN")
      else return some (input.drop length, out ++ [record])) := by
  rw [readRecord, if_neg (by simp only [kMinimumRecordSize, kHeaderSize] at hmin ⊢; omega)]
  dsimp only
  rw [hlength, if_neg (by omega), if_neg (by omega)]

theorem readRecord_encoding (h : Encodable record) (hfollows : Follows record out) (rest : Bytes) :
    readRecord (encoding record ++ rest) out = .ok (some (rest, out ++ [record])) := by
  have hlength := encoding_length record
  have hfield : window (encoding record ++ rest) 8 4 = window (encoding record) 8 4 := by
    apply window_append_of_le
    rw [hlength, kMinimumRecordSize]
    omega
  have hlast : ¬ (out.getLast?.any fun last => record.lsn ≤ last.lsn) = true := by
    rw [Option.any_eq_true_iff_get]
    rintro ⟨hsome, hle⟩
    have hlt := hfollows _ (Option.get_mem hsome)
    simp only [decide_eq_true_eq] at hle
    omega
  rw [readRecord_whole (lengthField h hfield) (by omega) (encoding_length_le h) (by simp), List.take_left, List.drop_left,
    decode_encoding h]
  simp only [bind, Except.bind, if_neg hlast]
  rfl

/-- A torn record ends the file. -/
theorem readRecord_torn (h : Encodable record) {k : Nat} (hk : k < (encoding record).length) :
    readRecord ((encoding record).take k) out = .ok none := by
  have hlen : ((encoding record).take k).length = k := by rw [List.length_take]; omega
  rw [readRecord, hlen]
  split
  · rfl
  rename_i hheader
  have hfield : window ((encoding record).take k) 8 4 = window (encoding record) 8 4 := by
    apply window_take
    simp only [kHeaderSize] at hheader
    omega
  have hmin := encoding_length record
  have hmax := encoding_length_le h
  dsimp only
  rw [lengthField h hfield, if_neg (by omega), if_pos hk]

/-- The file that appending these records leaves. -/
def fileOf (records : List WalRecord) : Bytes := records.flatMap encoding

def Increasing (records : List WalRecord) : Prop := records.Pairwise fun a b => a.lsn < b.lsn

theorem fileOf_cons (record : WalRecord) (records : List WalRecord) :
    fileOf (record :: records) = encoding record ++ fileOf records := List.flatMap_cons

theorem fileOf_append (first second : List WalRecord) : fileOf (first ++ second) = fileOf first ++ fileOf second :=
  List.flatMap_append

theorem Increasing.follows (h : Increasing (out ++ record :: records)) : Follows record out := by
  intro last hlast
  exact (List.pairwise_append.mp h).2.2 last (List.mem_of_getLast? hlast) record List.mem_cons_self

/-- The reader takes in whole records one by one, whatever comes behind them. -/
theorem readFrom_fileOf (hencodable : ∀ record ∈ records, Encodable record) (hincreasing : Increasing (out ++ records))
    (rest : Bytes) : readFrom (fileOf records ++ rest) out = readFrom rest (out ++ records) := by
  induction records generalizing out with
  | nil => rw [List.append_nil]; rfl
  | cons record records ih =>
    have hrecord := hencodable record List.mem_cons_self
    have hincreasing' : Increasing ((out ++ [record]) ++ records) := by
      rw [List.append_assoc]
      exact hincreasing
    rw [fileOf_cons, List.append_assoc, readFrom_eq, readRecord_encoding hrecord hincreasing.follows]
    dsimp only
    rw [ih (fun r hr => hencodable r (List.mem_cons_of_mem record hr)) hincreasing', List.append_assoc,
      List.singleton_append]

/-- Reading a file from its start. -/
theorem readRecords_append (hencodable : ∀ record ∈ records, Encodable record) (hincreasing : Increasing records)
    (rest : Bytes) : readRecords (fileOf records ++ rest) = readFrom rest records :=
  @readFrom_fileOf [] records hencodable hincreasing rest

theorem readRecords_fileOf (hencodable : ∀ record ∈ records, Encodable record) (hincreasing : Increasing records) :
    readRecords (fileOf records) = .ok records := by
  rw [← List.append_nil (fileOf records), readRecords_append hencodable hincreasing, readFrom_eq, readRecord_nil]

/-! ## What is read from any file -/

theorem decode_lsn_pos (h : decode bytes = .ok record) : 0 < record.lsn := by
  unfold decode at h
  dsimp only at h
  repeat' split at h
  all_goals first
    | cases h; done
    | obtain rfl := Except.ok.inj h
      exact Nat.pos_of_ne_zero ‹_›

theorem Increasing.snoc (h : Increasing out) (hfollows : Follows record out) : Increasing (out ++ [record]) := by
  refine List.pairwise_append.mpr ⟨h, List.pairwise_singleton _ _, fun earlier hearlier other hother => ?_⟩
  obtain rfl := List.mem_singleton.mp hother
  rcases List.eq_nil_or_concat out with rfl | ⟨before, last, rfl⟩
  · cases hearlier
  · have hlast := hfollows last (by simp)
    rcases List.mem_append.mp (List.concat_eq_append ▸ hearlier) with hbefore | hlater
    · rw [List.concat_eq_append] at h
      exact ((List.pairwise_append.mp h).2.2 earlier hbefore last (List.mem_singleton_self _)).trans hlast
    · obtain rfl := List.mem_singleton.mp hlater
      exact hlast

theorem readLoop_ordered {fuel : Nat} (h : readLoop fuel input out = .ok records) (hincreasing : Increasing out)
    (hpos : ∀ record ∈ out, 0 < record.lsn) : Increasing records ∧ ∀ record ∈ records, 0 < record.lsn := by
  induction fuel generalizing input out with
  | zero =>
    obtain rfl := Except.ok.inj h
    exact ⟨hincreasing, hpos⟩
  | succ fuel ih =>
    rw [readLoop_succ] at h
    rcases hread : readRecord input out with e | _ | ⟨rest, out'⟩
    · rw [hread] at h
      cases h
    · rw [hread] at h
      obtain rfl := Except.ok.inj h
      exact ⟨hincreasing, hpos⟩
    · rw [hread] at h
      obtain ⟨record, hdecode, -, rfl, -, -, hfollows⟩ := readRecord_some hread
      refine ih h (hincreasing.snoc hfollows) (List.forall_mem_append.mpr ⟨hpos, fun other hother => ?_⟩)
      rw [List.mem_singleton.mp hother]
      exact decode_lsn_pos hdecode

/-- The LSNs of what is read from a file are positive and ascend, whatever the file is. -/
theorem readRecords_ordered {file : Bytes} (h : readRecords file = .ok records) :
    Increasing records ∧ ∀ record ∈ records, 0 < record.lsn :=
  readLoop_ordered h List.Pairwise.nil nofun

end Ddb.Storage.LogManager
