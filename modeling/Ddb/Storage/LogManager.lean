import Ddb.Storage.Page

/-!
# The write-ahead log

Records are appended in LSN order; a record is durable once a later flush has returned. The log file is the list of its
complete records: what the bytes of a record are, and what a torn or damaged file reads as, is the matter of the record
codec and not of its users. A mutation or allocation record carries its payload as bytes, because recovery decodes it
again.

`appendFaults` and `flushFaults` are what the file system will answer, one entry a call; an exhausted list means that
everything from there on succeeds. A failed append has used its LSN up and left no record.
-/

namespace Ddb.Storage

open Ddb.Lib

inductive MutationKind where
  | payloadWrite
  deriving DecidableEq, Repr

/-- A full-page change. `previousPageLsn` is an aid of the runtime abort and no field of the log. -/
structure PhysicalMutation where
  pageId : PageId
  kind : MutationKind
  sequence : UInt64
  beforeImage : Payload
  afterImage : Payload
  previousPageLsn : Nat
  deriving DecidableEq

inductive WalRecordType where
  | begin
  | physicalMutation
  | commit
  | abort
  | pageAllocate
  deriving DecidableEq, Repr

structure WalRecord where
  lsn : Nat
  transactionId : Nat
  type : WalRecordType
  payload : Bytes
  deriving DecidableEq

structure LogManager where
  records : List WalRecord
  nextLsn : Nat
  durableLsn : Nat
  failNextFlush : Bool
  appendFaults : List Bool
  flushFaults : List Bool

abbrev LogOp := Op Err LogManager

namespace LogManager

def kMinimumRecordSize : Nat := 40
def kMaxRecordSize : Nat := 32 * 1024 * 1024

/-- A log on an empty file. -/
def empty : LogManager := ⟨[], 1, 0, false, [], []⟩

/-- The constructor, on a file with these records: all of them are on disk. -/
def reopen (records : List WalRecord) : LogManager where
  records := records
  nextLsn := (records.getLast?.elim 0 WalRecord.lsn) + 1
  durableLsn := records.getLast?.elim 0 WalRecord.lsn
  failNextFlush := false
  appendFaults := []
  flushFaults := []

/-! ## Payloads -/

/-- An image of the size of a page payload. -/
def imageOf (bytes : Bytes) : Option Payload :=
  if h : bytes.length = kPagePayloadSize then some ⟨bytes, h⟩ else none

def kindByte : MutationKind → UInt8
  | .payloadWrite => 0

def encodePhysicalMutation (mutation : PhysicalMutation) : Except Err Bytes :=
  if mutation.pageId.isValid = false then .error (.wal "invalid WAL mutation page id")
  else .ok (leBytes 8 mutation.pageId.index ++ [kindByte mutation.kind] ++ leBytes 8 mutation.sequence.toNat ++
    leBytes 4 mutation.beforeImage.bytes.length ++ leBytes 4 mutation.afterImage.bytes.length ++
    mutation.beforeImage.bytes ++ mutation.afterImage.bytes)

def decodePhysicalMutation (bytes : Bytes) : Except Err PhysicalMutation :=
  if bytes.length < 25 then .error (.wal "truncated WAL mutation payload")
  else
    let beforeLength := leValue (window bytes 17 4)
    let afterLength := leValue (window bytes 21 4)
    if beforeLength ≠ kPagePayloadSize ∨ afterLength ≠ kPagePayloadSize ∨
        bytes.length ≠ 25 + beforeLength + afterLength then
      .error (.wal "invalid WAL mutation image lengths")
    else if bytes.getD 8 0 ≠ kindByte .payloadWrite then .error (.wal "invalid WAL mutation kind")
    else
      let page := PageId.ofIndex (leValue (window bytes 0 8))
      if page.isValid = false then .error (.wal "invalid WAL mutation page id")
      else
        match imageOf (window bytes 25 beforeLength), imageOf (bytes.drop (25 + beforeLength)) with
        | some before, some after =>
          .ok ⟨page, .payloadWrite, UInt64.ofNat (leValue (window bytes 9 8)), before, after, 0⟩
        | _, _ => .error .outOfBounds

def encodePageAllocate (page : PageId) : Except Err Bytes :=
  if page.isValid = false then .error (.wal "invalid WAL allocation page id") else .ok (leBytes 8 page.index)

def decodePageAllocate (bytes : Bytes) : Except Err PageId :=
  if bytes.length ≠ 8 then .error (.wal "invalid WAL allocation payload length")
  else
    let page := PageId.ofIndex (leValue bytes)
    if page.isValid = false then .error (.wal "invalid WAL allocation page id") else .ok page

/-! ## Appending and flushing -/

/-- The exception of a `require`, or its value. -/
def lift {α : Type} : Except Err α → LogOp α
  | .ok a => pure a
  | .error e => throw e

/-- `file_.write`, as the file system answers it. -/
def writeRecord (record : WalRecord) : LogOp Unit := do
  let log ← get
  match log.appendFaults with
  | true :: rest =>
    set { log with appendFaults := rest }
    throw (.wal "WAL append failed")
  | faults => set { log with appendFaults := faults.tail, records := log.records ++ [record] }

def append (type : WalRecordType) (transactionId : Nat) (payload : Bytes) : LogOp Nat := do
  let lsn := (← get).nextLsn
  modify fun log => { log with nextLsn := log.nextLsn + 1 }
  throwIf (lsn = 0) (.wal "WAL LSN must be nonzero")
  throwIf (payload.length > kMaxRecordSize - kMinimumRecordSize) (.wal "WAL payload is too large")
  writeRecord ⟨lsn, transactionId, type, payload⟩
  return lsn

def appendBegin (id : Nat) : LogOp Nat := append .begin id []
def appendCommit (id : Nat) : LogOp Nat := append .commit id []
def appendAbort (id : Nat) : LogOp Nat := append .abort id []

def appendPhysicalMutation (id : Nat) (mutation : PhysicalMutation) : LogOp Nat := do
  let payload ← lift (encodePhysicalMutation mutation)
  append .physicalMutation id payload

def appendPageAllocate (id : Nat) (page : PageId) : LogOp Nat := do
  let payload ← lift (encodePageAllocate page)
  append .pageAllocate id payload

def flush : LogOp Unit := do
  let log ← get
  if log.failNextFlush then
    set { log with failNextFlush := false }
    throw (.wal "forced WAL flush failure")
  else
    match log.flushFaults with
    | true :: rest =>
      set { log with flushFaults := rest }
      throw (.wal "WAL flush failed")
    | faults => set { log with flushFaults := faults.tail, durableLsn := log.nextLsn - 1 }

/-! ## What is logged is what is decoded -/

variable {log log' : LogManager} {id : Nat} {mutation : PhysicalMutation}

theorem encodePageAllocate_ok {page : PageId} (h : page.isValid = true) :
    encodePageAllocate page = .ok (leBytes 8 page.index) := by
  rw [encodePageAllocate, if_neg (by simp [h])]

theorem decodePageAllocate_encode {page : PageId} {payload : Bytes} (h : encodePageAllocate page = .ok payload) :
    decodePageAllocate payload = .ok page ∧ page.isValid = true := by
  rw [encodePageAllocate] at h
  split at h
  · simp at h
  · rename_i hvalid
    obtain rfl := Except.ok.inj h
    have hindex : leValue (leBytes 8 page.index) = page.index := by
      apply leValue_leBytes_of_lt
      exact page.value.toNat_lt
    rw [decodePageAllocate, if_neg (by simp)]
    dsimp only
    rw [hindex, PageId.ofIndex_index, if_neg hvalid]
    exact ⟨rfl, by simpa using hvalid⟩

theorem encodePhysicalMutation_ok (h : mutation.pageId.isValid = true) :
    encodePhysicalMutation mutation = .ok (leBytes 8 mutation.pageId.index ++ (kindByte mutation.kind ::
      (leBytes 8 mutation.sequence.toNat ++ (leBytes 4 kPagePayloadSize ++ (leBytes 4 kPagePayloadSize ++
        (mutation.beforeImage.bytes ++ mutation.afterImage.bytes)))))) := by
  rw [encodePhysicalMutation, if_neg (by simp [h]), mutation.beforeImage.size_eq, mutation.afterImage.size_eq]
  simp only [List.append_assoc, List.cons_append, List.nil_append]

theorem decodePhysicalMutation_encode {payload : Bytes} (h : encodePhysicalMutation mutation = .ok payload) :
    decodePhysicalMutation payload = .ok { mutation with previousPageLsn := 0 } ∧ mutation.pageId.isValid = true ∧
      payload.length = 25 + kPagePayloadSize + kPagePayloadSize := by
  have hvalid : mutation.pageId.isValid = true := by
    rw [encodePhysicalMutation] at h
    split at h
    · simp at h
    · rename_i hv
      simpa using hv
  rw [encodePhysicalMutation_ok hvalid] at h
  obtain rfl := Except.ok.inj h
  obtain ⟨pageId, kind, sequence, before, after, previous⟩ := mutation
  obtain ⟨before, hbefore⟩ := before
  obtain ⟨after, hafter⟩ := after
  dsimp only at hvalid ⊢
  set bytes := leBytes 8 pageId.index ++ (kindByte kind :: (leBytes 8 sequence.toNat ++ (leBytes 4 kPagePayloadSize ++
    (leBytes 4 kPagePayloadSize ++ (before ++ after))))) with hbytes
  have hlength : bytes.length = 25 + kPagePayloadSize + kPagePayloadSize := by
    simp only [hbytes, List.length_append, List.length_cons, leBytes_length, hbefore, hafter]
    omega
  -- Each field at its offset, the fields before it dropped one by one.
  have hskip : ∀ offset n, window bytes (offset + 9) n = window (leBytes 8 sequence.toNat ++ (leBytes 4 kPagePayloadSize ++
      (leBytes 4 kPagePayloadSize ++ (before ++ after)))) offset n := by
    intro offset n
    rw [hbytes, window_append_right (by simp), leBytes_length,
      show offset + 9 - 8 = offset + 1 by omega, window_cons_succ]
  have hskip' : ∀ offset n, window bytes (offset + 17) n = window (leBytes 4 kPagePayloadSize ++
      (leBytes 4 kPagePayloadSize ++ (before ++ after))) offset n := by
    intro offset n
    rw [show offset + 17 = (offset + 8) + 9 by omega, hskip, window_append_right (by simp), leBytes_length,
      Nat.add_sub_cancel]
  have hskip'' : ∀ offset n, window bytes (offset + 25) n = window (before ++ after) offset n := by
    intro offset n
    rw [show offset + 25 = (offset + 8) + 17 by omega, hskip', window_append_right (by simp), leBytes_length,
      show offset + 8 - 4 = offset + 4 by omega, window_append_right (by simp), leBytes_length, Nat.add_sub_cancel]
  have hpage : leValue (window bytes 0 8) = pageId.index := by
    rw [hbytes, window_append_left (leBytes_length 8 _)]
    exact leValue_leBytes_of_lt pageId.value.toNat_lt
  have hkind : bytes.getD 8 0 = kindByte kind := by
    simp [hbytes]
  have hsequence : leValue (window bytes 9 8) = sequence.toNat := by
    rw [hskip 0, window_append_left (leBytes_length 8 _)]
    exact leValue_leBytes_of_lt sequence.toNat_lt
  have hsize : leValue (leBytes 4 kPagePayloadSize) = kPagePayloadSize := leValue_leBytes_of_lt (by decide)
  have hfirst : leValue (window bytes 17 4) = kPagePayloadSize := by
    rw [hskip' 0, window_append_left (leBytes_length 4 _), hsize]
  have hsecond : leValue (window bytes 21 4) = kPagePayloadSize := by
    rw [hskip' 4, window_append_right (by simp), leBytes_length, Nat.sub_self, window_append_left (leBytes_length 4 _),
      hsize]
  have himage : window bytes 25 kPagePayloadSize = before := by
    rw [hskip'' 0, window_append_left hbefore]
  have himage' : bytes.drop (25 + kPagePayloadSize) = after := by
    have hwindow : window bytes (kPagePayloadSize + 25) kPagePayloadSize = after := by
      rw [hskip'', window_append_right hbefore.le, hbefore, Nat.sub_self, window, List.drop_zero,
        List.take_of_length_le hafter.le]
    rw [window, List.take_of_length_le (by rw [List.length_drop, hlength]; omega), Nat.add_comm] at hwindow
    exact hwindow
  refine ⟨?_, hvalid, hlength⟩
  rw [decodePhysicalMutation, if_neg (by omega)]
  dsimp only
  rw [hfirst, hsecond, hkind, hpage, hsequence, himage, himage', PageId.ofIndex_index, if_neg (by simp [hlength]),
    if_neg (by cases kind; simp), if_neg (by simp [hvalid]), imageOf, imageOf, dif_pos hbefore, dif_pos hafter]
  cases kind
  simp

/-! ## What a call does to the log -/

/-- The file system will answer every call. -/
def Healthy (log : LogManager) : Prop := log.failNextFlush = false ∧ log.appendFaults = [] ∧ log.flushFaults = []

/-- LSNs start at one and grow along the log, below the next one to be given. -/
structure WellFormed (log : LogManager) : Prop where
  next_pos : 0 < log.nextLsn
  lsn_pos : ∀ record ∈ log.records, 0 < record.lsn
  lsn_lt : ∀ record ∈ log.records, record.lsn < log.nextLsn
  increasing : log.records.Pairwise fun a b => a.lsn < b.lsn
  durable_lt : log.durableLsn < log.nextLsn

/-- The effect of an append: an LSN is used up, and unless the file failed the record is at the end of the log. -/
structure Appended (log log' : LogManager) (new : List WalRecord) : Prop where
  records : log'.records = log.records ++ new
  nextLsn : log'.nextLsn = log.nextLsn + 1
  durableLsn : log'.durableLsn = log.durableLsn
  lsn : ∀ record ∈ new, record.lsn = log.nextLsn
  single : new.length ≤ 1
  healthy : log.Healthy → log'.Healthy

theorem Appended.wellFormed {new : List WalRecord} (h : Appended log log' new) (hwf : log.WellFormed) :
    log'.WellFormed := by
  refine ⟨by rw [h.nextLsn]; omega, ?_, ?_, ?_, ?_⟩
  · intro record hrecord
    rw [h.records, List.mem_append] at hrecord
    rcases hrecord with hrecord | hrecord
    · exact hwf.lsn_pos record hrecord
    · rw [h.lsn record hrecord]
      exact hwf.next_pos
  · intro record hrecord
    rw [h.records, List.mem_append] at hrecord
    rw [h.nextLsn]
    rcases hrecord with hrecord | hrecord
    · exact Nat.lt_succ_of_lt (hwf.lsn_lt record hrecord)
    · rw [h.lsn record hrecord]
      exact Nat.lt_succ_self _
  · rw [h.records, List.pairwise_append]
    refine ⟨hwf.increasing, ?_, ?_⟩
    · have hsingle := h.single
      match new, hsingle with
      | [], _ => exact List.Pairwise.nil
      | [record], _ => exact List.pairwise_singleton _ _
    · intro a ha b hb
      rw [h.lsn b hb]
      exact hwf.lsn_lt a ha
  · rw [h.durableLsn, h.nextLsn]
    exact Nat.lt_succ_of_lt hwf.durable_lt

theorem writeRecord_run (record : WalRecord) (log : LogManager) : (writeRecord record).run log =
    if log.appendFaults.head? = some true then
      (.error (.wal "WAL append failed"), { log with appendFaults := log.appendFaults.tail })
    else (.ok (), { log with appendFaults := log.appendFaults.tail, records := log.records ++ [record] }) := by
  obtain ⟨records, nextLsn, durableLsn, failNextFlush, appendFaults, flushFaults⟩ := log
  cases appendFaults with
  | nil => rfl
  | cons fault rest => cases fault <;> rfl

theorem append_cases (hwf : log.WellFormed) (type : WalRecordType) (id : Nat) {payload : Bytes}
    (hsize : payload.length ≤ kMaxRecordSize - kMinimumRecordSize) :
    (∃ e log', (append type id payload).run log = (.error e, log') ∧ Appended log log' [] ∧ ¬ log.Healthy) ∨
    (∃ log', (append type id payload).run log = (.ok log.nextLsn, log') ∧
      Appended log log' [⟨log.nextLsn, id, type, payload⟩]) := by
  have hlsn : ¬ log.nextLsn = 0 := Nat.pos_iff_ne_zero.mp hwf.next_pos
  rw [append, Op.get_bind, Op.modify_bind, Op.throwIf_bind_neg hlsn, Op.throwIf_bind_neg (Nat.not_lt.mpr hsize)]
  have hwrite := writeRecord_run ⟨log.nextLsn, id, type, payload⟩ { log with nextLsn := log.nextLsn + 1 }
  by_cases hfail : log.appendFaults.head? = some true
  · have hsick : ¬ log.Healthy := fun h => by simp [h.2.1] at hfail
    rw [if_pos hfail] at hwrite
    refine Or.inl ⟨_, _, Op.bind_error hwrite, ⟨(List.append_nil _).symm, rfl, rfl, by simp, by simp, ?_⟩, hsick⟩
    exact fun h => absurd h hsick
  · rw [if_neg hfail] at hwrite
    refine Or.inr ⟨_, Op.bind_ok hwrite, rfl, rfl, rfl, by simp, Nat.le_refl 1, fun h => ?_⟩
    exact ⟨h.1, congrArg List.tail h.2.1, h.2.2⟩

theorem appendPhysicalMutation_cases (hwf : log.WellFormed) (id : Nat) (hvalid : mutation.pageId.isValid = true) :
    (∃ e log', (appendPhysicalMutation id mutation).run log = (.error e, log') ∧ Appended log log' [] ∧ ¬ log.Healthy) ∨
    (∃ payload log', (appendPhysicalMutation id mutation).run log = (.ok log.nextLsn, log') ∧
      encodePhysicalMutation mutation = .ok payload ∧ Appended log log' [⟨log.nextLsn, id, .physicalMutation, payload⟩]) := by
  have hencode := encodePhysicalMutation_ok hvalid
  obtain ⟨-, -, hlength⟩ := decodePhysicalMutation_encode hencode
  rw [appendPhysicalMutation, hencode, lift, pure_bind]
  rcases append_cases hwf .physicalMutation id (by rw [hlength]; decide) with hfail | ⟨log', hrun, happended⟩
  · exact Or.inl hfail
  · exact Or.inr ⟨_, log', hrun, rfl, happended⟩

/-- The effect of a flush: it makes the whole log durable, or it fails and only the file system's answer is used up. -/
structure Flushed (log log' : LogManager) : Prop where
  records : log'.records = log.records
  nextLsn : log'.nextLsn = log.nextLsn
  healthy : log.Healthy → log'.Healthy

theorem flush_cases (log : LogManager) :
    (∃ e log', flush.run log = (.error e, log') ∧ Flushed log log' ∧ log'.durableLsn = log.durableLsn ∧
      ¬ log.Healthy) ∨
    (∃ log', flush.run log = (.ok (), log') ∧ Flushed log log' ∧ log'.durableLsn = log.nextLsn - 1) := by
  rw [flush, Op.get_bind]
  by_cases hforced : log.failNextFlush = true
  · have hsick : ¬ log.Healthy := fun h => by simp [Healthy, hforced] at h
    rw [if_pos hforced]
    exact Or.inl ⟨_, _, rfl, ⟨rfl, rfl, fun h => absurd h hsick⟩, rfl, hsick⟩
  rw [if_neg hforced]
  cases hfaults : log.flushFaults with
  | nil => exact Or.inr ⟨_, rfl, ⟨rfl, rfl, fun h => ⟨h.1, h.2.1, rfl⟩⟩, rfl⟩
  | cons fault rest =>
    have hsick : ¬ log.Healthy := fun h => by simp [Healthy, hfaults] at h
    cases fault with
    | true => exact Or.inl ⟨_, _, rfl, ⟨rfl, rfl, fun h => absurd h hsick⟩, rfl, hsick⟩
    | false => exact Or.inr ⟨_, rfl, ⟨rfl, rfl, fun h => absurd h hsick⟩, rfl⟩

theorem Flushed.wellFormed (h : Flushed log log') (hwf : log.WellFormed)
    (hdurable : log'.durableLsn = log.durableLsn ∨ log'.durableLsn = log.nextLsn - 1) : log'.WellFormed := by
  refine ⟨h.nextLsn ▸ hwf.next_pos, h.records ▸ hwf.lsn_pos, ?_, h.records ▸ hwf.increasing, ?_⟩
  · rw [h.records, h.nextLsn]
    exact hwf.lsn_lt
  · have hpos := hwf.next_pos
    have hlt := hwf.durable_lt
    rw [h.nextLsn]
    rcases hdurable with hd | hd <;> omega

theorem wellFormed_empty : empty.WellFormed := by
  refine ⟨Nat.one_pos, ?_, ?_, List.Pairwise.nil, Nat.one_pos⟩ <;> simp [empty]

theorem healthy_empty : empty.Healthy := ⟨rfl, rfl, rfl⟩

end LogManager

end Ddb.Storage
