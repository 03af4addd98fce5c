import Mathlib.Data.List.Pairwise
import Ddb.Recovery.Analysis
import Ddb.Recovery.ReplayContext

/-!
# REDO

REDO goes through the log once and repeats what committed transactions did: an allocation if the page is not allocated, an
after-image if the PageLSN does not have it. Its counters are left out.
-/

namespace Ddb.Recovery

open Ddb.Lib Ddb.Storage Ddb.Buffer Std

namespace RedoEngine

/-- The loop body. -/
def redoRecord (state : RecoveryState) (record : WalRecord) : ReplayOp Unit :=
  match state.transaction record.transactionId with
  | none => throw (.logic "recovery record has no transaction analysis")
  | some transaction =>
    if transaction.status ≠ .committed then pure ()
    else
      match record.type with
      | .pageAllocate =>
        match state.allocations.find? fun entry => entry.lsn = record.lsn ∧ entry.transactionId = record.transactionId with
        | none => throw (.logic "missing analyzed PAGE_ALLOCATE record")
        | some allocation => do
          let _ ← ReplayContext.redoPageAllocate allocation.pageId
      | .physicalMutation =>
        match state.mutations.find? fun entry => entry.lsn = record.lsn ∧ entry.transactionId = record.transactionId with
        | none => throw (.logic "missing analyzed physical mutation")
        | some entry => do
          let _ ← ReplayContext.redoPhysicalMutation record.lsn entry.mutation
      | _ => pure ()

def run (state : RecoveryState) : ReplayOp Unit := state.records.forM (redoRecord state)

end RedoEngine

/-! ## The pages, as the log tells them -/

variable {records rest : List WalRecord} {record : WalRecord} {state : RecoveryState} {p : PageId} {entry : AllocationRecord}

def historyOn (records : List WalRecord) (p : PageId) : List MutationRecord :=
  (mutationsIn records).filter fun entry => entry.mutation.pageId = p

/-- The mutations of a page by committed transactions. -/
def winnersOn (records : List WalRecord) (p : PageId) : List MutationRecord :=
  (historyOn records p).filter fun entry => won records entry.transactionId

/-- A transaction that is not committed has a mutation on the page. -/
def affected (records : List WalRecord) (p : PageId) : Bool :=
  (historyOn records p).any fun entry => !won records entry.transactionId

/-- An allocation of the page is in the log, by a transaction that is committed, or by one that is not. -/
def allocates (records : List WalRecord) (committed : Bool) (p : PageId) : Bool :=
  (allocationsIn records).any fun entry => entry.pageId = p ∧ won records entry.transactionId = committed

theorem mem_mutationsIn {entry : MutationRecord} : entry ∈ mutationsIn records ↔
    ∃ record ∈ records, mutationOf record = some entry := List.mem_filterMap

theorem mem_allocationsIn : entry ∈ allocationsIn records ↔
    ∃ record ∈ records, allocationOf record = some entry := List.mem_filterMap

theorem mutationOf_eq_some {entry : MutationRecord} (h : mutationOf record = some entry) :
    record.type = .physicalMutation ∧ LogManager.decodePhysicalMutation record.payload = .ok entry.mutation ∧
      entry.lsn = record.lsn ∧ entry.transactionId = record.transactionId := by
  rw [mutationOf] at h
  split at h
  · rename_i htype
    obtain ⟨mutation, hdecode, rfl⟩ := Option.map_eq_some_iff.mp h
    refine ⟨htype, ?_, rfl, rfl⟩
    cases hpayload : LogManager.decodePhysicalMutation record.payload with
    | error e => simp [hpayload, Except.toOption] at hdecode
    | ok other =>
      rw [hpayload] at hdecode
      obtain rfl := Option.some.inj hdecode
      rfl
  · cases h

theorem allocationOf_eq_some (h : allocationOf record = some entry) :
    record.type = .pageAllocate ∧ LogManager.decodePageAllocate record.payload = .ok entry.pageId ∧
      entry.lsn = record.lsn ∧ entry.transactionId = record.transactionId := by
  rw [allocationOf] at h
  split at h
  · rename_i htype
    obtain ⟨page, hdecode, rfl⟩ := Option.map_eq_some_iff.mp h
    refine ⟨htype, ?_, rfl, rfl⟩
    cases hpayload : LogManager.decodePageAllocate record.payload with
    | error e => simp [hpayload, Except.toOption] at hdecode
    | ok other =>
      rw [hpayload] at hdecode
      obtain rfl := Option.some.inj hdecode
      rfl
  · cases h

/-- LSNs tell the records of a log apart. -/
theorem eq_of_lsn_eq (h : records.Pairwise fun a b => a.lsn < b.lsn) {a b : WalRecord} (ha : a ∈ records) (hb : b ∈ records)
    (hlsn : a.lsn = b.lsn) : a = b := by
  by_contra hne
  have hapart : records.Pairwise fun a b => a.lsn ≠ b.lsn := h.imp Nat.ne_of_lt
  have hsymm : Std.Symm fun a b : WalRecord => a.lsn ≠ b.lsn := ⟨fun _ _ h => h.symm⟩
  exact hapart.forall ha hb hne hlsn

/-- The lookups of REDO find what was decoded from the record. -/
theorem find_mutation (h : records.Pairwise fun a b => a.lsn < b.lsn) (hmem : record ∈ records) {entry : MutationRecord}
    (hentry : mutationOf record = some entry) :
    (mutationsIn records).find? (fun other => other.lsn = record.lsn ∧ other.transactionId = record.transactionId) =
      some entry := by
  obtain ⟨-, -, hlsn, htx⟩ := mutationOf_eq_some hentry
  cases hfind : (mutationsIn records).find? fun other =>
      other.lsn = record.lsn ∧ other.transactionId = record.transactionId with
  | none =>
    have hnot := List.find?_eq_none.mp hfind entry (mem_mutationsIn.mpr ⟨record, hmem, hentry⟩)
    simp [hlsn, htx] at hnot
  | some other =>
    have hsame := List.find?_some hfind
    obtain ⟨record', hmem', hother⟩ := mem_mutationsIn.mp (List.mem_of_find?_eq_some hfind)
    have hlsn' : record'.lsn = record.lsn := (mutationOf_eq_some hother).2.2.1.symm.trans (of_decide_eq_true hsame).1
    rw [eq_of_lsn_eq h hmem' hmem hlsn', hentry] at hother
    exact hother.symm

theorem find_allocation (h : records.Pairwise fun a b => a.lsn < b.lsn) (hmem : record ∈ records)
    (hentry : allocationOf record = some entry) :
    (allocationsIn records).find? (fun other => other.lsn = record.lsn ∧ other.transactionId = record.transactionId) =
      some entry := by
  obtain ⟨-, -, hlsn, htx⟩ := allocationOf_eq_some hentry
  cases hfind : (allocationsIn records).find? fun other =>
      other.lsn = record.lsn ∧ other.transactionId = record.transactionId with
  | none =>
    have hnot := List.find?_eq_none.mp hfind entry (mem_allocationsIn.mpr ⟨record, hmem, hentry⟩)
    simp [hlsn, htx] at hnot
  | some other =>
    have hsame := List.find?_some hfind
    obtain ⟨record', hmem', hother⟩ := mem_allocationsIn.mp (List.mem_of_find?_eq_some hfind)
    have hlsn' : record'.lsn = record.lsn := (allocationOf_eq_some hother).2.2.1.symm.trans (of_decide_eq_true hsame).1
    rw [eq_of_lsn_eq h hmem' hmem hlsn', hentry] at hother
    exact hother.symm

/-! ## REDO -/

/-- The page that the record allocates, if REDO repeats it. -/
def allocating (records : List WalRecord) (record : WalRecord) : Option PageId :=
  if won records record.transactionId then (allocationOf record).map AllocationRecord.pageId else none

/-- The mutation of the record, if REDO repeats it. -/
def writing (records : List WalRecord) (record : WalRecord) : Option PhysicalMutation :=
  if won records record.transactionId then (mutationOf record).map MutationRecord.mutation else none

/-- The loop body, once the lookups are done. -/
theorem redoRecord_eq (hstate : Analyzed records state) (hascending : records.Pairwise fun a b => a.lsn < b.lsn)
    (hmem : record ∈ records) (hdecodable : Decodable record) :
    RedoEngine.redoRecord state record =
      match allocating records record, writing records record with
      | some page, _ => do let _ ← ReplayContext.redoPageAllocate page
      | none, some mutation => do let _ ← ReplayContext.redoPhysicalMutation record.lsn mutation
      | none, none => pure () := by
  obtain ⟨transaction, htransaction, hstatus⟩ := hstate.status (List.any_eq_true.mpr ⟨record, hmem, decide_eq_true rfl⟩)
  rw [RedoEngine.redoRecord, htransaction, allocating, writing]
  dsimp only
  by_cases hwon : won records record.transactionId = true
  swap
  · rw [if_pos fun hcommitted => hwon (hstatus.mp hcommitted), if_neg hwon, if_neg hwon]
  rw [if_neg (not_not.mpr (hstatus.mpr hwon)), if_pos hwon, if_pos hwon]
  cases htype : record.type with
  | pageAllocate =>
    simp only [Decodable, htype] at hdecodable
    obtain ⟨page, hdecode⟩ := hdecodable
    have hentry : allocationOf record = some ⟨record.lsn, record.transactionId, page⟩ := by
      rw [allocationOf, if_pos htype, hdecode]
      rfl
    dsimp only
    rw [hstate.allocations, find_allocation hascending hmem hentry, hentry]
    rfl
  | physicalMutation =>
    simp only [Decodable, htype] at hdecodable
    obtain ⟨mutation, hdecode⟩ := hdecodable
    have hentry : mutationOf record = some ⟨record.lsn, record.transactionId, mutation⟩ := by
      rw [mutationOf, if_pos htype, hdecode]
      rfl
    have hnone : allocationOf record = none := by
      rw [allocationOf, if_neg (by rw [htype]; decide)]
    dsimp only
    rw [hstate.mutations, find_mutation hascending hmem hentry, hentry, hnone]
    rfl
  | _ =>
    rw [allocationOf, mutationOf, if_neg (by rw [htype]; decide), if_neg (by rw [htype]; decide)]
    rfl

/-- A record, as REDO applies it to the store. -/
def redoOn (records : List WalRecord) (store : Store) (record : WalRecord) : Store :=
  if won records record.transactionId then
    match allocationOf record, mutationOf record with
    | some allocation, _ => store.mark allocation.pageId true
    | none, some entry => store.onPage entry.mutation.pageId (Store.redo entry.lsn entry.mutation.afterImage)
    | none, none => store
  else store

theorem redoOn_eq (store : Store) : redoOn records store record =
    match allocating records record, writing records record with
    | some page, _ => store.mark page true
    | none, some mutation => store.onPage mutation.pageId (Store.redo record.lsn mutation.afterImage)
    | none, none => store := by
  rw [redoOn, allocating, writing]
  split
  · cases allocationOf record with
    | some allocation => rfl
    | none =>
      cases hmutation : mutationOf record with
      | none => rfl
      | some entry =>
        rw [← (mutationOf_eq_some hmutation).2.2.1]
        rfl
  · rfl

/-- The log is durable as far as the records go. -/
abbrev Replay.Covers (r : Replay) (records : List WalRecord) : Prop :=
  ∀ record ∈ records, Cache.LsnDurable r.cache.walDurability record.lsn

theorem Replay.Covers.of_wal {r r' : Replay} (h : r.Covers records)
    (hwal : r'.cache.walDurability = r.cache.walDurability) : r'.Covers records := by
  rwa [Covers, hwal]

/-- Nothing stands in the way of repeating these records. -/
structure Repeatable (records : List WalRecord) (r : Replay) : Prop where
  solo : r.cache.Solo
  durable : ∀ record ∈ records, Cache.LsnDurable r.cache.walDurability record.lsn
  slots : ∀ entry ∈ allocationsIn records, entry.pageId.index < r.cache.pages.pageCount
  allocated : ∀ entry ∈ mutationsIn records, r.store.allocated entry.mutation.pageId = true

theorem decodePageAllocate_valid {bytes : Bytes} {page : PageId} (h : LogManager.decodePageAllocate bytes = .ok page) :
    page.isValid = true := by
  rw [LogManager.decodePageAllocate] at h
  split at h
  · cases h
  · dsimp only at h
    split at h
    · cases h
    · rename_i hvalid
      obtain rfl := Except.ok.inj h
      exact eq_true_of_ne_false hvalid

theorem allocationsIn_cons : allocationsIn (record :: rest) = (allocationOf record).toList ++ allocationsIn rest := by
  rw [allocationsIn, List.filterMap_cons, allocationsIn]
  cases allocationOf record <;> rfl

theorem mutationsIn_cons : mutationsIn (record :: rest) = (mutationOf record).toList ++ mutationsIn rest := by
  rw [mutationsIn, List.filterMap_cons, mutationsIn]
  cases mutationOf record <;> rfl

/-- REDO allocates pages and releases none. -/
theorem redoOn_allocated (store : Store) (h : store.allocated p = true) : (redoOn records store record).allocated p = true := by
  rw [redoOn]
  split
  · cases allocationOf record with
    | some allocation =>
      change (if p = allocation.pageId then true else store.allocated p) = true
      split
      · rfl
      · exact h
    | none => cases mutationOf record <;> exact h
  · exact h

theorem allocating_eq_some {page : PageId} (h : allocating records record = some page) :
    page.isValid = true ∧ won records record.transactionId = true ∧
      allocationOf record = some ⟨record.lsn, record.transactionId, page⟩ := by
  rw [allocating] at h
  split at h
  · rename_i hwon
    obtain ⟨⟨lsn, owner, other⟩, hof, rfl⟩ := Option.map_eq_some_iff.mp h
    obtain ⟨-, hdecode, hlsn, howner⟩ := allocationOf_eq_some hof
    obtain rfl : lsn = record.lsn := hlsn
    obtain rfl : owner = record.transactionId := howner
    exact ⟨decodePageAllocate_valid hdecode, hwon, hof⟩
  · cases h

theorem writing_eq_some {mutation : PhysicalMutation} (h : writing records record = some mutation) :
    won records record.transactionId = true ∧ mutationOf record = some ⟨record.lsn, record.transactionId, mutation⟩ := by
  rw [writing] at h
  split at h
  · rename_i hwon
    obtain ⟨⟨lsn, owner, other⟩, hof, rfl⟩ := Option.map_eq_some_iff.mp h
    obtain ⟨-, -, hlsn, howner⟩ := mutationOf_eq_some hof
    obtain rfl : lsn = record.lsn := hlsn
    obtain rfl : owner = record.transactionId := howner
    exact ⟨hwon, hof⟩
  · cases h

theorem redoRecord_run {r : Replay} (hstate : Analyzed records state) (hascending : records.Pairwise fun a b => a.lsn < b.lsn)
    (hmem : record ∈ records) (hpos : 0 < record.lsn) (h : Repeatable (record :: rest) r) (hdecodable : Decodable record) :
    ∃ r', (RedoEngine.redoRecord state record).run r = (.ok (), r') ∧
      Replay.Became r r' (fun store => redoOn records store record) := by
  rw [redoRecord_eq hstate hascending hmem hdecodable, funext fun store => redoOn_eq store]
  cases hallocating : allocating records record with
  | some page =>
    obtain ⟨hvalid, -, hof⟩ := allocating_eq_some hallocating
    obtain ⟨r', hrun, hbecame, -⟩ := Replay.redoPageAllocate_run h.solo hvalid
      (h.slots ⟨record.lsn, record.transactionId, page⟩ (by rw [allocationsIn_cons, hof]; simp))
    exact ⟨r', by rw [Op.bind_ok hrun]; rfl, hbecame⟩
  | none =>
    cases hwriting : writing records record with
    | none => exact ⟨r, rfl, .refl h.solo⟩
    | some mutation =>
      obtain ⟨-, hof⟩ := writing_eq_some hwriting
      obtain ⟨applied, r', hrun, hbecame, -⟩ := Replay.redoPhysicalMutation_run h.solo mutation hpos
        (h.allocated ⟨record.lsn, record.transactionId, mutation⟩ (by rw [mutationsIn_cons, hof]; simp))
        (h.durable record List.mem_cons_self)
      exact ⟨r', by rw [Op.bind_ok hrun]; rfl, hbecame⟩

/-- What is left of the log can still be repeated. -/
theorem Repeatable.step {r r' : Replay} (h : Repeatable (record :: rest) r)
    (hbecame : Replay.Became r r' (fun store => redoOn records store record)) : Repeatable rest r' := by
  refine ⟨hbecame.solo, ?_, ?_, ?_⟩
  · intro other hother
    rw [hbecame.wal]
    exact h.durable other (List.mem_cons_of_mem _ hother)
  · intro entry hentry
    rw [hbecame.pageCount]
    exact h.slots entry (by rw [allocationsIn_cons]; exact List.mem_append_right _ hentry)
  · intro entry hentry
    rw [hbecame.store]
    exact redoOn_allocated _ (h.allocated entry (by rw [mutationsIn_cons]; exact List.mem_append_right _ hentry))

theorem redoRecords_run {r : Replay} (hstate : Analyzed records state)
    (hascending : records.Pairwise fun a b => a.lsn < b.lsn) (hsub : ∀ record ∈ rest, record ∈ records)
    (hpos : ∀ record ∈ records, 0 < record.lsn) (hdecodable : ∀ record ∈ records, Decodable record) (h : Repeatable rest r) :
    ∃ r', (rest.forM (RedoEngine.redoRecord state)).run r = (.ok (), r') ∧
      Replay.Became r r' (fun store => rest.foldl (redoOn records) store) := by
  induction rest generalizing r with
  | nil => exact ⟨r, rfl, .refl h.solo⟩
  | cons record rest ih =>
    obtain ⟨hmem, hsub'⟩ := List.forall_mem_cons.mp hsub
    obtain ⟨r₁, hrun, hbecame⟩ := redoRecord_run hstate hascending hmem (hpos record hmem) h (hdecodable record hmem)
    obtain ⟨r', hrest, hlast⟩ := ih hsub' (h.step hbecame)
    refine ⟨r', ?_, hbecame.trans hlast⟩
    rw [Op.forM_cons_ok hrun, hrest]

/-! What REDO leaves of a page is what its committed mutations make of it, one after the other. -/

/-- The mutations of a page among these records, by transactions committed in the log. -/
def winnersAmong (records rest : List WalRecord) (p : PageId) : List MutationRecord :=
  (mutationsIn rest).filter fun entry => entry.mutation.pageId = p ∧ won records entry.transactionId = true

def redoPage (page : Page) (entry : MutationRecord) : Page := Store.redo entry.lsn entry.mutation.afterImage page

theorem mutationOf_of_allocationOf {allocation : AllocationRecord} (h : allocationOf record = some allocation) :
    mutationOf record = none := by
  rw [mutationOf, if_neg]
  rw [(allocationOf_eq_some h).1]
  decide

theorem foldl_redoOn_image (store : Store) (p : PageId) : (rest.foldl (redoOn records) store).image p =
    (store.image p).map fun page => (winnersAmong records rest p).foldl redoPage page := by
  induction rest generalizing store with
  | nil => simp [winnersAmong, mutationsIn]
  | cons record rest ih =>
    rw [List.foldl_cons, ih, redoOn, winnersAmong, winnersAmong, mutationsIn_cons, List.filter_append]
    cases hmutation : mutationOf record with
    | none =>
      have hsame : ∀ value : Bool, (match allocationOf record, (none : Option MutationRecord) with
          | some allocation, _ => store.mark allocation.pageId true
          | none, some entry => store.onPage entry.mutation.pageId (Store.redo entry.lsn entry.mutation.afterImage)
          | none, none => store : Store).image p = store.image p := by
        intro value
        cases allocationOf record <;> rfl
      split
      · rw [hsame true]
        rfl
      · rfl
    | some entry =>
      have hnone : allocationOf record = none := by
        cases hallocation : allocationOf record with
        | none => rfl
        | some allocation =>
          rw [mutationOf_of_allocationOf hallocation] at hmutation
          cases hmutation
      have htx := (mutationOf_eq_some hmutation).2.2.2
      rw [hnone]
      dsimp only
      by_cases hwon : won records record.transactionId = true
      · rw [if_pos hwon]
        change Option.map _ (if p = entry.mutation.pageId then (store.image p).map _ else store.image p) = _
        by_cases hpage : p = entry.mutation.pageId
        · rw [if_pos hpage, Option.map_map]
          simp [hpage, htx, hwon, redoPage, Function.comp_def]
        · rw [if_neg hpage]
          simp [Ne.symm hpage]
      · rw [if_neg hwon]
        simp [htx, hwon]

theorem foldl_redoOn_allocated (store : Store) (p : PageId) : (rest.foldl (redoOn records) store).allocated p =
    (store.allocated p ||
      (allocationsIn rest).any fun entry => entry.pageId = p ∧ won records entry.transactionId = true) := by
  induction rest generalizing store with
  | nil => simp [allocationsIn]
  | cons record rest ih =>
    rw [List.foldl_cons, ih, redoOn, allocationsIn_cons, List.any_append]
    cases hallocation : allocationOf record with
    | none =>
      have hsame : (match (none : Option AllocationRecord), mutationOf record with
          | some allocation, _ => store.mark allocation.pageId true
          | none, some entry => store.onPage entry.mutation.pageId (Store.redo entry.lsn entry.mutation.afterImage)
          | none, none => store : Store).allocated p = store.allocated p := by
        cases mutationOf record <;> rfl
      split
      · rw [hsame]
        rfl
      · rfl
    | some entry =>
      have htx := (allocationOf_eq_some hallocation).2.2.2
      dsimp only
      by_cases hwon : won records record.transactionId = true
      · rw [if_pos hwon]
        change ((if p = entry.pageId then true else store.allocated p) || _) = _
        by_cases hpage : p = entry.pageId
        · simp [hpage, htx, hwon]
        · simp [hpage, Ne.symm hpage]
      · rw [if_neg hwon]
        simp [htx, hwon]

theorem foldl_redoOn_reconstructed (store : Store) :
    (rest.foldl (redoOn records) store).reconstructed = store.reconstructed := by
  induction rest generalizing store with
  | nil => rfl
  | cons record rest ih =>
    rw [List.foldl_cons, ih, redoOn]
    split
    · split <;> rfl
    · rfl

end Ddb.Recovery
