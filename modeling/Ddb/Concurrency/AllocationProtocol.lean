import Ddb.Concurrency.Paging
import Ddb.Concurrency.Terminal

/-!
# The allocation of a page under a transaction

A transaction gets a page in four pieces: the slot is reserved, a PAGE_ALLOCATE record is appended, the log is flushed, the bit
of the page is set. Any other client may come in between, and the log may fail at every append and every flush. A page that a
transaction has allocated has its record in the durable part of the log, and every mutation of the page is logged behind it:
until the bit is set nobody can write the page, and an id is never handed out twice. An attempt that throws leaves no trace
but the reserved slot.

Trees and heaps are programs over pages. Whatever such a program does for a transaction is a sequence of the steps of the
system, so the results hold for it too.
-/

namespace Ddb.Concurrency

open Ddb.Lib Ddb.Storage Ddb.Buffer

namespace System

variable {s s' : System} {step : Step} {t : TransactionId} {page : PageId} {record : WalRecord}

/-- The record is the PAGE_ALLOCATE of this page by this transaction. -/
def AllocatesFor (record : WalRecord) (t : TransactionId) (page : PageId) : Prop :=
  record.type = .pageAllocate ∧ record.transactionId = t ∧ LogManager.decodePageAllocate record.payload = .ok page

/-- The record is a PHYSICAL_MUTATION of this page. -/
def Mutates (record : WalRecord) (page : PageId) : Prop :=
  record.type = .physicalMutation ∧
    ∃ mutation, LogManager.decodePhysicalMutation record.payload = .ok mutation ∧ mutation.pageId = page

/-! ## What a step does to the bits, to the allocated pages and to the log -/

/-- Only the last piece of its allocation sets the bit of a page that has a slot. -/
theorem Stepped.sets_bit (hstep : Stepped s step s') (hindex : page.index < s.db.pages.pageCount)
    (hfree : s.db.pages.isPageAllocated page = false) (hset : s'.db.pages.isPageAllocated page = true) :
    ∃ t rest, step = .resume t ∧ s.calls t = .activate page :: rest := by
  have hnot : s'.db.pages.isPageAllocated page ≠ s.db.pages.isPageAllocated page := by
    rw [hset, hfree]
    exact Bool.noConfusion
  cases hstep.pages_change with
  | same _ h => exact absurd (by rw [h]) hnot
  | quiet h | wrote _ h | moved _ h _ => exact absurd (h.allocated page) hnot
  | grown _ h => exact absurd (h.bit page hindex) hnot
  | @bitSet other value t rest _ h hresume hcall =>
    have hbit := h.bit page
    split at hbit
    · rename_i heq
      rw [hset] at hbit
      rw [← hbit, ← heq] at hcall
      exact ⟨t, rest, hresume, hcall⟩
    · exact absurd hbit hnot

end System

namespace Database

/-- No transaction has got a page. -/
def SameAllocations (db db' : Database) : Prop :=
  ∀ t, (db'.transactions t).allocatedPages = (db.transactions t).allocatedPages

theorem covers_sameAllocations : Covers SameAllocations where
  refl _ _ := rfl
  trans _ _ _ hab hbc t := (hbc t).trans (hab t)
  onCache _ _ _ := rfl
  onLog _ _ _ := rfl
  note owner f hf db t := by
    change (Function.update db.transactions owner (f (db.transactions owner)) t).allocatedPages = _
    by_cases ht : t = owner
    · subst ht
      rw [Function.update_self, hf]
    · rw [Function.update_of_ne ht]

end Database

namespace System

variable {s s' : System} {step : Step} {t : TransactionId} {page : PageId} {record : WalRecord}

/-- A transaction gets a page by the last piece of its allocation. -/
theorem gets_page (hinv : s.db.Inv) (hmem : page ∈ ((s.step step).db.transactions t).allocatedPages) :
    page ∈ (s.db.transactions t).allocatedPages ∨ ∃ rest, step = .resume t ∧ s.calls t = .activate page :: rest := by
  have haccess : ∀ client id change, step = .access client id change →
      ((s.step step).db.transactions t).allocatedPages = (s.db.transactions t).allocatedPages := by
    rintro client id change rfl
    rw [System.step]
    split
    · exact Database.covers_sameAllocations.accessPage client id _ s.db t
    · rfl
  have hstep := (step_cases hinv step).1
  generalize s.step step = next at hstep hmem haccess
  cases hstep with
  | began hlog =>
    change page ∈ (Function.update s.db.transactions s.db.nextId (.fresh true) t).allocatedPages at hmem
    by_cases ht : t = s.db.nextId
    · subst ht
      rw [Function.update_self] at hmem
      cases hmem
    · rw [Function.update_of_ne ht] at hmem
      exact Or.inl hmem
  | accessed _ _ =>
    rw [haccess _ _ _ rfl] at hmem
    exact Or.inl hmem
  | @resumed owner action rest result hcall hpiece =>
    change page ∈ (result.2.transactions t).allocatedPages at hmem
    by_cases ht : t = owner
    · subst ht
      cases hpiece with
      | undone _ _ _ _ _ _ _ hrest =>
        rw [hrest.transactions, Function.update_self] at hmem
        exact Or.inl hmem
      | notUndone _ hstill | torn _ _ _ _ hstill =>
        rw [hstill.transactions] at hmem
        exact Or.inl hmem
      | @activated other pages _ _ =>
        change page ∈ (Function.update s.db.transactions t _ t).allocatedPages at hmem
        rw [Function.update_self] at hmem
        rcases List.mem_append.mp hmem with hold | hnew
        · exact Or.inl hold
        · obtain rfl := List.mem_singleton.mp hnew
          exact Or.inr ⟨rest, rfl, hcall⟩
      | _ => exact Or.inl hmem
    · rw [hpiece.transactions_of_ne ht] at hmem
      exact Or.inl hmem
  | quiet _ hstill =>
    rw [hstill.transactions] at hmem
    exact Or.inl hmem
  | _ => exact Or.inl hmem

theorem lsn_of_logs {new : List WalRecord} (h : Logs s step new) (hmem : record ∈ new) : record.lsn = s.db.log.nextLsn := by
  cases h with
  | nothing => cases hmem
  | _ => rw [List.mem_singleton.mp hmem]

/-- A page is written only while its bit is set. -/
theorem Stepped.writes (hstep : Stepped s step s') (hmem : record ∈ s'.db.log.records) (hold : record ∉ s.db.log.records)
    (hmutates : Mutates record page) : s.db.pages.isPageAllocated page = true := by
  have hsame : ∀ {log : LogManager}, log.records = s.db.log.records → record ∉ log.records := fun hrecords => hrecords ▸ hold
  have hother : ∀ {log : LogManager} {owner : TransactionId} {type : WalRecordType} {bytes : Bytes},
      s.db.log.Appended log [⟨s.db.log.nextLsn, owner, type, bytes⟩] → type ≠ .physicalMutation → record ∉ log.records := by
    intro log owner type bytes hlog htype hrecord
    rw [hlog.records, List.mem_append] at hrecord
    rcases hrecord with hbefore | hnew
    · exact hold hbefore
    · rw [List.mem_singleton.mp hnew] at hmutates
      exact htype hmutates.1
  have hfailed : ∀ {log : LogManager}, s.db.log.Appended log [] → record ∉ log.records :=
    fun hlog => hsame (hlog.records.trans (List.append_nil _))
  cases hstep with
  | began hlog => exact absurd hmem (hother hlog nofun)
  | notBegan hlog _ => exact absurd hmem (hfailed hlog)
  | accessed _ haccess =>
    cases haccess with
    | failed _ _ hstill | read _ _ _ hstill | wrote _ _ _ _ _ hstill => exact absurd hmem (hsame (congrArg _ hstill.log))
    | captured _ _ _ _ halloc hmutation hencode _ hlog _ =>
      rw [hlog.records, List.mem_append] at hmem
      obtain ⟨-, mutation', hdecode, hpage⟩ := hmutates
      rw [List.mem_singleton.mp (hmem.resolve_left hold), (LogManager.decodePhysicalMutation_encode hencode).1] at hdecode
      obtain rfl := Except.ok.inj hdecode
      rw [hmutation] at hpage
      exact hpage ▸ halloc
    | spoiled _ _ _ _ _ hlog _ _ _ =>
      rcases hlog with hlog | hlog
      · exact absurd hmem (hsame (congrArg _ hlog))
      · exact absurd hmem (hfailed hlog)
  | @resumed _ action _ _ _ hpiece =>
    cases hpiece with
    | undone _ _ _ _ _ _ hlog _ => exact absurd hmem (hsame (congrArg LogManager.records hlog))
    | notUndone _ hstill | torn _ _ _ _ hstill => exact absurd hmem (hsame (congrArg LogManager.records hstill.log))
    | logged htype _ hlog =>
      refine absurd hmem (hother hlog ?_)
      rintro rfl
      cases action <;> cases htype
    | notLogged _ hlog _ =>
      rcases hlog with rfl | hlog
      · exact absurd hmem (hsame rfl)
      · exact absurd hmem (hfailed hlog)
    | flushed hlog _ | notFlushed hlog _ _ => exact absurd hmem (hsame hlog.records)
    | _ => exact absurd hmem hold
  | quiet _ hstill => exact absurd hmem (hsame (congrArg _ hstill.log))
  | synced hlog _ => exact absurd hmem (hsame hlog.records)
  | _ => exact absurd hmem hold

theorem durable_step (hinv : s.db.Inv) (step : Step) : s.db.log.durableLsn ≤ (s.step step).db.log.durableLsn := by
  obtain ⟨new, hlog, -⟩ := (step_cases hinv step).1.log_change hinv
  exact hlog.durable_le hinv.log

/-! ## The protocol -/

/-- The page has a durable record of this transaction, in front of all its mutations. -/
def Secured (s : System) (t : TransactionId) (page : PageId) : Prop :=
  ∃ record ∈ s.db.log.records, AllocatesFor record t page ∧ record.lsn ≤ s.db.log.durableLsn ∧
    ∀ other ∈ s.db.log.records, Mutates other page → record.lsn < other.lsn

/-- A transaction is allocating the page: it is out of reach for everybody, and the record is as far as the call is. -/
structure Attempt (s : System) (t : TransactionId) (page : PageId) : Prop where
  call : s.calls t <:+ Database.allocateCall page
  valid : page.isValid = true
  index : page.index < s.db.pages.pageCount
  free : s.db.pages.isPageAllocated page = false
  untouched : ∀ record ∈ s.db.log.records, ¬ Mutates record page
  logged : .logAllocate page ∉ s.calls t → ∃ record ∈ s.db.log.records, AllocatesFor record t page
  durable : .flushLog ∉ s.calls t →
    ∃ record ∈ s.db.log.records, AllocatesFor record t page ∧ record.lsn ≤ s.db.log.durableLsn

structure Protocol (s : System) : Prop where
  inFile : ∀ record ∈ s.db.log.records, ∀ page, Mutates record page → page.index < s.db.pages.pageCount
  secured : ∀ t page, page ∈ (s.db.transactions t).allocatedPages → s.Secured t page
  attempt : ∀ t page, .activate page ∈ s.calls t → s.Attempt t page
  apart : ∀ t other page, .activate page ∈ s.calls t → .activate page ∈ s.calls other → t = other

/-- How a transaction comes to be in an allocation: it was there before, it has just reserved the page, or a piece went well. -/
theorem Stepped.in_allocation (hstep : Stepped s step s') (hmem : .activate page ∈ s'.calls t) :
    s'.calls t = s.calls t ∨
    (step = .allocate (some t) ∧ page = PageId.ofIndex s.db.pages.pageCount ∧ s'.calls t = Database.allocateCall page ∧
      s.db.pages.Reserved s'.db.pages ∧ s'.db.log = s.db.log) ∨
    ∃ action, step = .resume t ∧ s.calls t = action :: s'.calls t ∧ Database.Performed s.db t action (.ok (), s'.db) := by
  have henter : ∀ (owner : TransactionId) (call : List Action), t ≠ owner → Function.update s.calls owner call t = s.calls t :=
    fun owner call ht => Function.update_of_ne ht _ _
  cases hstep with
  | grown _ _ hcalls =>
    rcases hcalls with rfl | ⟨owner, rfl, rfl, hreserved⟩
    · exact Or.inl rfl
    · by_cases ht : t = owner
      · subst ht
        dsimp only at hmem
        rw [Function.update_self] at hmem
        have hpage : page = PageId.ofIndex s.db.pages.pageCount := by
          simpa [Database.allocateCall] using hmem
        refine Or.inr (Or.inl ⟨rfl, hpage, ?_, hreserved, rfl⟩)
        rw [hpage]
        exact Function.update_self _ _ _
      · exact Or.inl (henter owner _ ht)
  | @committing owner _ _ =>
    by_cases ht : t = owner
    · subst ht
      change .activate page ∈ Function.update s.calls t _ t at hmem
      rw [Function.update_self] at hmem
      simp [Database.commitCall] at hmem
    · exact Or.inl (henter owner _ ht)
  | @aborting owner _ _ =>
    by_cases ht : t = owner
    · subst ht
      change .activate page ∈ Function.update s.calls t _ t at hmem
      rw [Function.update_self] at hmem
      simp [Database.abortCall, Database.rollbackCall] at hmem
    · exact Or.inl (henter owner _ ht)
  | @resumed owner action rest result hcall hpiece =>
    by_cases ht : t = owner
    · subst ht
      obtain ⟨outcome, db⟩ := result
      change .activate page ∈ Function.update s.calls t (afterPiece outcome rest) t at hmem
      rw [Function.update_self] at hmem
      cases outcome with
      | error e => cases hmem
      | ok _ =>
        refine Or.inr (Or.inr ⟨action, rfl, ?_, hpiece⟩)
        change _ = action :: Function.update s.calls t _ t
        rw [Function.update_self]
        exact hcall
    · exact Or.inl (henter owner _ ht)
  | _ => exact Or.inl rfl

theorem allocatesFor_of_logged {bytes : Bytes} {lsn : Nat} (hencode : LogManager.encodePageAllocate page = .ok bytes) :
    AllocatesFor ⟨lsn, t, .pageAllocate, bytes⟩ t page :=
  ⟨rfl, rfl, (LogManager.decodePageAllocate_encode hencode).1⟩

theorem records_subset (hinv : s.db.Inv) (hmem : record ∈ s.db.log.records) : record ∈ (s.step step).db.log.records := by
  obtain ⟨new, hrecords, -⟩ := (step_cases hinv step).1.logs hinv
  rw [hrecords]
  exact List.mem_append_left _ hmem

/-- A secured page stays secured: what is logged from here on has a later LSN. -/
theorem secured_step (hinv : s.db.Inv) (h : s.Secured t page) (step : Step) : (s.step step).Secured t page := by
  obtain ⟨record, hmem, hrecord, hdurable, hbefore⟩ := h
  refine ⟨record, records_subset hinv hmem, hrecord, hdurable.trans (durable_step hinv step), fun other hother hmutates => ?_⟩
  obtain ⟨new, hrecords, hlogs⟩ := (step_cases hinv step).1.logs hinv
  rw [hrecords, List.mem_append] at hother
  rcases hother with hold | hnew
  · exact hbefore other hold hmutates
  · rw [lsn_of_logs hlogs hnew]
    exact hinv.log.lsn_lt record hmem

/-- While the call is in no other hands, the page stays out of reach. -/
theorem Attempt.keep (hinv : s.db.Inv) (h : s.Protocol) (hattempt : s.Attempt t page) (hin : .activate page ∈ s.calls t)
    (hown : ∀ rest, ¬ (step = .resume t ∧ s.calls t = .activate page :: rest)) :
    page.index < (s.step step).db.pages.pageCount ∧ (s.step step).db.pages.isPageAllocated page = false ∧
      ∀ record ∈ (s.step step).db.log.records, ¬ Mutates record page := by
  have hstep := (step_cases hinv step).1
  refine ⟨hattempt.index.trans_le (pageCount_step hinv step), ?_, fun record hmem hmutates => ?_⟩
  · rw [← Bool.not_eq_true]
    intro hset
    obtain ⟨owner, rest, hresume, hcall⟩ := hstep.sets_bit hattempt.index hattempt.free hset
    obtain rfl := h.apart owner t page (by rw [hcall]; exact List.mem_cons_self) hin
    exact hown rest ⟨hresume, hcall⟩
  · have hset := hstep.writes hmem (fun hold => hattempt.untouched record hold hmutates) hmutates
    rw [hattempt.free] at hset
    cases hset

theorem suffix_allocateCall {call : List Action} (h : call <:+ Database.allocateCall page) :
    call = Database.allocateCall page ∨ call = [.flushLog, .activate page] ∨ call = [.activate page] ∨ call = [] := by
  rw [Database.allocateCall, List.suffix_cons_iff, List.suffix_cons_iff, List.suffix_cons_iff, List.suffix_nil] at h
  exact h

theorem resume_calls {action : Action} {rest : List Action} (hcall : s.calls t = action :: rest) :
    (s.step (.resume t)).calls t <:+ rest := by
  rw [System.step, System.resume, hcall]
  dsimp only
  split
  · rw [System.enter]
    dsimp only
    rw [Function.update_self]
  · rw [System.enter]
    dsimp only
    rw [Function.update_self]
    exact List.nil_suffix

theorem attempt_step (hinv : s.db.Inv) (h : s.Protocol) (hmem : .activate page ∈ (s.step step).calls t) :
    (s.step step).Attempt t page := by
  rcases (step_cases hinv step).1.in_allocation hmem with
    hsame | ⟨-, rfl, hcall, hreserved, hlog⟩ | ⟨action, hresume, hcall, hpiece⟩
  · -- The call is where it was.
    rw [hsame] at hmem
    have hattempt := h.attempt t page hmem
    have hown : ∀ rest, ¬ (step = .resume t ∧ s.calls t = .activate page :: rest) := by
      rintro rest ⟨rfl, hcall⟩
      have hlength := (resume_calls hcall).length_le
      rw [hsame, hcall, List.length_cons] at hlength
      exact Nat.not_succ_le_self _ hlength
    obtain ⟨hindex, hfree, huntouched⟩ := hattempt.keep hinv h hmem hown
    refine ⟨hsame ▸ hattempt.call, hattempt.valid, hindex, hfree, huntouched, fun hnot => ?_, fun hnot => ?_⟩
    · obtain ⟨record, hrecord, hfor⟩ := hattempt.logged (hsame ▸ hnot)
      exact ⟨record, records_subset hinv hrecord, hfor⟩
    · obtain ⟨record, hrecord, hfor, hdurable⟩ := hattempt.durable (hsame ▸ hnot)
      exact ⟨record, records_subset hinv hrecord, hfor, hdurable.trans (durable_step hinv step)⟩
  · -- The page has just been reserved.
    have hindex := PageManager.index_ofIndex_of_le hreserved.room.le
    refine ⟨hcall ▸ List.suffix_rfl, PageManager.isValid_ofIndex_of_le hreserved.room.le, ?_, ?_, ?_, ?_, ?_⟩
    · rw [hindex, hreserved.pageCount]
      exact Nat.lt_succ_self _
    · rw [hreserved.isPageAllocated hinv.cache.pages, ← Bool.not_eq_true, PageManager.isPageAllocated_iff, hindex]
      exact fun hall => Nat.lt_irrefl _ hall.2.1
    · intro record hrecord hmutates
      rw [hlog] at hrecord
      have hbelow := h.inFile record hrecord _ hmutates
      rw [hindex] at hbelow
      exact Nat.lt_irrefl _ hbelow
    · intro hnot
      rw [hcall] at hnot
      simp [Database.allocateCall] at hnot
    · intro hnot
      rw [hcall] at hnot
      simp [Database.allocateCall] at hnot
  · -- A piece of the call itself.
    have hin : .activate page ∈ s.calls t := hcall ▸ List.mem_cons_of_mem _ hmem
    have hattempt := h.attempt t page hin
    obtain ⟨call, hnext⟩ : ∃ call, (s.step step).calls t = call := ⟨_, rfl⟩
    obtain ⟨db, hdb⟩ : ∃ db, (s.step step).db = db := ⟨_, rfl⟩
    rw [hnext] at hcall hmem
    rw [hdb] at hpiece
    have hshape := hattempt.call
    rw [hcall] at hshape
    have hown : ∀ rest, ¬ (step = .resume t ∧ s.calls t = .activate page :: rest) := by
      rintro rest ⟨-, hcall'⟩
      rw [hcall] at hcall'
      obtain ⟨rfl, rfl⟩ := List.cons.inj hcall'
      rcases suffix_allocateCall hshape with hlist | hlist | hlist | hlist
      · cases hlist
      · cases hlist
      · obtain ⟨-, rfl⟩ := List.cons.inj hlist
        cases hmem
      · cases hlist
    obtain ⟨hindex, hfree, huntouched⟩ := hattempt.keep hinv h hin hown
    have hrecord : (∃ record ∈ db.log.records, AllocatesFor record t page) ∧ (.flushLog ∉ call →
        ∃ record ∈ db.log.records, AllocatesFor record t page ∧ record.lsn ≤ db.log.durableLsn) := by
      rcases suffix_allocateCall hshape with hlist | hlist | hlist | hlist
      · obtain ⟨rfl, rfl⟩ := List.cons.inj hlist
        cases hpiece with
        | @logged _ type bytes log htype hready hlog =>
          obtain rfl := Option.some.inj htype
          refine ⟨⟨⟨s.db.log.nextLsn, t, .pageAllocate, bytes⟩, ?_, allocatesFor_of_logged hready⟩,
            fun hnot => absurd List.mem_cons_self hnot⟩
          change _ ∈ log.records
          rw [hlog.records]
          exact List.mem_append_right _ (List.mem_singleton_self _)
      · obtain ⟨rfl, rfl⟩ := List.cons.inj hlist
        obtain ⟨record, hrecord, hfor⟩ := hattempt.logged (by rw [hcall]; simp)
        cases hpiece with
        | logged htype _ _ => cases htype
        | @flushed log hlog hdurable =>
          have hmem' : record ∈ log.records := hlog.records ▸ hrecord
          refine ⟨⟨record, hmem', hfor⟩, fun _ => ⟨record, hmem', hfor, ?_⟩⟩
          change record.lsn ≤ log.durableLsn
          rw [hdurable]
          exact Nat.le_sub_one_of_lt (hinv.log.lsn_lt record hrecord)
      · obtain ⟨-, rfl⟩ := List.cons.inj hlist
        cases hmem
      · cases hlist
    refine ⟨?_, hattempt.valid, hindex, hfree, huntouched, fun _ => hdb ▸ hrecord.1, fun hnot => hdb ▸ hrecord.2 (hnext ▸ hnot)⟩
    rw [hnext]
    exact (List.suffix_cons action call).trans hshape

theorem protocol_step (hinv : s.db.Inv) (h : s.Protocol) (step : Step) : (s.step step).Protocol := by
  have hstep := (step_cases hinv step).1
  refine ⟨fun record hmem page hmutates => ?_, fun t page hmem => ?_, fun t page hmem => attempt_step hinv h hmem,
    fun t other page ht hother => ?_⟩
  · by_cases hold : record ∈ s.db.log.records
    · exact (h.inFile record hold page hmutates).trans_le (pageCount_step hinv step)
    · have halloc := hstep.writes hmem hold hmutates
      exact (PageManager.isPageAllocated_iff.mp halloc).2.1.trans_le (pageCount_step hinv step)
  · rcases gets_page hinv hmem with hold | ⟨rest, rfl, hcall⟩
    · exact secured_step hinv (h.secured t page hold) step
    · have hattempt := h.attempt t page (by rw [hcall]; exact List.mem_cons_self)
      have hnot : .flushLog ∉ s.calls t := by
        rcases suffix_allocateCall hattempt.call with hlist | hlist | hlist | hlist <;> rw [hcall] at hlist <;> cases hlist
        simp [hcall]
      obtain ⟨record, hrecord, hfor, hdurable⟩ := hattempt.durable hnot
      refine ⟨record, records_subset hinv hrecord, hfor, hdurable.trans (durable_step hinv _), fun other hother hmutates => ?_⟩
      have hset := hstep.writes hother (fun hold => hattempt.untouched other hold hmutates) hmutates
      rw [hattempt.free] at hset
      cases hset
  · -- A page that is being allocated was so before, or it is the one that has just been reserved.
    have hcases : ∀ owner, .activate page ∈ (s.step step).calls owner → .activate page ∈ s.calls owner ∨
        step = .allocate (some owner) ∧ page = PageId.ofIndex s.db.pages.pageCount ∧ s.db.pages.pageCount ≤ page.index := by
      intro owner hmem
      rcases hstep.in_allocation hmem with hsame | ⟨hallocate, hpage, -, hreserved, -⟩ | ⟨action, -, hcall, -⟩
      · exact Or.inl (hsame ▸ hmem)
      · exact Or.inr ⟨hallocate, hpage, by rw [hpage, PageManager.index_ofIndex_of_le hreserved.room.le]⟩
      · exact Or.inl (hcall ▸ List.mem_cons_of_mem _ hmem)
    rcases hcases t ht with hold | ⟨hallocate, -, hlast⟩ <;> rcases hcases other hother with hold' | ⟨hallocate', -, hlast'⟩
    · exact h.apart t other page hold hold'
    · exact absurd (h.attempt t page hold).index hlast'.not_gt
    · exact absurd (h.attempt other page hold').index hlast.not_gt
    · rw [hallocate] at hallocate'
      exact Option.some.inj (Step.allocate.inj hallocate')

end System

/-! ## Attempts that throw -/

namespace Database

variable {db db' : Database} {t : TransactionId} {page : PageId} {e : Err}

/-- The pieces of an allocation that are not its last touch the log alone. -/
theorem log_piece {action : Action} {outcome : Except Err Unit} (haction : action = .flushLog ∨ action = .logAllocate page)
    (hrun : (perform t action).run db = (outcome, db')) : ∃ log, db' = db.withLog log := by
  rcases haction with rfl | rfl
  · exact ⟨_, (Prod.mk.inj hrun).2.symm⟩
  · have hstate : db' = ((perform t (.logAllocate page)).run db).2 := by rw [hrun]
    rw [hstate, perform, Op.bind_run]
    split
    · rename_i heq
      exact ⟨_, (Prod.mk.inj heq).2.symm⟩
    · rename_i heq
      exact ⟨_, (Prod.mk.inj heq).2.symm⟩

/-- On a file that works the last piece does not throw. -/
theorem activate_returns (hinv : db.Inv) (hsynced : db.pages.Synced) (hvalid : page.isValid = true)
    (hindex : page.index < db.pages.pageCount) (hfree : db.pages.isPageAllocated page = false) :
    ∃ db', (perform t (.activate page)).run db = (.ok (), db') := by
  rcases @PageManager.activateReservedPage_cases _ page hinv.cache.pages with
    ⟨e, -, hset⟩ | ⟨outcome, pages, hrun, -, -, -, hworks⟩
  · have hset' : db.pages.isPageAllocated page = true := hset hvalid hindex
    rw [hfree] at hset'
    cases hset'
  · obtain rfl := hworks hsynced
    rw [perform, Op.bind_ok (onPageManager_of_run hrun)]
    exact ⟨_, rfl⟩

/-- Nothing but the log and the slots behind the end of the file has changed. -/
structure Unharmed (db db' : Database) : Prop where
  bits : ∀ p, db'.pages.isPageAllocated p = db.pages.isPageAllocated p
  contents : ∀ p, p ≠ PageId.ofIndex db.pages.pageCount → db'.cache.view p = db.cache.view p

theorem unharmed_of_pages {pages : PageManager} {log : LogManager}
    (hpages : db.pages.Unchanged pages ∨ db.pages.Reserved pages) (hwf : db.pages.WellFormed) :
    Unharmed db (({ db with pages := pages } : Database).withLog log) := by
  have hview : ∀ p, pages.slot p = db.pages.slot p →
      (({ db with pages := pages } : Database).withLog log).cache.view p = db.cache.view p := by
    intro p hslot
    change Cache.view ⟨pages, db.pool, _, _⟩ p = Cache.view ⟨db.pages, db.pool, _, _⟩ p
    rw [Cache.view, Cache.view]
    dsimp only
    rw [hslot]
  rcases hpages with hsame | hreserved
  · exact ⟨hsame.isPageAllocated, fun p _ => hview p (hsame.slot p)⟩
  · exact ⟨hreserved.isPageAllocated hwf, fun p hp => hview p ((hreserved.slot p).trans (if_neg hp))⟩

theorem unharmed_of_throw (hinv : db.Inv) (hsynced : db.pages.Synced) (hrun : (allocatePage t).run db = (.error e, db')) :
    Unharmed db db' := by
  have hwf := hinv.cache.pages
  rw [allocatePage_eq db (hinv.transactions t).sink] at hrun
  rcases PageManager.reservePage_cases db.pages with ⟨e', pages, hpages, hsame, -⟩ | ⟨pages, hpages, hreserved⟩
  · rw [Op.bind_error (onPageManager_of_run hpages)] at hrun
    obtain ⟨-, rfl⟩ := Prod.mk.inj hrun
    exact @unharmed_of_pages db pages db.log (Or.inl hsame) hwf
  rw [Op.bind_ok (onPageManager_of_run hpages)] at hrun
  obtain ⟨db₁, hdb₁⟩ : ∃ db₁, db₁ = ({ db with pages := pages } : Database) := ⟨_, rfl⟩
  rw [← hdb₁] at hrun
  simp only [allocateCall, List.forM_eq_forM, List.forM_cons, List.forM_nil, bind_assoc] at hrun
  -- The record, the flush and the bit, in this order: the attempt ends where the first of them throws.
  rcases hlogged : (perform t (.logAllocate (PageId.ofIndex db.pages.pageCount))).run db₁ with ⟨e₁ | _, db₂⟩
  · obtain ⟨log, rfl⟩ := log_piece (Or.inr rfl) hlogged
    rw [Op.bind_error hlogged] at hrun
    obtain ⟨-, rfl⟩ := Prod.mk.inj hrun
    rw [hdb₁]
    exact unharmed_of_pages (Or.inr hreserved) hwf
  obtain ⟨log, rfl⟩ := log_piece (Or.inr rfl) hlogged
  rw [Op.bind_ok hlogged] at hrun
  rcases hflushed : (perform t .flushLog).run (db₁.withLog log) with ⟨e₂ | _, db₃⟩
  · obtain ⟨log', rfl⟩ := @log_piece _ _ t (PageId.ofIndex db.pages.pageCount) _ _ (Or.inl rfl) hflushed
    rw [Op.bind_error hflushed] at hrun
    obtain ⟨-, rfl⟩ := Prod.mk.inj hrun
    rw [hdb₁]
    exact unharmed_of_pages (Or.inr hreserved) hwf
  have hinv₁ : db₁.Inv := by
    have hgrown := hreserved.grown hwf
    rw [hdb₁]
    refine ⟨⟨hgrown.wellFormed, hinv.cache.pool, fun other f hf => ?_⟩, hinv.settled, hinv.log, hinv.transactions⟩
    exact Nat.lt_of_lt_of_le (hinv.cache.resident other f hf) hgrown.pageCount
  have hinv₂ := (perform_cases hinv₁ t (.logAllocate (PageId.ofIndex db.pages.pageCount))).2
  rw [hlogged] at hinv₂
  have hinv₃ := (perform_cases hinv₂ t .flushLog).2
  rw [hflushed] at hinv₃
  obtain ⟨log', rfl⟩ := @log_piece _ _ t (PageId.ofIndex db.pages.pageCount) _ _ (Or.inl rfl) hflushed
  rw [Op.bind_ok hflushed] at hrun
  have hindex := PageManager.index_ofIndex_of_le hreserved.room.le
  have hpages₃ : ((db₁.withLog log).withLog log').pages = pages := by rw [hdb₁]; rfl
  have hfree : pages.isPageAllocated (PageId.ofIndex db.pages.pageCount) = false := by
    rw [hreserved.isPageAllocated hwf, ← Bool.not_eq_true, PageManager.isPageAllocated_iff, hindex]
    exact fun hall => Nat.lt_irrefl _ hall.2.1
  obtain ⟨db₄, hactivated⟩ := @activate_returns _ t (PageId.ofIndex db.pages.pageCount) hinv₃
    (by rw [hpages₃]; exact hreserved.synced hsynced) (PageManager.isValid_ofIndex_of_le hreserved.room.le)
    (by rw [hpages₃, hindex, hreserved.pageCount]; exact Nat.lt_succ_self _) (by rw [hpages₃]; exact hfree)
  rw [Op.bind_ok hactivated] at hrun
  cases (Prod.mk.inj hrun).1

end Database

namespace System

variable {s : System} {t : TransactionId}

/-- The promises of the protocol in one state. -/
structure AllocatesSafely (s : System) : Prop where
  /-- A page allocated by a transaction has a durable record of it, in front of all records of its mutations. -/
  secured : ∀ t page, page ∈ (s.db.transactions t).allocatedPages → s.Secured t page
  /-- A call of `allocate_page` that throws has set no bit and changed no page but the one it has reserved. -/
  call : ∀ t e db, (Database.allocatePage t).run s.db = (.error e, db) →
    db.pages.isPageAllocated (PageId.ofIndex s.db.pages.pageCount) = false ∧ Database.Unharmed s.db db
  /-- Nor has a call that goes on piece by piece, with others in between. -/
  piece : ∀ t page action rest e db, s.calls t = action :: rest → .activate page ∈ s.calls t →
    (Database.perform t action).run s.db = (.error e, db) → db.pages.isPageAllocated page = false ∧ Database.Unharmed s.db db

theorem Protocol.safe (hinv : s.db.Inv) (hsynced : s.db.pages.Synced) (h : s.Protocol) : s.AllocatesSafely := by
  refine ⟨h.secured, fun t e db hrun => ?_, fun t page action rest e db hcall hmem hrun => ?_⟩
  · have hunharmed := Database.unharmed_of_throw hinv hsynced hrun
    refine ⟨?_, hunharmed⟩
    rw [hunharmed.bits, ← Bool.not_eq_true, PageManager.isPageAllocated_iff]
    rintro ⟨-, hbelow, -⟩
    have hcapacity : s.db.pages.pageCount ≤ PageManager.kCatalogBits := hinv.cache.pages.capacity
    rw [PageManager.index_ofIndex_of_le hcapacity] at hbelow
    exact Nat.lt_irrefl _ hbelow
  · have hattempt := h.attempt t page hmem
    have haction : (action = .flushLog ∨ action = .logAllocate page) ∨ action = .activate page := by
      rcases suffix_allocateCall hattempt.call with hlist | hlist | hlist | hlist <;> rw [hcall] at hlist
      · exact Or.inl (Or.inr (List.cons.inj hlist).1)
      · exact Or.inl (Or.inl (List.cons.inj hlist).1)
      · exact Or.inr (List.cons.inj hlist).1
      · cases hlist
    rcases haction with hlog | rfl
    · obtain ⟨log, rfl⟩ := Database.log_piece hlog hrun
      exact ⟨hattempt.free, fun _ => rfl, fun _ _ => rfl⟩
    · obtain ⟨db', hreturns⟩ := @Database.activate_returns _ t page hinv hsynced hattempt.valid hattempt.index hattempt.free
      rw [hreturns] at hrun
      cases (Prod.mk.inj hrun).1

/-- Transactions on a file that works and a log that may fail at any append and any flush: the protocol holds in every state. -/
theorem allocation_protocol (hinit : s.Initial) (hsynced : s.db.pages.Synced)
    (hlog : ∀ record ∈ s.db.log.records, ∀ page, Mutates record page → page.index < s.db.pages.pageCount) (run : List Step) :
    Always System.step AllocatesSafely s run := by
  have hstart : s.Protocol := by
    obtain ⟨pages, capacity, log, rfl, -, -⟩ := hinit
    exact ⟨hlog, fun _ _ => nofun, fun _ _ => nofun, fun _ _ _ => nofun⟩
  have hkeep : ∀ (s : System) (step : Step), (s.db.Inv ∧ s.db.pages.Synced ∧ s.Protocol) →
      (s.step step).db.Inv ∧ (s.step step).db.pages.Synced ∧ (s.step step).Protocol :=
    fun s step h => ⟨inv_step h.1 step, synced_step h.1 h.2.1 step, protocol_step h.1 h.2.2 step⟩
  refine always_iff_forall.mpr fun done _ => ?_
  obtain ⟨hinv, hsynced', hprotocol⟩ := @exec_keeps _ _ _ (fun s : System => s.db.Inv ∧ s.db.pages.Synced ∧ s.Protocol) _ done hkeep
    ⟨hinit.inv, hsynced, hstart⟩
  exact hprotocol.safe hinv hsynced'

/-- The first flush fails, and with it the first allocation; the second one works, and its page is written. -/
def failedOnce : List Step :=
  [.begin, .allocate (some 1), .resume 1, .resume 1, .allocate (some 1), .resume 1, .resume 1, .resume 1,
    .access (some 1) (.ofIndex 1) fun _ => some (.filled 7)]

theorem failedOnce_protocol :
    let s := System.start .empty 1 { LogManager.empty with flushFaults := [true] }
    Always System.step AllocatesSafely s failedOnce ∧
      (exec System.step s failedOnce).db.pages.isPageAllocated (.ofIndex 0) = false ∧
      ((exec System.step s failedOnce).db.transactions 1).allocatedPages = [.ofIndex 1] ∧
      (exec System.step s failedOnce).db.log.records.map WalRecord.type =
        [.begin, .pageAllocate, .pageAllocate, .physicalMutation] := by
  refine ⟨allocation_protocol ?_ PageManager.synced_empty (fun _ hmem => absurd hmem List.not_mem_nil) failedOnce, ?_⟩
  · exact ⟨_, _, _, rfl, PageManager.wellFormed_empty, ⟨Nat.one_pos, nofun, nofun, List.Pairwise.nil, Nat.one_pos⟩⟩
  · decide +kernel

/-! ## Programs -/

theorem exec_resume_idle (h : s.calls t = []) (n : Nat) : exec System.step s (List.replicate n (.resume t)) = s := by
  induction n with
  | zero => rfl
  | succ n ih =>
    have hstay : s.step (.resume t) = s := by
      rw [System.step, System.resume, h]
    rw [List.replicate_succ, exec_cons, hstay, ih]

/-- What is left of a call, taken piece by piece. -/
theorem exec_resume {call : List Action} (hcall : s.calls t = call) :
    exec System.step s (List.replicate call.length (.resume t)) =
      { s with db := ((call.forM (Database.perform t)).run s.db).2, calls := Function.update s.calls t [] } := by
  induction call generalizing s with
  | nil =>
    change s = { s with calls := Function.update s.calls t [] }
    rw [← hcall, Function.update_eq_self]
  | cons action rest ih =>
    have hresume : s.step (.resume t) = s.resume t := rfl
    rw [List.length_cons, List.replicate_succ, exec_cons, hresume, System.resume, hcall]
    dsimp only
    rcases hpiece : (Database.perform t action).run s.db with ⟨e | _, db⟩
    · dsimp only
      rw [exec_resume_idle (Function.update_self _ _ _), Op.forM_cons_error hpiece]
      rfl
    · dsimp only
      rw [ih (Function.update_self _ _ _), Op.forM_cons_ok hpiece]
      simp only [System.enter, Function.update_idem]

end System

namespace Database

/-- What an access answers does not change what it does. -/
theorem accessPage_state {α β : Type} (client : Option TransactionId) (id : PageId) (change : Payload → Option Payload)
    (f : Payload → α) (g : Payload → β) (db : Database) :
    ((accessPage client id fun payload => (change payload, f payload)).run db).2 =
      ((accessPage client id fun payload => (change payload, g payload)).run db).2 := by
  rw [accessPage, accessPage, Op.bind_run, Op.bind_run]
  rcases (onCache (Cache.fetchPage id)).run db with ⟨e | fetched, db'⟩
  · rfl
  · cases fetched with
    | none => rfl
    | some frame =>
      dsimp only
      rw [Op.get_bind, Op.get_bind]
      cases change (db'.pool.frames frame).page.payload with
      | none =>
        dsimp only
        rw [Op.bind_run, Op.bind_run]
        rcases (onCache (Cache.unpinPage id false)).run db' with ⟨e | _, db''⟩ <;> rfl
      | some after =>
        dsimp only
        rw [Op.bind_run, Op.bind_run]
        rcases (changePinned client id frame after).run db' with ⟨e | _, db''⟩ <;> rfl

end Database

namespace System

variable {s : System} {t : TransactionId}

theorem calls_of_idle (h : s.idle t = true) : s.calls t = [] :=
  List.isEmpty_iff.mp (Bool.and_eq_true_iff.mp h).2

/-- An allocation of a transaction, with nobody in between. -/
theorem exec_allocate (hinv : s.db.Inv) (hidle : s.idle t = true) :
    ∃ run, exec System.step s run = { s with db := ((Database.allocatePage t).run s.db).2 } := by
  have hallocate : s.step (.allocate (some t)) = s.allocate (some t) := by
    rw [System.step, if_pos]
    exact hidle
  rw [Database.allocatePage_eq s.db (hinv.transactions t).sink, Op.bind_run]
  rcases hreserve : (Database.onPageManager PageManager.reservePage).run s.db with ⟨e | page, db⟩
  · refine ⟨[.allocate (some t)], ?_⟩
    rw [exec_cons, exec_nil, hallocate, System.allocate, hreserve]
  · refine ⟨.allocate (some t) :: List.replicate (Database.allocateCall page).length (.resume t), ?_⟩
    rw [exec_cons, hallocate, System.allocate, hreserve]
    dsimp only
    rw [exec_resume (Function.update_self _ _ _), Op.bind_run]
    simp only [System.enter, Function.update_idem]
    rw [← calls_of_idle hidle, Function.update_eq_self]
    rcases ((Database.allocateCall page).forM (Database.perform t)).run db with ⟨e | _, db'⟩ <;> rfl

/-- Whatever a program over pages does for a transaction, a run of the system does. -/
theorem program_is_run {α : Type} (hinv : s.db.Inv) (hidle : s.idle t = true) (prog : PageProg PageId Payload Err α) :
    ∃ run, exec System.step s run = { s with db := (prog.run (Database.pager (some t)) s.db).2 } := by
  induction prog generalizing s with
  | done a => exact ⟨[], rfl⟩
  | access id change next ih =>
    obtain ⟨first, hfirst⟩ : ∃ first, exec System.step s first =
        { s with db := ((Database.pager (some t)).access id change s.db).2 } := by
      refine ⟨[.access (some t) id change], ?_⟩
      have hall : Option.all s.idle (some t) = true := hidle
      rw [exec_cons, exec_nil, System.step, if_pos hall, System.run]
      congr 1
      exact Database.accessPage_state (some t) id change (fun _ => ()) (fun payload => payload) s.db
    obtain ⟨rest, hrest⟩ := @ih ((Database.pager (some t)).access id change s.db).1 (exec System.step s first)
      (inv_exec hinv first) (by rw [hfirst]; exact hidle)
    exact ⟨first ++ rest, by rw [exec_append, hrest, hfirst]; rfl⟩
  | allocate next ih =>
    obtain ⟨first, hfirst⟩ := exec_allocate hinv hidle
    obtain ⟨rest, hrest⟩ := @ih ((Database.pager (some t)).allocate s.db).1 (exec System.step s first)
      (inv_exec hinv first) (by rw [hfirst]; exact hidle)
    exact ⟨first ++ rest, by rw [exec_append, hrest, hfirst]; rfl⟩

/-- A transaction takes a page and clears it. -/
theorem newPage_is_run : ∃ s, exec System.step (System.new 1) [.begin] = s ∧ ∃ run, exec System.step s run =
    { s with db := ((PageProg.allocate fun _ => .access (.ofIndex 0) (fun _ => some .zero) .done).run (Database.pager (some 1))
      s.db).2 } :=
  ⟨_, rfl, program_is_run (Database.ready_exec (launch_new 1).working [.begin]).inv (by decide +kernel) _⟩

end System

end Ddb.Concurrency
