import Ddb.Storage.PageStore

/-!
# Crashes of the page manager

A crash keeps a beginning of the writes that the calls have made. Each call makes its writes one after the other and stops at
the first that fails, so what a crash keeps of the last call is what the call leaves when the file system fails after that
many writes.

The file can be opened again unless the crash falls between the two writes of a reservation: the slot makes the file longer,
and the catalog does not know it yet.
-/

namespace Ddb.Storage

open Ddb.Lib

/-- The calls that write to the file. The transactional allocation goes on with what the log answered to it. -/
inductive FileCall where
  | store (c : StoreCall)
  | allocateTransactionalPage (log : Except Err Unit)

/-- The call starts with a reservation. -/
def FileCall.reserves : FileCall → Bool
  | .store .reservePage | .store .allocatePage | .allocateTransactionalPage _ => true
  | .store _ => false

namespace PageManager

def allocateTransactionalPage (log : Except Err Unit) : PageOp PageId := do
  let id ← reservePage
  match log with
  | .ok _ =>
    activateReservedPage id
    return id
  | .error e => throw e

def performFile : FileCall → PageOp (Option PageId)
  | .store c => perform c
  | .allocateTransactionalPage log => do return some (← allocateTransactionalPage log)

def fileCall (pm : PageManager) (c : FileCall) : PageManager := ((performFile c).run pm).2

/-- The file system works for that many accesses, and then fails. -/
def failing (pm : PageManager) (n : Nat) : PageManager :=
  { pm with file := { pm.file with faults := List.replicate n false ++ [true] } }

/-- The file system works. -/
def working (pm : PageManager) : PageManager := { pm with file := { pm.file with faults := [] } }

/-- What a crash leaves of the file that comes after that many writes of a call. -/
def cut (pm : PageManager) (c : FileCall) (n : Nat) : DatabaseFile := ((pm.failing n).fileCall c).working.file

/-- The crash comes between the two writes of a reservation. -/
def Torn (pm : PageManager) (c : FileCall) (n : Nat) : Prop :=
  c.reserves = true ∧ pm.pageCount < kCatalogBits ∧ n = 1

/-- The page a call is about. -/
def target (pm : PageManager) : FileCall → Option PageId
  | .store (.activateReservedPage id) | .store (.deallocatePage id) | .store (.writePage id _) => some id
  | .store .reopen => none
  | .store .reservePage | .store .allocatePage | .allocateTransactionalPage _ => some (.ofIndex pm.pageCount)

/-- What is found when the file is opened after the crash: the calls before have done what they did, and of the last call its
page alone may be in the state from before it or after it. -/
structure Recovers (pm : PageManager) (c : FileCall) (pm' : PageManager) : Prop where
  allocated : ∀ id, pm'.isPageAllocated id = pm.isPageAllocated id ∨
    pm.target c = some id ∧ pm'.isPageAllocated id = (pm.fileCall c).isPageAllocated id
  slot : ∀ id, pm.target c ≠ some id → pm'.slot id = pm.slot id

variable {pm pm' : PageManager} {id : PageId} {n : Nat} {c : FileCall}

/-! ## Failing calls -/

/-- The manager after a write. -/
def wrote (pm : PageManager) (i : Nat) (block : Block) : PageManager := { pm with file := writeBlock i block pm.file }

/-- The manager after its catalog has been written. -/
def catalogued (pm : PageManager) : PageManager :=
  pm.wrote 0 (.catalog pm.pageCount pm.allocatedPageCount pm.allocationBitmap)

theorem writeAllocationCatalog_failing_zero (pm : PageManager) :
    ∃ e, writeAllocationCatalog.run (pm.failing 0) = (.error e, pm.working) := ⟨_, rfl⟩

theorem writeAllocationCatalog_failing_succ :
    writeAllocationCatalog.run (pm.failing (n + 1)) = (.ok (), pm.catalogued.failing n) := rfl

theorem writeAllocationCatalog_working (h : pm.file.faults = []) : writeAllocationCatalog.run pm = (.ok (), pm.catalogued) := by
  obtain ⟨⟨block, blocks, faults⟩, pageCount, bitmap, allocated⟩ := pm
  obtain rfl : faults = [] := h
  rfl

/-- The slot of a new page is there, and the catalog does not know it. -/
def extended (pm : PageManager) : PageManager := pm.wrote (pm.pageCount + 1) (.page (.ofIndex pm.pageCount) 0 .zero)

/-- The page is there. -/
def reserved (pm : PageManager) : PageManager := ({ pm.extended with pageCount := pm.pageCount + 1 } : PageManager).catalogued

theorem reservePage_eq (hroom : pm.pageCount < kCatalogBits) : reservePage.run pm = (do
    tryCatch (writeReservedSlot (PageId.ofIndex pm.pageCount) (pm.pageCount + 1)) fun e => do
      modify fun pm => { pm with pageCount := pm.pageCount - 1 }
      throw e
    return PageId.ofIndex pm.pageCount : PageOp PageId).run { pm with pageCount := pm.pageCount + 1 } := by
  have hindex := index_ofIndex_of_le hroom.le
  rw [reservePage, Op.get_bind, Op.throwIf_bind_neg (Nat.not_le.mpr hroom),
    Op.bind_ok (offsetFor_run (isValid_ofIndex_of_le hroom.le) (by rw [hindex]; exact hroom)), Op.modify_bind, hindex]

theorem reservePage_failing_zero (hroom : pm.pageCount < kCatalogBits) :
    ∃ e, reservePage.run (pm.failing 0) = (.error e, pm.working) := by
  have hroom' : (pm.failing 0).pageCount < kCatalogBits := hroom
  rw [reservePage_eq hroom']
  exact ⟨_, rfl⟩

theorem reservePage_failing_one (hroom : pm.pageCount < kCatalogBits) :
    ∃ e, reservePage.run (pm.failing 1) = (.error e, pm.extended.working) := by
  have hroom' : (pm.failing 1).pageCount < kCatalogBits := hroom
  rw [reservePage_eq hroom']
  exact ⟨_, rfl⟩

theorem reservePage_failing_succ (hroom : pm.pageCount < kCatalogBits) :
    reservePage.run (pm.failing (n + 2)) = (.ok (.ofIndex pm.pageCount), pm.reserved.failing n) := by
  have hroom' : (pm.failing (n + 2)).pageCount < kCatalogBits := hroom
  rw [reservePage_eq hroom']
  rfl

theorem reservePage_working (hroom : pm.pageCount < kCatalogBits) (h : pm.file.faults = []) :
    reservePage.run pm = (.ok (.ofIndex pm.pageCount), pm.reserved) := by
  rw [reservePage_eq hroom]
  obtain ⟨⟨block, blocks, faults⟩, pageCount, bitmap, allocated⟩ := pm
  obtain rfl : faults = [] := h
  rfl

theorem reservePage_full (hfull : kCatalogBits ≤ pm.pageCount) :
    reservePage.run pm = (.error (.storage "allocation catalog capacity exhausted"), pm) := by
  rw [reservePage, Op.get_bind, Op.throwIf_bind_pos hfull]

/-- The page's bit is set, in the manager. -/
def marked (pm : PageManager) (id : PageId) : PageManager :=
  { pm with allocationBitmap := setBit pm.allocationBitmap id.index, allocatedPageCount := pm.allocatedPageCount + 1 }

/-- The page's bit is cleared, in the manager. -/
def unmarked (pm : PageManager) (id : PageId) : PageManager :=
  { pm with allocationBitmap := clearBit pm.allocationBitmap id.index, allocatedPageCount := pm.allocatedPageCount - 1 }

theorem isValid_of_lt (h : pm.WellFormed) (hindex : id.index < pm.pageCount) : id.isValid = true := by
  rw [← PageId.ofIndex_index id]
  exact isValid_ofIndex_of_le (hindex.le.trans h.capacity)

theorem activateReservedPage_eq (h : pm.WellFormed) (hindex : id.index < pm.pageCount) (hfree : pm.isPageAllocated id = false) :
    (activateReservedPage id).run pm = writeAllocationCatalog.run (pm.marked id) := by
  rw [activateReservedPage, Op.bind_ok (validateAllocated_run h (isValid_of_lt h hindex) hindex), Op.get_bind,
    Op.throwIf_bind_neg (by simp [hfree]), Op.modify_bind]
  rfl

theorem activateReservedPage_refused (h : pm.WellFormed) (hno : id.index < pm.pageCount → pm.isPageAllocated id = true) :
    ∃ e, (activateReservedPage id).run pm = (.error e, pm) := by
  rcases @activateReservedPage_cases pm id h with ⟨e, hrun, -⟩ | ⟨outcome, pm', -, hfree, hindex, -, -⟩
  · exact ⟨e, hrun⟩
  · rw [hno hindex] at hfree
    cases hfree

theorem deallocatePage_eq (h : pm.WellFormed) (halloc : pm.isPageAllocated id = true) :
    (deallocatePage id).run pm = writeAllocationCatalog.run (pm.unmarked id) := by
  rw [deallocatePage, Op.bind_ok (validateLogicallyAllocated_run h halloc), Op.modify_bind]
  rfl

theorem deallocatePage_refused (hfree : pm.isPageAllocated id = false) : ∃ e, (deallocatePage id).run pm = (.error e, pm) := by
  obtain ⟨e, he⟩ := validateLogicallyAllocated_unallocated hfree
  exact ⟨e, by rw [deallocatePage, Op.bind_error he]⟩

/-! ## Files that can be opened -/

/-- The manager is in order, and its file holds what it holds. -/
structure Settled (pm : PageManager) : Prop where
  wellFormed : pm.WellFormed
  synced : pm.Synced

theorem Settled.working_eq (h : pm.Settled) : pm.working = pm := by
  have hfaults := h.synced.healthy
  obtain ⟨⟨block, blocks, faults⟩, pageCount, bitmap, allocated⟩ := pm
  obtain rfl : faults = [] := hfaults
  rfl

theorem WellFormed.failing (h : pm.WellFormed) (n : Nat) : (pm.failing n).WellFormed :=
  ⟨h.capacity, h.bitmap_length, h.clear_above, h.slots, h.count⟩

theorem Settled.reserved (h : pm.Settled) (hroom : pm.pageCount < kCatalogBits) : Reserved pm pm.reserved ∧ pm.reserved.Settled := by
  rcases reservePage_cases pm with ⟨e, pm', -, -, hreason⟩ | ⟨pm', hrun, hreserved⟩
  · exact absurd h.synced (hreason hroom)
  · rw [reservePage_working hroom h.synced.healthy] at hrun
    obtain rfl : pm.reserved = pm' := (Prod.mk.inj hrun).2
    exact ⟨hreserved, hreserved.wellFormed h.wellFormed, hreserved.synced h.synced⟩

theorem Settled.marked (h : pm.Settled) (hindex : id.index < pm.pageCount) (hfree : pm.isPageAllocated id = false) :
    BitSet pm (pm.marked id).catalogued id true ∧ (pm.marked id).catalogued.Settled := by
  rcases @activateReservedPage_cases pm id h.wellFormed with ⟨e, -, hreason⟩ | ⟨outcome, pm', hrun, -, -, hbit, -⟩
  · rw [hreason (isValid_of_lt h.wellFormed hindex) hindex] at hfree
    cases hfree
  · rw [activateReservedPage_eq h.wellFormed hindex hfree, writeAllocationCatalog_working (by exact h.synced.healthy)] at hrun
    obtain rfl := (Prod.mk.inj hrun).2
    exact ⟨hbit, hbit.wellFormed, hbit.synced h.synced⟩

theorem Settled.unmarked (h : pm.Settled) (halloc : pm.isPageAllocated id = true) :
    BitSet pm (pm.unmarked id).catalogued id false ∧ (pm.unmarked id).catalogued.Settled := by
  rcases @deallocatePage_cases pm id h.wellFormed with ⟨e, -, hfree⟩ | ⟨outcome, pm', hrun, -, hbit, -⟩
  · rw [halloc] at hfree
    cases hfree
  · rw [deallocatePage_eq h.wellFormed halloc, writeAllocationCatalog_working (by exact h.synced.healthy)] at hrun
    obtain rfl := (Prod.mk.inj hrun).2
    exact ⟨hbit, hbit.wellFormed, hbit.synced h.synced⟩

theorem settled_empty : empty.Settled := ⟨wellFormed_empty, synced_empty⟩

/-! ## After the crash -/

/-- The crash leaves the file of a manager in order, in which the call has been made or not. -/
def Survives (pm : PageManager) (c : FileCall) (n : Nat) : Prop :=
  ∃ pm' : PageManager, pm'.Settled ∧ pm.cut c n = pm'.file ∧ Recovers pm c pm'

theorem recovers_refl (pm : PageManager) (c : FileCall) : Recovers pm c pm := ⟨fun _ => .inl rfl, fun _ _ => rfl⟩

/-- The file is as it was before the call. -/
theorem Settled.survives_unchanged (h : pm.Settled) (hfile : ((pm.failing n).fileCall c).working.file = pm.working.file) :
    Survives pm c n := by
  rw [h.working_eq] at hfile
  exact ⟨pm, h, hfile, recovers_refl pm c⟩

theorem BitSet.recovers {value : Bool} (hbit : BitSet pm pm' id value) (htarget : pm.target c = some id)
    (hafter : pm.fileCall c = pm') : Recovers pm c pm' := by
  refine ⟨fun other => ?_, fun other _ => hbit.slot other⟩
  by_cases heq : other = id
  · subst heq
    exact .inr ⟨htarget, by rw [hafter]⟩
  · exact .inl (by rw [hbit.bit, if_neg heq])

/-- The call is refused. -/
theorem Settled.survives_refused (h : pm.Settled) {e : Err}
    (hrun : (performFile c).run (pm.failing n) = (.error e, pm.failing n)) : Survives pm c n := by
  refine h.survives_unchanged ?_
  rw [fileCall, hrun]
  rfl

/-- A call that sets or clears a bit writes the catalog, and nothing else. -/
theorem Settled.survives_catalog (h : pm.Settled) {x : PageOp Unit} (flipped : PageManager) {value : Bool}
    (hperform : performFile c = do x return none) (htarget : pm.target c = some id) (hfile : flipped.file = pm.file)
    (hrun : x.run pm = writeAllocationCatalog.run flipped)
    (hfails : ∀ k, x.run (pm.failing k) = writeAllocationCatalog.run (flipped.failing k))
    (hbit : BitSet pm flipped.catalogued id value) (hsettled : flipped.catalogued.Settled) (n : Nat) : Survives pm c n := by
  cases n with
  | zero =>
    obtain ⟨e, hzero⟩ := writeAllocationCatalog_failing_zero flipped
    refine h.survives_unchanged ?_
    rw [fileCall, hperform, Op.bind_error ((hfails 0).trans hzero)]
    exact congrArg (fun file : DatabaseFile => { file with faults := [] }) hfile
  | succ n =>
    refine ⟨_, hsettled, ?_, hbit.recovers htarget ?_⟩
    · rw [cut, fileCall, hperform, Op.bind_ok ((hfails (n + 1)).trans writeAllocationCatalog_failing_succ)]
      exact congrArg PageManager.file hsettled.working_eq
    · rw [fileCall, hperform, Op.bind_ok (hrun.trans (writeAllocationCatalog_working (hfile ▸ h.synced.healthy)))]
      rfl

theorem Settled.survives_activate (h : pm.Settled) (id : PageId) (n : Nat) :
    Survives pm (.store (.activateReservedPage id)) n := by
  by_cases hno : id.index < pm.pageCount → pm.isPageAllocated id = true
  · obtain ⟨e, hrun⟩ := activateReservedPage_refused (h.wellFormed.failing n) hno
    exact h.survives_refused (by rw [performFile, perform, Op.bind_error hrun])
  · obtain ⟨hindex, halloc⟩ := Classical.not_imp.mp hno
    have hfree : pm.isPageAllocated id = false := Bool.eq_false_iff.mpr halloc
    obtain ⟨hbit, hsettled⟩ := h.marked hindex hfree
    exact h.survives_catalog (pm.marked id) rfl rfl rfl (activateReservedPage_eq h.wellFormed hindex hfree)
      (fun k => activateReservedPage_eq (h.wellFormed.failing k) hindex hfree) hbit hsettled n

theorem Settled.survives_deallocate (h : pm.Settled) (id : PageId) (n : Nat) :
    Survives pm (.store (.deallocatePage id)) n := by
  by_cases halloc : pm.isPageAllocated id = true
  · obtain ⟨hbit, hsettled⟩ := h.unmarked halloc
    exact h.survives_catalog (pm.unmarked id) rfl rfl rfl (deallocatePage_eq h.wellFormed halloc)
      (fun k => deallocatePage_eq (h.wellFormed.failing k) halloc) hbit hsettled n
  · obtain ⟨e, hrun⟩ := @deallocatePage_refused (pm.failing n) id (Bool.eq_false_iff.mpr halloc)
    exact h.survives_refused (by rw [performFile, perform, Op.bind_error hrun])

theorem Settled.survives_write (h : pm.Settled) (id : PageId) (page : Page) (n : Nat) :
    Survives pm (.store (.writePage id page)) n := by
  by_cases halloc : pm.isPageAllocated id = true
  swap
  · obtain ⟨e, hrun⟩ := @writePage_unallocated (pm.failing n) id (Bool.eq_false_iff.mpr halloc) page
    exact h.survives_refused (by rw [performFile, perform, Op.bind_error hrun])
  by_cases hid : page.id = id
  swap
  · have hrun := writePage_mismatch (h.wellFormed.failing n) halloc hid
    exact h.survives_refused (by rw [performFile, perform, Op.bind_error hrun])
  have hrun := writePage_run (h.wellFormed.failing n) halloc hid
  have hindex := (isPageAllocated_iff.mp halloc).2.1
  cases n with
  | zero =>
    refine h.survives_unchanged ?_
    rw [fileCall, performFile, perform, Op.bind_error (hrun.trans (if_pos rfl))]
    rfl
  | succ n =>
    have hsettled : (pm.store id page).Settled := ⟨h.wellFormed.store hindex page, h.synced.store hindex page⟩
    refine ⟨_, hsettled, ?_, fun _ => .inl rfl, fun other hother => ?_⟩
    · rw [cut, fileCall, performFile, perform, Op.bind_ok (hrun.trans (if_neg (by simp [failsNext, failing, List.replicate_succ])))]
      exact congrArg PageManager.file hsettled.working_eq
    · rw [slot_store hindex, if_neg fun heq => hother (by rw [heq]; rfl)]

theorem Settled.survives_reopen (h : pm.Settled) (n : Nat) : Survives pm (.store .reopen) n := by
  have hopen : openFile (pm.failing n).file = .ok (pm.failing n) :=
    openFile_of_catalog (h.wellFormed.failing n) h.synced.blocks h.synced.catalog
  have hrun : reopen.run (pm.failing n) = (.ok (), pm.failing n) := by
    rw [reopen, Op.get_bind, hopen]
    rfl
  refine h.survives_unchanged ?_
  rw [fileCall, performFile, perform, Op.bind_ok hrun]
  rfl

theorem Settled.survives_reserve (h : pm.Settled) (hwhole : ¬ Torn pm (.store .reservePage) n) :
    Survives pm (.store .reservePage) n := by
  by_cases hroom : pm.pageCount < kCatalogBits
  swap
  · have hrun := @reservePage_full (pm.failing n) (Nat.le_of_not_lt hroom)
    exact h.survives_refused (by rw [performFile, perform, Op.bind_error hrun])
  rcases n with _ | _ | n
  · obtain ⟨e, hrun⟩ := reservePage_failing_zero hroom
    refine h.survives_unchanged ?_
    rw [fileCall, performFile, perform, Op.bind_error hrun]
    rfl
  · exact absurd ⟨rfl, hroom, rfl⟩ hwhole
  · obtain ⟨hreserved, hsettled⟩ := h.reserved hroom
    refine ⟨_, hsettled, ?_, fun id => .inl (hreserved.isPageAllocated h.wellFormed id), fun id hid => ?_⟩
    · rw [cut, fileCall, performFile, perform, Op.bind_ok (reservePage_failing_succ hroom)]
      exact congrArg PageManager.file hsettled.working_eq
    · rw [hreserved.slot, if_neg fun heq => hid (by rw [heq]; rfl)]

/-- The page of an allocation, once it is reserved. -/
theorem Reserved.next {pm' : PageManager} (hreserved : Reserved pm pm') (h : pm.WellFormed) :
    (PageId.ofIndex pm.pageCount).index < pm'.pageCount ∧ pm'.isPageAllocated (.ofIndex pm.pageCount) = false := by
  have hindex := index_ofIndex_of_le hreserved.room.le
  refine ⟨by rw [hindex, hreserved.pageCount]; exact Nat.lt_succ_self _, ?_⟩
  rw [hreserved.isPageAllocated h]
  exact isPageAllocated_of_le hindex.ge

/-- The page is there and allocated. -/
def allocated (pm : PageManager) : PageManager := (pm.reserved.marked (.ofIndex pm.pageCount)).catalogued

theorem Settled.allocatePage_runs (h : pm.Settled) (hroom : pm.pageCount < kCatalogBits) :
    (∃ e, allocatePage.run (pm.failing 2) = (.error e, (pm.reserved.marked (.ofIndex pm.pageCount)).working)) ∧
      (∀ n, allocatePage.run (pm.failing (n + 3)) = (.ok (.ofIndex pm.pageCount), pm.allocated.failing n)) ∧
      allocatePage.run pm = (.ok (.ofIndex pm.pageCount), pm.allocated) := by
  obtain ⟨hreserved, hsettled⟩ := h.reserved hroom
  obtain ⟨hindex, hfree⟩ := hreserved.next h.wellFormed
  have hactivate : ∀ k, (activateReservedPage (.ofIndex pm.pageCount)).run (pm.reserved.failing k) =
      writeAllocationCatalog.run ((pm.reserved.marked (.ofIndex pm.pageCount)).failing k) := fun k =>
    activateReservedPage_eq (hsettled.wellFormed.failing k) hindex hfree
  refine ⟨?_, fun n => ?_, ?_⟩
  · obtain ⟨e, hfails⟩ := writeAllocationCatalog_failing_zero (pm.reserved.marked (.ofIndex pm.pageCount))
    refine ⟨e, ?_⟩
    rw [allocatePage, Op.bind_ok (reservePage_failing_succ hroom), Op.bind_error ((hactivate 0).trans hfails)]
  · rw [allocatePage, Op.bind_ok (reservePage_failing_succ hroom),
      Op.bind_ok ((hactivate (n + 1)).trans writeAllocationCatalog_failing_succ)]
    rfl
  · have hworks := activateReservedPage_eq hsettled.wellFormed hindex hfree
    rw [allocatePage, Op.bind_ok (reservePage_working hroom h.synced.healthy),
      Op.bind_ok (hworks.trans (writeAllocationCatalog_working hsettled.synced.healthy))]
    rfl

theorem Settled.survives_allocate (h : pm.Settled) (hwhole : ¬ Torn pm (.store .allocatePage) n) :
    Survives pm (.store .allocatePage) n := by
  by_cases hroom : pm.pageCount < kCatalogBits
  swap
  · have hrun := @reservePage_full (pm.failing n) (Nat.le_of_not_lt hroom)
    exact h.survives_refused (by rw [performFile, perform, Op.bind_error (by rw [allocatePage, Op.bind_error hrun])])
  obtain ⟨hreserved, hsettled⟩ := h.reserved hroom
  obtain ⟨hindex, hfree⟩ := hreserved.next h.wellFormed
  obtain ⟨⟨e, htwo⟩, hmore, hall⟩ := h.allocatePage_runs hroom
  rcases n with _ | _ | _ | n
  · obtain ⟨e, hrun⟩ := reservePage_failing_zero hroom
    refine h.survives_unchanged ?_
    rw [fileCall, performFile, perform, Op.bind_error (by rw [allocatePage, Op.bind_error hrun])]
    rfl
  · exact absurd ⟨rfl, hroom, rfl⟩ hwhole
  · -- The page is reserved, and stays so.
    refine ⟨_, hsettled, ?_, fun id => .inl (hreserved.isPageAllocated h.wellFormed id), fun id hid => ?_⟩
    · have hfile : pm.reserved.working.file = pm.reserved.file := congrArg PageManager.file hsettled.working_eq
      rw [cut, fileCall, performFile, perform, Op.bind_error htwo]
      exact hfile
    · rw [hreserved.slot, if_neg fun heq => hid (by rw [heq]; rfl)]
  · obtain ⟨hbit, hsettled'⟩ := hsettled.marked hindex hfree
    refine ⟨pm.allocated, hsettled', ?_, fun id => ?_, fun id hid => ?_⟩
    · rw [cut, fileCall, performFile, perform, Op.bind_ok (hmore n)]
      exact congrArg PageManager.file hsettled'.working_eq
    · by_cases hid : id = .ofIndex pm.pageCount
      · subst hid
        refine .inr ⟨rfl, ?_⟩
        rw [fileCall, performFile, perform, Op.bind_ok hall]
        rfl
      · exact .inl ((hbit.bit id).trans ((if_neg hid).trans (hreserved.isPageAllocated h.wellFormed id)))
    · exact (hbit.slot id).trans ((hreserved.slot id).trans (if_neg fun heq => hid (by rw [heq]; rfl)))

/-- With a log that works the transactional allocation is the plain one, and with one that fails it is a reservation. -/
theorem fileCall_allocateTransactionalPage (pm : PageManager) (log : Except Err Unit) :
    pm.fileCall (.allocateTransactionalPage log) = pm.fileCall (.store (if log = .ok () then .allocatePage else .reservePage)) := by
  cases log with
  | ok u => rfl
  | error e =>
    rw [if_neg nofun]
    simp only [fileCall, performFile, perform, allocateTransactionalPage, Op.bind_run]
    generalize reservePage.run pm = result
    obtain ⟨outcome, pm'⟩ := result
    cases outcome <;> rfl

theorem Settled.survives (h : pm.Settled) (hwhole : ¬ Torn pm c n) : Survives pm c n := by
  match c with
  | .store .reservePage => exact h.survives_reserve hwhole
  | .store (.activateReservedPage id) => exact h.survives_activate id n
  | .store .allocatePage => exact h.survives_allocate hwhole
  | .store (.deallocatePage id) => exact h.survives_deallocate id n
  | .store (.writePage id page) => exact h.survives_write id page n
  | .store .reopen => exact h.survives_reopen n
  | .allocateTransactionalPage log =>
    obtain ⟨pm', hsettled, hcut, hrecovers⟩ : Survives pm (.store (if log = .ok () then .allocatePage else .reservePage)) n := by
      split
      · exact h.survives_allocate hwhole
      · exact h.survives_reserve hwhole
    have htarget : pm.target (.store (if log = .ok () then .allocatePage else .reservePage)) = pm.target (.allocateTransactionalPage log) := by
      split <;> rfl
    refine ⟨pm', hsettled, ?_, fun id => ?_, fun id hid => hrecovers.slot id (htarget ▸ hid)⟩
    · rw [← hcut, cut, cut, fileCall_allocateTransactionalPage]
    · rw [fileCall_allocateTransactionalPage, ← htarget]
      exact hrecovers.allocated id

/-- A file that is longer than its catalog says is refused. -/
theorem Settled.not_opens (h : pm.Settled) (htorn : Torn pm c n) :
    openFile (pm.cut c n) = .error (.storage "invalid allocation catalog bounds") := by
  obtain ⟨hreserves, hroom, rfl⟩ := htorn
  obtain ⟨e, hrun⟩ := reservePage_failing_one hroom
  have hcut : pm.cut c 1 = pm.extended.working.file := by
    match c with
    | .store .reservePage => rw [cut, fileCall, performFile, perform, Op.bind_error hrun]; rfl
    | .store .allocatePage =>
      rw [cut, fileCall, performFile, perform, Op.bind_error (by rw [allocatePage, Op.bind_error hrun])]
      rfl
    | .allocateTransactionalPage log =>
      rw [cut, fileCall, performFile, Op.bind_error (by rw [allocateTransactionalPage, Op.bind_error hrun])]
      rfl
  have hblocks : pm.extended.working.file.blocks = pm.pageCount + 2 := by
    change max pm.file.blocks (pm.pageCount + 1 + 1) = _
    rw [h.synced.blocks]
    omega
  have hcatalog : pm.extended.working.file.block 0 = .catalog pm.pageCount pm.allocatedPageCount pm.allocationBitmap := by
    change Function.update pm.file.block (pm.pageCount + 1) (.page (.ofIndex pm.pageCount) 0 .zero) 0 = _
    rw [Function.update_of_ne (Nat.succ_ne_zero _).symm]
    exact h.synced.catalog
  rw [hcut, openFile, if_neg (by omega), hcatalog]
  dsimp only
  rw [if_pos]
  omega

/-! ## Whole runs -/

theorem keeps_fileCall (h : ∃ ledger, Keeps pm ledger) (c : FileCall) : ∃ ledger, Keeps (pm.fileCall c) ledger := by
  obtain ⟨ledger, hkeeps⟩ := h
  cases c with
  | store c => exact ⟨_, (hkeeps.agrees c).keeps⟩
  | allocateTransactionalPage log =>
    rw [fileCall_allocateTransactionalPage]
    exact ⟨_, (hkeeps.agrees _).keeps⟩

theorem settled_exec (run : List FileCall) : (Lib.exec PageManager.fileCall empty run).Settled := by
  have hkeeps : ∃ ledger, Keeps (Lib.exec PageManager.fileCall empty run) ledger :=
    @exec_keeps _ _ PageManager.fileCall (fun pm => ∃ ledger, Keeps pm ledger) empty run (fun _ c h => keeps_fileCall h c)
      ⟨[], keeps_empty⟩
  obtain ⟨ledger, hkeeps⟩ := hkeeps
  exact ⟨hkeeps.wellFormed, hkeeps.synced⟩

/-- **Crashes.** After any calls and a beginning of the writes of one more, the file opens and has what the calls have done exactly
when the crash does not come between the two writes of a reservation. -/
theorem crash_opens_iff (run : List FileCall) (c : FileCall) (n : Nat) :
    (∃ pm', openFile ((Lib.exec PageManager.fileCall empty run).cut c n) = .ok pm' ∧
      Recovers (Lib.exec PageManager.fileCall empty run) c pm') ↔ ¬ Torn (Lib.exec PageManager.fileCall empty run) c n := by
  have hsettled := settled_exec run
  constructor
  · rintro ⟨pm', hopen, -⟩ htorn
    rw [hsettled.not_opens htorn] at hopen
    cases hopen
  · intro hwhole
    obtain ⟨pm', hsettled', hcut, hrecovers⟩ := hsettled.survives hwhole
    exact ⟨pm', hcut ▸ openFile_synced hsettled'.wellFormed hsettled'.synced, hrecovers⟩

/-- A new file, and a crash after the first write of the first reservation. -/
theorem crash_of_first_reservation : openFile (empty.cut (.store .reservePage) 1) = .error (.storage "invalid allocation catalog bounds") :=
  settled_empty.not_opens ⟨rfl, by decide, rfl⟩

end PageManager

end Ddb.Storage
