import Ddb.Storage.Page

/-!
# The page manager

One database file: block 0 is the allocation catalog, block `i + 1` the page `i`. A page has two lives. Physically it
exists once `reserve_page` has written its slot; logically it is allocated while its bit in the catalog is set, and only
then may it be read or written. Deallocation clears the bit and keeps the slot, which is never handed out again.

A block is what its magic, version and header length make it; a slot carries the id and the PageLSN of its header. Every
access of the file may fail: `faults` is what the file system will answer, one entry an access, and an exhausted list
means that everything from there on succeeds.
-/

namespace Ddb.Storage

open Ddb.Lib

inductive Block where
  /-- Never written. -/
  | blank
  | catalog (pages allocated : Nat) (bitmap : Bytes)
  | page (id : PageId) (lsn : Nat) (payload : Payload)

structure DatabaseFile where
  block : Nat → Block
  /-- The file's length, in blocks. -/
  blocks : Nat
  faults : List Bool

structure PageManager where
  file : DatabaseFile
  pageCount : Nat
  allocationBitmap : Bytes
  allocatedPageCount : Nat

abbrev PageOp := Op Err PageManager

namespace PageManager

def kCatalogHeader : Nat := 24
def kCatalogBytes : Nat := kPageSize - kCatalogHeader
def kCatalogBits : Nat := kCatalogBytes * 8

/-- Let the file system answer one access: an exception, or the effect of the access. -/
def access (operation : String) (effect : DatabaseFile → DatabaseFile) : PageOp Unit := do
  let pm ← get
  match pm.file.faults with
  | true :: rest =>
    set { pm with file := { pm.file with faults := rest } }
    throw (.storage (operation ++ " failed for database file"))
  | faults => set { pm with file := effect { pm.file with faults := faults.tail } }

def writeBlock (i : Nat) (block : Block) (file : DatabaseFile) : DatabaseFile :=
  { file with block := Function.update file.block i block, blocks := max file.blocks (i + 1) }

def isPageAllocated (pm : PageManager) (id : PageId) : Bool :=
  id.isValid && decide (id.index < pm.pageCount) && testBit pm.allocationBitmap id.index

def offsetFor (id : PageId) : PageOp Nat := do
  throwIf (id.isValid = false) (.storage "invalid page id")
  throwIf (id.index > (2 ^ 63 - 1) / kPageSize) (.storage "page id cannot be represented as a file offset")
  return id.index + 1

def validateAllocated (id : PageId) : PageOp Unit := do
  let _ ← offsetFor id
  throwIf (id.index ≥ (← get).pageCount) (.storage "page id is beyond the allocated database file")

def validateLogicallyAllocated (id : PageId) : PageOp Unit := do
  validateAllocated id
  throwIf ((← get).isPageAllocated id = false) (.storage "page is physically present but logically unallocated")

def writeAllocationCatalog : PageOp Unit := do
  let pm ← get
  access "write allocation catalog" (writeBlock 0 (.catalog pm.pageCount pm.allocatedPageCount pm.allocationBitmap))

/-- The guarded part of `reserve_page`. -/
def writeReservedSlot (id : PageId) (offset : Nat) : PageOp Unit := do
  access "write reserved page" (writeBlock offset (.page id 0 .zero))
  writeAllocationCatalog

def reservePage : PageOp PageId := do
  let pm ← get
  throwIf (pm.pageCount ≥ kCatalogBits) (.storage "allocation catalog capacity exhausted")
  let id := PageId.ofIndex pm.pageCount
  let offset ← offsetFor id
  modify fun pm => { pm with pageCount := pm.pageCount + 1 }
  tryCatch (writeReservedSlot id offset) fun e => do
    modify fun pm => { pm with pageCount := pm.pageCount - 1 }
    throw e
  return id

def activateReservedPage (id : PageId) : PageOp Unit := do
  validateAllocated id
  throwIf ((← get).isPageAllocated id = true) (.storage "page is already logically allocated")
  modify fun pm => { pm with
    allocationBitmap := setBit pm.allocationBitmap id.index
    allocatedPageCount := pm.allocatedPageCount + 1 }
  writeAllocationCatalog

def allocatePage : PageOp PageId := do
  let id ← reservePage
  activateReservedPage id
  return id

def deallocatePage (id : PageId) : PageOp Unit := do
  validateLogicallyAllocated id
  modify fun pm => { pm with
    allocationBitmap := clearBit pm.allocationBitmap id.index
    allocatedPageCount := pm.allocatedPageCount - 1 }
  writeAllocationCatalog

def readPage (id : PageId) : PageOp Page := do
  validateLogicallyAllocated id
  let offset ← offsetFor id
  access "read" fun file => file
  match (← get).file.block offset with
  | .page stored lsn payload =>
    throwIf (stored ≠ id) (.storage "page header identifier mismatch")
    return ⟨id, lsn, payload⟩
  | _ => throw (.storage "unsupported or legacy page format")

def writePage (id : PageId) (page : Page) : PageOp Unit := do
  validateLogicallyAllocated id
  throwIf (page.id ≠ id) (.storage "page identifier does not match write target")
  let offset ← offsetFor id
  access "write" (writeBlock offset (.page id page.lsn page.payload))

def flush : PageOp Unit := access "flush" fun file => file

def materializePageForRecovery (id : PageId) : PageOp Unit := do
  throwIf (id.isValid = false) (.storage "invalid recovery page id")
  let pm ← get
  throwIf (id.index < pm.pageCount) (.storage "recovery page already physically exists")
  throwIf (id.index > pm.pageCount) (.storage "recovery page would create a physical gap")
  let materialized ← reservePage
  throwIf (materialized ≠ id) (.storage "recovery materialized an unexpected page id")

def validatePhysicalPageForRecovery (id : PageId) : PageOp Unit := do
  validateAllocated id
  let offset ← offsetFor id
  access "read recovery page validation" fun file => file
  match (← get).file.block offset with
  | .page stored _ _ => throwIf (stored ≠ id) (.storage "invalid physical recovery page")
  | _ => throw (.storage "invalid physical recovery page")

/-- How many pages below `count` have their bit set. -/
def countAllocated (bitmap : Bytes) (count : Nat) : Nat := ((List.range count).filter (testBit bitmap)).length

/-- The constructor, on a file whose length is a whole number of blocks. -/
def openFile (file : DatabaseFile) : Except Err PageManager :=
  if file.blocks = 0 then
    .ok { file := writeBlock 0 (.catalog 0 0 (List.replicate kCatalogBytes 0)) file
          pageCount := 0
          allocationBitmap := List.replicate kCatalogBytes 0
          allocatedPageCount := 0 }
  else
    match file.block 0 with
    | .catalog storedPages storedAllocated bitmap =>
      if storedPages ≠ file.blocks - 1 ∨ file.blocks - 1 > kCatalogBits then
        .error (.storage "invalid allocation catalog bounds")
      else if countAllocated bitmap (file.blocks - 1) ≠ storedAllocated then
        .error (.storage "invalid allocation catalog count")
      else
        .ok { file := file
              pageCount := file.blocks - 1
              allocationBitmap := bitmap
              allocatedPageCount := storedAllocated }
    | _ => .error (.storage "legacy or corrupt allocation catalog")

/-! ## One access of the file -/

def failsNext (pm : PageManager) : Bool := pm.file.faults.head? == some true

/-- The manager after the file system has answered once. -/
def answered (pm : PageManager) : PageManager := { pm with file := { pm.file with faults := pm.file.faults.tail } }

variable {pm : PageManager} {id : PageId} {pm' : PageManager} {page : Page}

@[simp] theorem answered_block : pm.answered.file.block = pm.file.block := rfl

theorem access_run (operation : String) (effect : DatabaseFile → DatabaseFile) (pm : PageManager) :
    (access operation effect).run pm =
      if pm.failsNext then (.error (.storage (operation ++ " failed for database file")), pm.answered)
      else (.ok (), { pm.answered with file := effect pm.answered.file }) := by
  obtain ⟨⟨block, blocks, faults⟩, pageCount, bitmap, allocated⟩ := pm
  cases faults with
  | nil => rfl
  | cons fault rest => cases fault <;> rfl

theorem isPageAllocated_iff : pm.isPageAllocated id = true ↔
    id.isValid = true ∧ id.index < pm.pageCount ∧ testBit pm.allocationBitmap id.index = true := by
  simp [isPageAllocated, and_assoc]

theorem offsetFor_run (hvalid : id.isValid = true) (hindex : id.index < kCatalogBits) :
    (offsetFor id).run pm = (.ok (id.index + 1), pm) := by
  have hsmall : ¬ id.index > (2 ^ 63 - 1) / kPageSize := by
    simp only [kCatalogBits, kCatalogBytes, kPageSize, kCatalogHeader] at *
    omega
  rw [offsetFor, Op.throwIf_bind_neg (by simp [hvalid]), Op.throwIf_bind_neg hsmall]
  rfl

/-- The checks before an access read the manager and change nothing. -/
theorem offsetFor_state (id : PageId) (pm : PageManager) : ((offsetFor id).run pm).2 = pm := by
  by_cases hvalid : id.isValid = false
  · rw [offsetFor, Op.throwIf_bind_pos hvalid]
  · rw [offsetFor, Op.throwIf_bind_neg hvalid]
    by_cases hbig : id.index > (2 ^ 63 - 1) / kPageSize
    · rw [Op.throwIf_bind_pos hbig]
    · rw [Op.throwIf_bind_neg hbig]
      rfl

/-! ## The manager's invariant -/

/-- The page stored in a slot of the file. -/
def slot (pm : PageManager) (id : PageId) : Option Page :=
  if id.index < pm.pageCount then
    match pm.file.block (id.index + 1) with
    | .page stored lsn payload => if stored = id then some ⟨id, lsn, payload⟩ else none
    | _ => none
  else none

theorem slot_eq_some (h : pm.slot id = some page) :
    id.index < pm.pageCount ∧ pm.file.block (id.index + 1) = .page id page.lsn page.payload ∧ page.id = id := by
  simp only [slot] at h
  split at h
  · rename_i hindex
    split at h
    · rename_i stored lsn payload hblock
      split at h
      · rename_i hstored
        obtain rfl := Option.some.inj h
        exact ⟨hindex, hstored ▸ hblock, rfl⟩
      · simp at h
    · simp at h
  · simp at h

/-- The slot is read off the block and the page count alone. -/
theorem slot_congr (hcount : pm'.pageCount = pm.pageCount)
    (hblock : id.index < pm.pageCount → pm'.file.block (id.index + 1) = pm.file.block (id.index + 1)) :
    pm'.slot id = pm.slot id := by
  rw [slot, slot, hcount]
  by_cases hindex : id.index < pm.pageCount
  · rw [if_pos hindex, if_pos hindex, hblock hindex]
  · rw [if_neg hindex, if_neg hindex]

/-- What holds between any two calls, whatever the file system has answered. -/
structure WellFormed (pm : PageManager) : Prop where
  capacity : pm.pageCount ≤ kCatalogBits
  bitmap_length : pm.allocationBitmap.length = kCatalogBytes
  clear_above : ∀ i, pm.pageCount ≤ i → testBit pm.allocationBitmap i = false
  slots : ∀ id : PageId, id.index < pm.pageCount → (pm.slot id).isSome = true
  count : pm.allocatedPageCount = countAllocated pm.allocationBitmap pm.pageCount

/-- The file holds what the manager holds: true as long as no access has failed. -/
structure Synced (pm : PageManager) : Prop where
  blocks : pm.file.blocks = pm.pageCount + 1
  catalog : pm.file.block 0 = .catalog pm.pageCount pm.allocatedPageCount pm.allocationBitmap
  healthy : pm.file.faults = []

theorem WellFormed.index_lt (h : pm.WellFormed) (halloc : pm.isPageAllocated id = true) : id.index < kCatalogBits :=
  Nat.lt_of_lt_of_le (isPageAllocated_iff.mp halloc).2.1 h.capacity

theorem WellFormed.slot_isSome (h : pm.WellFormed) (hindex : id.index < pm.pageCount) :
    ∃ page, pm.slot id = some page ∧ page.id = id := by
  obtain ⟨page, hpage⟩ := Option.isSome_iff_exists.mp (h.slots id hindex)
  exact ⟨page, hpage, (slot_eq_some hpage).2.2⟩

theorem validateAllocated_run (h : pm.WellFormed) (hvalid : id.isValid = true) (hindex : id.index < pm.pageCount) :
    (validateAllocated id).run pm = (.ok (), pm) := by
  rw [validateAllocated, Op.bind_ok (offsetFor_run hvalid (Nat.lt_of_lt_of_le hindex h.capacity)), Op.get_bind]
  exact Op.throwIf_run_neg (Nat.not_le.mpr hindex) pm

theorem validateLogicallyAllocated_run (h : pm.WellFormed) (halloc : pm.isPageAllocated id = true) :
    (validateLogicallyAllocated id).run pm = (.ok (), pm) := by
  obtain ⟨hvalid, hindex, -⟩ := isPageAllocated_iff.mp halloc
  rw [validateLogicallyAllocated, Op.bind_ok (validateAllocated_run h hvalid hindex), Op.get_bind]
  exact Op.throwIf_run_neg (by simp [halloc]) pm

/-- The check either passes, on a page of the file, or throws; it changes nothing. -/
theorem validateAllocated_cases (id : PageId) (pm : PageManager) :
    (∃ e, (validateAllocated id).run pm = (.error e, pm)) ∨
    ((validateAllocated id).run pm = (.ok (), pm) ∧ id.isValid = true ∧ id.index < pm.pageCount) := by
  have hstate := offsetFor_state id pm
  by_cases hvalid : id.isValid = false
  · exact Or.inl ⟨.storage "invalid page id", by
      rw [validateAllocated, Op.bind_error (by rw [offsetFor, Op.throwIf_bind_pos hvalid])]⟩
  · cases hoffset : (offsetFor id).run pm with
    | mk outcome pm' =>
      rw [hoffset] at hstate
      obtain rfl : pm' = pm := hstate
      cases outcome with
      | error e => exact Or.inl ⟨e, by rw [validateAllocated, Op.bind_error hoffset]⟩
      | ok offset =>
        rw [validateAllocated, Op.bind_ok hoffset, Op.get_bind]
        by_cases hindex : id.index ≥ pm'.pageCount
        · exact Or.inl ⟨_, Op.throwIf_run_pos hindex pm'⟩
        · exact Or.inr ⟨Op.throwIf_run_neg hindex pm', by simpa using hvalid, Nat.lt_of_not_le hindex⟩

theorem validateLogicallyAllocated_unallocated (halloc : pm.isPageAllocated id = false) :
    ∃ e, (validateLogicallyAllocated id).run pm = (.error e, pm) := by
  rcases validateAllocated_cases id pm with ⟨e, he⟩ | ⟨hok, -, -⟩
  · exact ⟨e, by rw [validateLogicallyAllocated, Op.bind_error he]⟩
  · refine ⟨.storage "page is physically present but logically unallocated", ?_⟩
    rw [validateLogicallyAllocated, Op.bind_ok hok, Op.get_bind]
    exact Op.throwIf_run_pos halloc pm

/-! ## Reading and writing a page -/

/-- `read_page` returns the page it was asked for. -/
theorem readPage_id {pm pm' : PageManager} {id : PageId} (h : (readPage id).run pm = (.ok page, pm')) : page.id = id := by
  obtain ⟨_, _, -, h⟩ := Op.of_bind_ok h
  obtain ⟨offset, _, -, h⟩ := Op.of_bind_ok h
  obtain ⟨_, pm₁, -, h⟩ := Op.of_bind_ok h
  rw [Op.get_bind] at h
  cases hblock : pm₁.file.block offset with
  | page stored lsn payload =>
    rw [hblock] at h
    obtain ⟨_, _, -, h⟩ := Op.of_bind_ok h
    exact congrArg Page.id (Except.ok.inj (Prod.mk.inj h).1).symm
  | _ =>
    rw [hblock] at h
    cases (Prod.mk.inj h).1

theorem readPage_run (h : pm.WellFormed) (halloc : pm.isPageAllocated id = true) (hslot : pm.slot id = some page) :
    (readPage id).run pm = if pm.failsNext then (.error (.storage "read failed for database file"), pm.answered)
      else (.ok page, pm.answered) := by
  obtain ⟨-, hblock, hid⟩ := slot_eq_some hslot
  rw [readPage, Op.bind_ok (validateLogicallyAllocated_run h halloc),
    Op.bind_ok (offsetFor_run (isPageAllocated_iff.mp halloc).1 (h.index_lt halloc))]
  by_cases hfail : pm.failsNext = true
  · rw [Op.bind_error (by rw [access_run, if_pos hfail]), if_pos hfail]
    rfl
  · rw [Op.bind_ok (by rw [access_run, if_neg hfail]), if_neg hfail, Op.get_bind]
    simp only [answered_block, hblock]
    rw [Op.throwIf_bind_neg (by simp), ← hid]
    rfl

/-- The manager with a page image in its slot. -/
def store (pm : PageManager) (id : PageId) (page : Page) : PageManager :=
  { pm with file := writeBlock (id.index + 1) (.page id page.lsn page.payload) pm.file }

theorem writePage_run (h : pm.WellFormed) (halloc : pm.isPageAllocated id = true) (hid : page.id = id) :
    (writePage id page).run pm = if pm.failsNext then (.error (.storage "write failed for database file"), pm.answered)
      else (.ok (), pm.answered.store id page) := by
  rw [writePage, Op.bind_ok (validateLogicallyAllocated_run h halloc), Op.throwIf_bind_neg (by simp [hid]),
    Op.bind_ok (offsetFor_run (isPageAllocated_iff.mp halloc).1 (h.index_lt halloc)), access_run]
  rfl

theorem writePage_unallocated (halloc : pm.isPageAllocated id = false) (page : Page) :
    ∃ e, (writePage id page).run pm = (.error e, pm) := by
  obtain ⟨e, he⟩ := validateLogicallyAllocated_unallocated halloc
  exact ⟨e, by rw [writePage, Op.bind_error he]⟩

theorem writePage_mismatch (h : pm.WellFormed) (halloc : pm.isPageAllocated id = true) (hid : page.id ≠ id) :
    (writePage id page).run pm = (.error (.storage "page identifier does not match write target"), pm) := by
  rw [writePage, Op.bind_ok (validateLogicallyAllocated_run h halloc), Op.throwIf_bind_pos hid]

theorem slot_store (hindex : id.index < pm.pageCount) (other : PageId) (page : Page) :
    (pm.store id page).slot other = if other = id then some ⟨id, page.lsn, page.payload⟩ else pm.slot other := by
  by_cases hother : other = id
  · subst hother
    simp [slot, store, writeBlock, hindex]
  · have hne : other.index + 1 ≠ id.index + 1 := fun heq => hother (PageId.ext_index (by omega))
    rw [if_neg hother]
    exact slot_congr rfl fun _ => Function.update_of_ne hne _ _

@[simp] theorem isPageAllocated_answered (other : PageId) :
    pm.answered.isPageAllocated other = pm.isPageAllocated other := rfl

@[simp] theorem slot_answered (other : PageId) : pm.answered.slot other = pm.slot other := rfl

theorem WellFormed.answered (h : pm.WellFormed) : pm.answered.WellFormed :=
  ⟨h.capacity, h.bitmap_length, h.clear_above, h.slots, h.count⟩

theorem WellFormed.store (h : pm.WellFormed) (hindex : id.index < pm.pageCount) (page : Page) :
    (pm.store id page).WellFormed := by
  refine ⟨h.capacity, h.bitmap_length, h.clear_above, fun other hother => ?_, h.count⟩
  rw [slot_store hindex]
  split
  · rfl
  · exact h.slots other hother

theorem Synced.answered (h : pm.Synced) : pm.answered.Synced :=
  ⟨h.blocks, h.catalog, by rw [PageManager.answered, h.healthy]; rfl⟩

theorem Synced.not_failsNext (h : pm.Synced) : ¬ pm.failsNext = true := by
  simp [failsNext, h.healthy]

theorem Synced.store (h : pm.Synced) (hindex : id.index < pm.pageCount) (page : Page) : (pm.store id page).Synced := by
  refine ⟨?_, ?_, h.healthy⟩
  · change max pm.file.blocks (id.index + 1 + 1) = pm.pageCount + 1
    rw [h.blocks]
    omega
  · rw [PageManager.store, writeBlock]
    simp only [Function.update_of_ne (Nat.succ_ne_zero id.index).symm, h.catalog]

/-! ## Allocation

The effect of each allocating call on what a client can see, the slots and the allocation bits, whatever the file
system answers. -/

/-- Nothing a client can see has changed. -/
structure Unchanged (pm pm' : PageManager) : Prop where
  pageCount : pm'.pageCount = pm.pageCount
  bitmap : pm'.allocationBitmap = pm.allocationBitmap
  allocated : pm'.allocatedPageCount = pm.allocatedPageCount
  slot : ∀ id, pm'.slot id = pm.slot id
  synced : pm.Synced → pm'.Synced

theorem Unchanged.refl (pm : PageManager) : Unchanged pm pm := ⟨rfl, rfl, rfl, fun _ => rfl, fun h => h⟩

theorem Unchanged.isPageAllocated (h : Unchanged pm pm') (id : PageId) : pm'.isPageAllocated id = pm.isPageAllocated id := by
  rw [PageManager.isPageAllocated, PageManager.isPageAllocated, h.pageCount, h.bitmap]

theorem Unchanged.wellFormed (h : Unchanged pm pm') (hwf : pm.WellFormed) : pm'.WellFormed := by
  refine ⟨h.pageCount ▸ hwf.capacity, h.bitmap ▸ hwf.bitmap_length, ?_, ?_, ?_⟩
  · rw [h.pageCount, h.bitmap]
    exact hwf.clear_above
  · intro id hid
    rw [h.slot]
    exact hwf.slots id (h.pageCount ▸ hid)
  · rw [h.allocated, h.bitmap, h.pageCount]
    exact hwf.count

/-- A new slot at the end of the file, its bit still clear. -/
structure Reserved (pm pm' : PageManager) : Prop where
  room : pm.pageCount < kCatalogBits
  pageCount : pm'.pageCount = pm.pageCount + 1
  bitmap : pm'.allocationBitmap = pm.allocationBitmap
  allocated : pm'.allocatedPageCount = pm.allocatedPageCount
  slot : ∀ id : PageId, pm'.slot id =
    if id = PageId.ofIndex pm.pageCount then some ⟨id, 0, .zero⟩ else pm.slot id
  synced : pm.Synced → pm'.Synced

/-- One allocation bit has been set to a value. -/
structure BitSet (pm pm' : PageManager) (id : PageId) (value : Bool) : Prop where
  pageCount : pm'.pageCount = pm.pageCount
  slot : ∀ other, pm'.slot other = pm.slot other
  bit : ∀ other, pm'.isPageAllocated other = if other = id then value else pm.isPageAllocated other
  wellFormed : pm'.WellFormed
  synced : pm.Synced → pm'.Synced

theorem index_ofIndex_of_le {i : Nat} (h : i ≤ kCatalogBits) : (PageId.ofIndex i).index = i := by
  have hcap : kCatalogBits < 2 ^ 64 := by decide
  exact PageId.index_ofIndex (Nat.lt_of_le_of_lt h hcap)

theorem isValid_ofIndex_of_le {i : Nat} (h : i ≤ kCatalogBits) : (PageId.ofIndex i).isValid = true := by
  have hcap : kCatalogBits < 2 ^ 64 - 1 := by decide
  exact PageId.isValid_of_index_lt (by rw [index_ofIndex_of_le h]; omega)

theorem countAllocated_succ (bitmap : Bytes) (n : Nat) :
    countAllocated bitmap (n + 1) = countAllocated bitmap n + (testBit bitmap n).toNat := by
  rw [countAllocated, List.range_succ, List.filter_append, List.length_append, ← countAllocated]
  cases htest : testBit bitmap n <;> simp [htest]

/-- Two bitmaps that differ in one bit at most. -/
theorem countAllocated_of_bit {before after : Bytes} {i : Nat} (hafter : ∀ j, j ≠ i → testBit after j = testBit before j) (n : Nat) :
    countAllocated after n + (if i < n then (testBit before i).toNat else 0) =
      countAllocated before n + (if i < n then (testBit after i).toNat else 0) := by
  induction n with
  | zero => rfl
  | succ n ih =>
    rw [countAllocated_succ, countAllocated_succ]
    by_cases hlast : n = i
    · subst hlast
      rw [if_neg (Nat.lt_irrefl n), if_neg (Nat.lt_irrefl n)] at ih
      rw [if_pos (Nat.lt_succ_self n), if_pos (Nat.lt_succ_self n)]
      omega
    · have hiff : i < n + 1 ↔ i < n := by omega
      rw [hafter n hlast, if_congr hiff rfl rfl, if_congr hiff rfl rfl]
      omega

theorem Reserved.wellFormed (h : Reserved pm pm') (hwf : pm.WellFormed) : pm'.WellFormed := by
  refine ⟨by rw [h.pageCount]; exact h.room, h.bitmap ▸ hwf.bitmap_length, ?_, ?_, ?_⟩
  · intro i hi
    rw [h.bitmap]
    exact hwf.clear_above i (by rw [h.pageCount] at hi; omega)
  · intro id hid
    rw [h.pageCount] at hid
    rw [h.slot]
    split
    · rfl
    · rename_i hne
      refine hwf.slots id ?_
      have hneq : id.index ≠ pm.pageCount := fun heq => hne (by rw [← heq, PageId.ofIndex_index])
      omega
  · rw [h.allocated, h.bitmap, h.pageCount, countAllocated_succ, hwf.clear_above _ (Nat.le_refl _), hwf.count]
    rfl

theorem Reserved.isPageAllocated (h : Reserved pm pm') (hwf : pm.WellFormed) (id : PageId) :
    pm'.isPageAllocated id = pm.isPageAllocated id := by
  rw [PageManager.isPageAllocated, PageManager.isPageAllocated, h.pageCount, h.bitmap]
  by_cases hlast : id.index = pm.pageCount
  · rw [hwf.clear_above _ hlast.symm.le, Bool.and_false, Bool.and_false]
  · congr 2
    rw [decide_eq_decide]
    omega

/-- Writing the catalog changes no slot, no bit and no count, and afterwards the file agrees with the manager. -/
theorem writeAllocationCatalog_cases (pm : PageManager) : ∃ outcome pm',
    writeAllocationCatalog.run pm = (outcome, pm') ∧ pm'.pageCount = pm.pageCount ∧
      pm'.allocationBitmap = pm.allocationBitmap ∧ pm'.allocatedPageCount = pm.allocatedPageCount ∧
      (∀ id, pm'.slot id = pm.slot id) ∧
      (pm.file.blocks = pm.pageCount + 1 → pm.file.faults = [] → outcome = .ok () ∧ pm'.Synced) := by
  rw [writeAllocationCatalog, Op.get_bind, access_run]
  by_cases hfail : pm.failsNext = true
  · refine ⟨_, _, if_pos hfail, rfl, rfl, rfl, fun _ => rfl, fun _ hhealthy => ?_⟩
    simp [failsNext, hhealthy] at hfail
  · refine ⟨_, _, if_neg hfail, rfl, rfl, rfl, fun _ => rfl, fun hblocks hhealthy => ⟨rfl, ?_, rfl, ?_⟩⟩
    · change max pm.file.blocks (0 + 1) = pm.pageCount + 1
      omega
    · change pm.file.faults.tail = []
      rw [hhealthy]
      rfl

theorem writeReservedSlot_cases {new : PageId} (hcount : pm.pageCount = new.index + 1) : ∃ outcome pm',
    (writeReservedSlot new (new.index + 1)).run pm = (outcome, pm') ∧ pm'.pageCount = pm.pageCount ∧
      pm'.allocationBitmap = pm.allocationBitmap ∧ pm'.allocatedPageCount = pm.allocatedPageCount ∧
      (∀ id, id ≠ new → pm'.slot id = pm.slot id) ∧ (outcome = .ok () → pm'.slot new = some ⟨new, 0, .zero⟩) ∧
      (pm.file.blocks = new.index + 1 → pm.file.faults = [] → outcome = .ok () ∧ pm'.Synced) := by
  have hindex : new.index < pm.pageCount := by omega
  by_cases hfail : pm.failsNext = true
  · have hrun : (writeReservedSlot new (new.index + 1)).run pm =
        (.error (.storage ("write reserved page" ++ " failed for database file")), pm.answered) := by
      rw [writeReservedSlot, Op.bind_error (by rw [access_run, if_pos hfail])]
    refine ⟨_, _, hrun, rfl, rfl, rfl, fun _ _ => rfl, ?_, fun _ hhealthy => ?_⟩
    · intro hok
      simp at hok
    · simp [failsNext, hhealthy] at hfail
  · obtain ⟨outcome, pm', hrun, hpages, hbitmap, hallocated, hslot, hsynced⟩ :=
      writeAllocationCatalog_cases (pm.answered.store new ⟨new, 0, .zero⟩)
    have hstored := fun id => (hslot id).trans (@slot_store pm.answered new hindex id ⟨new, 0, .zero⟩)
    refine ⟨outcome, pm', ?_, hpages, hbitmap, hallocated, fun id hid => ?_, fun _ => ?_, fun hblocks hhealthy => ?_⟩
    · rw [writeReservedSlot, Op.bind_ok (by rw [access_run, if_neg hfail])]
      exact hrun
    · rw [hstored, if_neg hid, slot_answered]
    · rw [hstored, if_pos rfl]
    · apply hsynced
      · change max pm.file.blocks (new.index + 1 + 1) = pm.pageCount + 1
        omega
      · change pm.file.faults.tail = []
        rw [hhealthy]
        rfl

theorem reservePage_cases (pm : PageManager) :
    (∃ e pm', reservePage.run pm = (.error e, pm') ∧ Unchanged pm pm' ∧ (pm.pageCount < kCatalogBits → ¬ pm.Synced)) ∨
    (∃ pm', reservePage.run pm = (.ok (PageId.ofIndex pm.pageCount), pm') ∧ Reserved pm pm') := by
  by_cases hfull : pm.pageCount ≥ kCatalogBits
  · refine Or.inl ⟨.storage "allocation catalog capacity exhausted", pm, ?_, .refl pm, fun hroom => by omega⟩
    rw [reservePage, Op.get_bind, Op.throwIf_bind_pos hfull]
  have hroom : pm.pageCount < kCatalogBits := Nat.lt_of_not_le hfull
  have hindex : (PageId.ofIndex pm.pageCount).index = pm.pageCount := index_ofIndex_of_le hroom.le
  -- The slot is written with the count already raised; a failure takes the count back.
  obtain ⟨outcome, pm', hrun, hpages, hbitmap, hallocated, hslot, hnew, hsynced⟩ :=
    @writeReservedSlot_cases { pm with pageCount := pm.pageCount + 1 } (PageId.ofIndex pm.pageCount) (by rw [hindex])
  have hbefore : reservePage.run pm = (do
      tryCatch (writeReservedSlot (PageId.ofIndex pm.pageCount) ((PageId.ofIndex pm.pageCount).index + 1)) fun e => do
        modify fun pm => { pm with pageCount := pm.pageCount - 1 }
        throw e
      return PageId.ofIndex pm.pageCount : PageOp PageId).run { pm with pageCount := pm.pageCount + 1 } := by
    rw [reservePage, Op.get_bind, Op.throwIf_bind_neg hfull,
      Op.bind_ok (offsetFor_run (isValid_ofIndex_of_le hroom.le) (by rw [hindex]; exact hroom)), Op.modify_bind]
  have hother : ∀ id, id ≠ PageId.ofIndex pm.pageCount → ({ pm with pageCount := pm.pageCount + 1 }).slot id = pm.slot id := by
    intro id hid
    have hne : id.index ≠ pm.pageCount := fun heq => hid (by rw [← heq, PageId.ofIndex_index])
    simp only [slot, show id.index < pm.pageCount + 1 ↔ id.index < pm.pageCount by omega]
  rw [hbefore]
  cases outcome with
  | error e =>
    refine Or.inl ⟨e, { pm' with pageCount := pm'.pageCount - 1 }, ?_, ⟨?_, hbitmap, hallocated, ?_, ?_⟩, ?_⟩
    · rw [Op.bind_error (by rw [Op.tryCatch_error hrun]; rfl)]
    · rw [hpages]
      rfl
    · intro id
      by_cases hid : id.index < pm.pageCount
      · have hne : id ≠ PageId.ofIndex pm.pageCount := fun heq => by rw [heq, hindex] at hid; omega
        rw [← hother id hne, ← hslot id hne, slot, slot]
        simp [hpages, hid, Nat.lt_succ_of_lt hid]
      · rw [slot, slot, if_neg hid, if_neg (by rw [hpages]; exact hid)]
    · intro h
      exact absurd (hsynced (by rw [hindex]; exact h.blocks) h.healthy).1 (by simp)
    · intro _ h
      exact absurd (hsynced (by rw [hindex]; exact h.blocks) h.healthy).1 (by simp)
  | ok _ =>
    refine Or.inr ⟨pm', ?_, hroom, hpages, hbitmap, hallocated, ?_, ?_⟩
    · rw [Op.bind_ok (Op.tryCatch_ok hrun)]
      rfl
    · intro id
      split
      · rename_i heq
        rw [heq, hnew rfl]
      · rename_i hne
        rw [hslot id hne, hother id hne]
    · intro h
      exact (hsynced (by rw [hindex]; exact h.blocks) h.healthy).2

theorem WellFormed.bit_lt (h : pm.WellFormed) {i : Nat} (hi : i < pm.pageCount) : i < 8 * pm.allocationBitmap.length := by
  rw [h.bitmap_length, Nat.mul_comm]
  exact Nat.lt_of_lt_of_le hi h.capacity

/-- The catalog is written with the bit of one page changed, and the count with it. -/
theorem writeBit_cases (hwf : pm.WellFormed) (hvalid : id.isValid = true) (hindex : id.index < pm.pageCount) {bitmap : Bytes}
    (value : Bool) (count : Nat) (hlength : bitmap.length = pm.allocationBitmap.length)
    (hself : testBit bitmap id.index = value) (hother : ∀ j, j ≠ id.index → testBit bitmap j = testBit pm.allocationBitmap j)
    (hcount : count = pm.allocatedPageCount + value.toNat - (testBit pm.allocationBitmap id.index).toNat) : ∃ outcome pm',
      writeAllocationCatalog.run { pm with allocationBitmap := bitmap, allocatedPageCount := count } = (outcome, pm') ∧
      BitSet pm pm' id value ∧ (pm.Synced → outcome = .ok ()) := by
  obtain ⟨outcome, pm', hrun, hpages, hbitmap, hallocated, hslot, hsynced⟩ := writeAllocationCatalog_cases
    { pm with allocationBitmap := bitmap, allocatedPageCount := count }
  dsimp only at hpages hbitmap hallocated
  have hnew : pm'.WellFormed := by
    refine ⟨by rw [hpages]; exact hwf.capacity, by rw [hbitmap, hlength]; exact hwf.bitmap_length, fun i hi => ?_,
      fun other hbelow => ?_, ?_⟩
    · rw [hpages] at hi
      rw [hbitmap, hother i (by omega), hwf.clear_above i hi]
    · rw [hslot]
      exact hwf.slots other (hpages ▸ hbelow)
    · have hcounts := countAllocated_of_bit hother pm.pageCount
      rw [if_pos hindex, if_pos hindex, hself, ← hwf.count] at hcounts
      rw [hallocated, hpages, hbitmap]
      omega
  refine ⟨outcome, pm', hrun, ⟨hpages, hslot, fun other => ?_, hnew, fun h => (hsynced h.blocks h.healthy).2⟩,
    fun h => (hsynced h.blocks h.healthy).1⟩
  rw [isPageAllocated, isPageAllocated, hpages, hbitmap]
  split
  · rename_i heq
    rw [heq, hself, hvalid, decide_eq_true hindex, Bool.true_and, Bool.true_and]
  · rename_i hne
    rw [hother _ fun heq => hne (PageId.ext_index heq)]

theorem activateReservedPage_cases (hwf : pm.WellFormed) :
    (∃ e, (activateReservedPage id).run pm = (.error e, pm) ∧
      (id.isValid = true → id.index < pm.pageCount → pm.isPageAllocated id = true)) ∨
    (∃ outcome pm', (activateReservedPage id).run pm = (outcome, pm') ∧ pm.isPageAllocated id = false ∧
      id.index < pm.pageCount ∧ BitSet pm pm' id true ∧ (pm.Synced → outcome = .ok ())) := by
  rcases validateAllocated_cases id pm with ⟨e, he⟩ | ⟨hok, hvalid, hindex⟩
  · refine Or.inl ⟨e, by rw [activateReservedPage, Op.bind_error he], fun hvalid hindex => ?_⟩
    rw [validateAllocated_run hwf hvalid hindex] at he
    simp at he
  by_cases halloc : pm.isPageAllocated id = true
  · refine Or.inl ⟨.storage "page is already logically allocated", ?_, fun _ _ => halloc⟩
    rw [activateReservedPage, Op.bind_ok hok, Op.get_bind, Op.throwIf_bind_pos halloc]
  have hclear : testBit pm.allocationBitmap id.index = false := by
    simpa [isPageAllocated, hvalid, hindex] using halloc
  have hbit := testBit_setBit (hwf.bit_lt hindex)
  obtain ⟨outcome, pm', hrun, hset, hworks⟩ := writeBit_cases hwf hvalid hindex true (pm.allocatedPageCount + 1)
    (setBit_length _ _) (by rw [hbit]; simp) (fun j hj => by rw [hbit, decide_eq_false hj.symm, Bool.false_or]) (by rw [hclear]; rfl)
  refine Or.inr ⟨outcome, pm', ?_, by simpa using halloc, hindex, hset, hworks⟩
  rw [activateReservedPage, Op.bind_ok hok, Op.get_bind, Op.throwIf_bind_neg halloc, Op.modify_bind]
  exact hrun

/-- New slots at the end of the file, allocated or not; nothing has happened to the old ones. -/
structure Grown (pm pm' : PageManager) : Prop where
  pageCount : pm.pageCount ≤ pm'.pageCount
  slot : ∀ id : PageId, id.index < pm.pageCount → pm'.slot id = pm.slot id
  fresh : ∀ (id : PageId) (page : Page), pm.pageCount ≤ id.index → pm'.slot id = some page → page = ⟨id, 0, .zero⟩
  bit : ∀ id : PageId, id.index < pm.pageCount → pm'.isPageAllocated id = pm.isPageAllocated id
  wellFormed : pm'.WellFormed
  synced : pm.Synced → pm'.Synced

theorem Unchanged.grown (h : Unchanged pm pm') (hwf : pm.WellFormed) : Grown pm pm' := by
  refine ⟨h.pageCount.ge, fun id _ => h.slot id, fun id page hnew hslot => ?_, fun id _ => h.isPageAllocated id,
    h.wellFormed hwf, h.synced⟩
  rw [h.slot] at hslot
  exact absurd (slot_eq_some hslot).1 hnew.not_gt

theorem Reserved.grown (h : Reserved pm pm') (hwf : pm.WellFormed) : Grown pm pm' := by
  refine ⟨by rw [h.pageCount]; exact Nat.le_succ _, fun id hid => ?_, fun id page hnew hslot => ?_,
    fun id _ => h.isPageAllocated hwf id, h.wellFormed hwf, h.synced⟩
  · rw [h.slot, if_neg]
    intro heq
    rw [heq, index_ofIndex_of_le h.room.le] at hid
    exact Nat.lt_irrefl _ hid
  · rw [h.slot] at hslot
    split at hslot
    · exact (Option.some.inj hslot).symm
    · exact absurd (slot_eq_some hslot).1 hnew.not_gt

theorem allocatePage_cases (hwf : pm.WellFormed) : ∃ outcome pm', allocatePage.run pm = (outcome, pm') ∧ Grown pm pm' ∧
    (∀ id, outcome = .ok id → id = PageId.ofIndex pm.pageCount ∧ pm'.isPageAllocated id = true ∧
      pm'.pageCount = pm.pageCount + 1 ∧ pm'.slot id = some ⟨id, 0, .zero⟩) ∧
    (pm.pageCount < kCatalogBits → pm.Synced → ∃ id, outcome = .ok id) := by
  rcases reservePage_cases pm with ⟨e, pm', hrun, hsame, hreason⟩ | ⟨pm₁, hrun, hreserved⟩
  · refine ⟨_, pm', by rw [allocatePage, Op.bind_error hrun], hsame.grown hwf, by simp, fun hroom hs => ?_⟩
    exact absurd hs (hreason hroom)
  have hgrown := hreserved.grown hwf
  have hindex := index_ofIndex_of_le hreserved.room.le
  have hvalid := isValid_ofIndex_of_le hreserved.room.le
  have hlt : (PageId.ofIndex pm.pageCount).index < pm₁.pageCount := by
    rw [hindex, hreserved.pageCount]
    exact Nat.lt_succ_self _
  have hfree : pm₁.isPageAllocated (PageId.ofIndex pm.pageCount) = false := by
    rw [hreserved.isPageAllocated hwf, isPageAllocated, hindex]
    simp
  rcases @activateReservedPage_cases pm₁ (PageId.ofIndex pm.pageCount) hgrown.wellFormed with
    ⟨e, -, hno⟩ | ⟨outcome, pm', hrun', -, -, hbit, hworks⟩
  · rw [hfree] at hno
    exact absurd (hno hvalid hlt) (by simp)
  have hgrown' : Grown pm pm' := by
    refine ⟨hbit.pageCount ▸ hgrown.pageCount, fun id hid => (hbit.slot id).trans (hgrown.slot id hid),
      fun id page hnew hslot => hgrown.fresh id page hnew (hbit.slot id ▸ hslot), fun id hid => ?_, hbit.wellFormed, fun hs => hbit.synced (hgrown.synced hs)⟩
    rw [hbit.bit, if_neg, hgrown.bit id hid]
    intro heq
    rw [heq, hindex] at hid
    exact Nat.lt_irrefl _ hid
  cases outcome with
  | error e =>
    refine ⟨_, pm', by rw [allocatePage, Op.bind_ok hrun, Op.bind_error hrun'], hgrown', by simp, fun _ hs => ?_⟩
    exact absurd (hworks (hgrown.synced hs)) (by simp)
  | ok _ =>
    refine ⟨.ok (PageId.ofIndex pm.pageCount), pm', by rw [allocatePage, Op.bind_ok hrun, Op.bind_ok hrun']; rfl, hgrown',
      ?_, fun _ _ => ⟨_, rfl⟩⟩
    intro id hid
    obtain rfl := Except.ok.inj hid
    refine ⟨rfl, by rw [hbit.bit, if_pos rfl], hbit.pageCount.trans hreserved.pageCount, ?_⟩
    rw [hbit.slot, hreserved.slot, if_pos rfl]

theorem deallocatePage_cases (hwf : pm.WellFormed) :
    (∃ e, (deallocatePage id).run pm = (.error e, pm) ∧ pm.isPageAllocated id = false) ∨
    (∃ outcome pm', (deallocatePage id).run pm = (outcome, pm') ∧ pm.isPageAllocated id = true ∧
      BitSet pm pm' id false ∧ (pm.Synced → outcome = .ok ())) := by
  by_cases halloc : pm.isPageAllocated id = true
  swap
  · obtain ⟨e, he⟩ := validateLogicallyAllocated_unallocated (Bool.eq_false_iff.mpr halloc)
    exact Or.inl ⟨e, by rw [deallocatePage, Op.bind_error he], Bool.eq_false_iff.mpr halloc⟩
  obtain ⟨hvalid, hindex, hset⟩ := isPageAllocated_iff.mp halloc
  have hbit := testBit_clearBit (hwf.bit_lt hindex)
  obtain ⟨outcome, pm', hrun, hcleared, hworks⟩ := writeBit_cases hwf hvalid hindex false (pm.allocatedPageCount - 1)
    (clearBit_length _ _) (by rw [hbit]; simp) (fun j hj => by rw [hbit, decide_eq_false hj.symm]; rfl) (by rw [hset]; rfl)
  refine Or.inr ⟨outcome, pm', ?_, halloc, hcleared, hworks⟩
  rw [deallocatePage, Op.bind_ok (validateLogicallyAllocated_run hwf halloc), Op.modify_bind]
  exact hrun

/-! ## An empty file -/

/-- The manager of a new file. -/
def empty : PageManager where
  file := writeBlock 0 (.catalog 0 0 (List.replicate kCatalogBytes 0)) ⟨fun _ => .blank, 0, []⟩
  pageCount := 0
  allocationBitmap := List.replicate kCatalogBytes 0
  allocatedPageCount := 0

theorem openFile_of_catalog (hwf : pm.WellFormed) (hblocks : pm.file.blocks = pm.pageCount + 1)
    (hcatalog : pm.file.block 0 = .catalog pm.pageCount pm.allocatedPageCount pm.allocationBitmap) : openFile pm.file = .ok pm := by
  have hcount : pm.file.blocks - 1 = pm.pageCount := by rw [hblocks, Nat.add_sub_cancel]
  rw [openFile, if_neg (by rw [hblocks]; exact Nat.succ_ne_zero _), hcatalog]
  dsimp only
  rw [hcount, if_neg (by simpa using hwf.capacity), if_neg (by simp [hwf.count])]

/-- Opening the file of a manager again gives the manager, as long as no access has failed. -/
theorem openFile_synced (hwf : pm.WellFormed) (h : pm.Synced) : openFile pm.file = .ok pm :=
  openFile_of_catalog hwf h.blocks h.catalog

theorem wellFormed_empty : empty.WellFormed where
  capacity := Nat.zero_le _
  bitmap_length := List.length_replicate
  clear_above := fun i _ => testBit_replicate_zero _ i
  slots := fun _ hid => absurd hid (Nat.not_lt_zero _)
  count := rfl

theorem synced_empty : empty.Synced := ⟨rfl, rfl, rfl⟩

end PageManager

end Ddb.Storage
