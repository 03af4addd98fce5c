import Ddb.Storage.PageManager

/-!
# The buffer pool

A fixed number of frames over one page manager. A frame is on the free list, pinned by clients, or unpinned and on the
LRU list; the page table says which frame holds a page. Two gates stand before a write-back: a captured mutation without
its LSN blocks it, and so does a PageLSN the log is not durable through.

The pool borrows the page manager and the durability provider, so its state is kept together with theirs. A pointer to
a page of a frame is the frame's number. `handed` is no data of the program: it records each page image at the moment the
pool hands it to `write_page`, with what the gates are about, so that a statement about all write-backs can be made.
-/

namespace Ddb.Buffer

open Ddb.Lib Ddb.Storage

abbrev FrameId := Nat

structure Frame where
  page : Page
  pinCount : Nat
  dirty : Bool
  occupied : Bool
  pendingMutations : Nat

/-- `Frame{}`, and what `reset_frame` leaves. -/
def Frame.blank : Frame := ⟨.blank, 0, false, false, 0⟩

structure BufferPool where
  capacity : Nat
  frames : FrameId → Frame
  pageTable : PageId → Option FrameId
  /-- The head is `free_frames_.back()`. -/
  freeFrames : List FrameId
  /-- The head is `lru_.front()`. -/
  lru : List FrameId

/-- A page image on its way to the disk. -/
structure WriteBack where
  page : Page
  pendingMutations : Nat
  /-- The provider's `durable_lsn()`, when there is a provider. -/
  durableLsn : Option Nat

structure Cache where
  pages : PageManager
  pool : BufferPool
  walDurability : Option Nat
  handed : List WriteBack

abbrev CacheOp := Op Err Cache

/-- `numeric_limits<uint32_t>::max()`. -/
def kMaxCount : Nat := 2 ^ 32 - 1

namespace BufferPool

/-- The constructor. -/
def create (capacity : Nat) : BufferPool where
  capacity := capacity
  frames := fun _ => .blank
  pageTable := fun _ => none
  freeFrames := List.range capacity
  lru := []

def setFrame (pool : BufferPool) (frameId : FrameId) (frame : Frame) : BufferPool :=
  { pool with frames := Function.update pool.frames frameId frame }

def removeFromLru (pool : BufferPool) (frameId : FrameId) : BufferPool :=
  { pool with lru := pool.lru.erase frameId }

def makeEvictable (pool : BufferPool) (frameId : FrameId) : BufferPool :=
  { pool with lru := pool.lru.erase frameId ++ [frameId] }

def resetFrame (pool : BufferPool) (frameId : FrameId) : BufferPool := pool.setFrame frameId .blank

def erasePage (pool : BufferPool) (id : PageId) : BufferPool :=
  { pool with pageTable := Function.update pool.pageTable id none }

/-- `free_frames_.push_back`. -/
def pushFree (pool : BufferPool) (frameId : FrameId) : BufferPool :=
  { pool with freeFrames := frameId :: pool.freeFrames }

end BufferPool

namespace Cache

def contains (c : Cache) (id : PageId) : Bool := (c.pool.pageTable id).isSome

def modifyPool (f : BufferPool → BufferPool) : CacheOp Unit := modify fun c => { c with pool := f c.pool }

def modifyFrame (frameId : FrameId) (f : Frame → Frame) : CacheOp Unit :=
  modifyPool fun pool => pool.setFrame frameId (f (pool.frames frameId))

/-- A call of the page manager. -/
def onPages {α : Type} (x : PageOp α) : CacheOp α := x.zoom Cache.pages fun c pages => { c with pages := pages }

/-- `page_manager_.write_page(id, frame.page)`. -/
def handToDisk (id : PageId) (frame : Frame) : CacheOp Unit := do
  modify fun c => { c with handed := ⟨frame.page, frame.pendingMutations, c.walDurability⟩ :: c.handed }
  onPages (PageManager.writePage id frame.page)

def requireMutationsFinalized (frame : Frame) : CacheOp Unit :=
  throwIf (frame.pendingMutations ≠ 0) (.logic "page write blocked until captured mutations have PageLSNs")

/-- Whether the log is durable through the frame's PageLSN. -/
def walDurable (walDurability : Option Nat) (frame : Frame) : Bool :=
  match walDurability with
  | none => false
  | some durableLsn => decide (frame.page.lsn ≤ durableLsn)

def requireWalDurable (frame : Frame) : CacheOp Unit := do
  let c ← get
  throwIf (frame.page.lsn ≠ 0 ∧ walDurable c.walDurability frame = false)
    (.walDurability "page write blocked until WAL is durable through PageLSN")

/-- The two gates, in the order every write path asks them. -/
def requireWritable (frame : Frame) : CacheOp Unit := do
  requireMutationsFinalized frame
  requireWalDurable frame

def writeDirtyFrame (frameId : FrameId) : CacheOp Unit := do
  let frame := (← get).pool.frames frameId
  if frame.dirty then
    requireWritable frame
    handToDisk frame.page.id frame
    modifyFrame frameId fun frame => { frame with dirty := false }

def acquireFrame : CacheOp (Option FrameId) := do
  let c ← get
  match c.pool.freeFrames, c.pool.lru with
  | frameId :: rest, _ =>
    modifyPool fun pool => { pool with freeFrames := rest }
    return some frameId
  | [], [] => return none
  | [], victim :: _ =>
    writeDirtyFrame victim
    modifyPool fun pool =>
      ((pool.removeFromLru victim).erasePage (pool.frames victim).page.id).resetFrame victim
    return some victim

/-- Put a frame that could not be filled back on the free list. -/
def giveBack (frameId : FrameId) : CacheOp Unit := modifyPool fun pool => (pool.resetFrame frameId).pushFree frameId

/-- The miss path of `fetch_page` once a frame is there. -/
def fillFrame (id : PageId) (frameId : FrameId) : CacheOp Unit := do
  let page ← tryCatch (onPages (PageManager.readPage id)) fun e => do
    giveBack frameId
    throw e
  modifyFrame frameId fun frame => { frame with page := page, pinCount := 1, dirty := false, occupied := true }
  match (← get).pool.pageTable id with
  | some _ =>
    giveBack frameId
    throw (.logic "duplicate page-table insertion")
  | none => modifyPool fun pool => { pool with pageTable := Function.update pool.pageTable id (some frameId) }

/-- The pointer `fetch_page` returns, `none` for `nullptr`. -/
def fetchPage (id : PageId) : CacheOp (Option FrameId) := do
  let c ← get
  if id.isValid = false then return none
  throwIf (c.pages.isPageAllocated id = false) (.storage "cannot fetch logically unallocated page")
  match c.pool.pageTable id with
  | some frameId =>
    if (c.pool.frames frameId).pinCount = kMaxCount then return none
    modifyFrame frameId fun frame => { frame with pinCount := frame.pinCount + 1 }
    modifyPool fun pool => pool.removeFromLru frameId
    return some frameId
  | none =>
    match ← acquireFrame with
    | none => return none
    | some frameId =>
      fillFrame id frameId
      return some frameId

def unpinPage (id : PageId) (isDirty : Bool) : CacheOp Bool := do
  let c ← get
  match c.pool.pageTable id with
  | none => return false
  | some frameId =>
    if (c.pool.frames frameId).pinCount = 0 then return false
    modifyFrame frameId fun frame => { frame with
      pinCount := frame.pinCount - 1
      dirty := frame.dirty || isDirty }
    modifyPool fun pool => if (pool.frames frameId).pinCount = 0 then pool.makeEvictable frameId else pool
    return true

def flushPage (id : PageId) : CacheOp Bool := do
  let c ← get
  match c.pool.pageTable id with
  | none => return false
  | some frameId =>
    let frame := c.pool.frames frameId
    (if frame.dirty then requireWritable frame else pure ())
    handToDisk id frame
    onPages PageManager.flush
    modifyFrame frameId fun frame => { frame with dirty := false }
    return true

def deletePage (id : PageId) : CacheOp Bool := do
  let c ← get
  match c.pool.pageTable id with
  | none => return true
  | some frameId =>
    if (c.pool.frames frameId).pinCount ≠ 0 then return false
    writeDirtyFrame frameId
    modifyPool fun pool => (((pool.removeFromLru frameId).erasePage id).resetFrame frameId).pushFree frameId
    return true

/-- The first loop of `flush_all_pages`, for one frame. -/
def writeBackFrame (frameId : FrameId) : CacheOp Unit := do
  let frame := (← get).pool.frames frameId
  if frame.occupied && frame.dirty then
    requireWritable frame
    handToDisk frame.page.id frame

def flushAllPages : CacheOp Unit := do
  let c ← get
  (List.range c.pool.capacity).forM writeBackFrame
  onPages PageManager.flush
  (List.range c.pool.capacity).forM fun frameId =>
    modifyFrame frameId fun frame => if frame.occupied then { frame with dirty := false } else frame

/-- `page_table_.find(id)` with an exception for a page that is not resident. -/
def onFrame (id : PageId) (absent : Err) (body : FrameId → Frame → CacheOp Unit) : CacheOp Unit := do
  let c ← get
  match c.pool.pageTable id with
  | none => throw absent
  | some frameId => body frameId (c.pool.frames frameId)

def setLsn (lsn : Nat) (frame : Frame) : Frame := { frame with page := frame.page.withLsn lsn }

def markMutationPending (id : PageId) : CacheOp Unit :=
  onFrame id (.logic "pending mutation requires a pinned page") fun frameId frame => do
    throwIf (frame.pinCount = 0) (.logic "pending mutation requires a pinned page")
    throwIf (frame.pendingMutations = kMaxCount) (.overflow "too many pending page mutations")
    modifyFrame frameId fun frame => { frame with pendingMutations := frame.pendingMutations + 1 }

def finalizePendingMutation (id : PageId) (lsn : Nat) : CacheOp Unit :=
  onFrame id (.logic "mutation page is no longer resident") fun frameId frame => do
    throwIf (frame.pendingMutations = 0) (.logic "no pending mutation for page")
    throwIf (lsn = 0) (.invalidArgument "a finalized mutation requires a nonzero LSN")
    modifyFrame frameId fun frame => { setLsn lsn frame with pendingMutations := frame.pendingMutations - 1 }

def resolvePendingMutation (id : PageId) (restoredPageLsn : Nat) : CacheOp Unit :=
  onFrame id (.logic "mutation page is no longer resident") fun frameId frame => do
    throwIf (frame.pendingMutations = 0) (.logic "no pending mutation for page")
    modifyFrame frameId fun frame =>
      { setLsn restoredPageLsn frame with pendingMutations := frame.pendingMutations - 1 }

def restorePageLsnAfterUndo (id : PageId) (restoredPageLsn : Nat) : CacheOp Unit :=
  onFrame id (.logic "undo page is no longer resident") fun frameId frame => do
    throwIf (frame.pendingMutations ≠ 0) (.logic "cannot restore PageLSN before pending mutations are resolved")
    modifyFrame frameId (setLsn restoredPageLsn)

/-- A client writes payload and PageLSN through a pointer it has pinned. -/
def writeThrough (frameId : FrameId) (payload : Payload) (lsn : Nat) : CacheOp Unit :=
  modifyFrame frameId fun frame => { frame with page := { frame.page with payload := payload, lsn := lsn } }

end Cache

end Ddb.Buffer
