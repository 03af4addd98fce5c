import Ddb.Concurrency.LockManager
import Ddb.Storage.PhysicalMutation

/-!
# Transactions over one pool

A transaction owns what it has captured: the page images before and after each of its mutations, which of them have a
PageLSN and which have been undone again, and the pages it has allocated. The objects around it, the pool over the page
manager, the log and the lock manager, are shared, so its methods are operations on the database as a whole. The state
of a transaction (`Growing` to `Aborted`) is only ever changed by the lock manager and is kept there.

A client changes a page under a mutation context: it pins the page, lets the context take the before image (`watch`),
writes, lets the context compare (`finish`, while the page is still pinned) and unpins the page as dirty. The source makes
the context when the transaction first meets the pool; here it is there from the start, empty.
-/

namespace Ddb.Concurrency

open Ddb.Lib Ddb.Storage Ddb.Buffer

/-- A watched page. The before image is gone once it has been moved into a mutation. -/
structure Pending where
  id : PageId
  before : Option Payload
  previousPageLsn : Nat

structure MutationContext where
  pending : List Pending
  nextSequence : UInt64

structure Transaction where
  /-- Whether there is a log sink. -/
  logSink : Bool
  context : MutationContext
  pendingMutations : List PhysicalMutation
  undoResolved : List Bool
  finalizedMutations : Nat
  allocatedPages : List PageId

structure Database where
  pages : PageManager
  pool : BufferPool
  handed : List WriteBack
  log : LogManager
  locking : LockSystem
  transactions : TransactionId → Transaction
  /-- `next_id_` of the transaction manager. -/
  nextId : TransactionId

abbrev DbOp := Op Err Database

namespace Transaction

def fresh (logSink : Bool) : Transaction := ⟨logSink, ⟨[], 0⟩, [], [], 0, []⟩

def hasUnfinishedCapture (tx : Transaction) : Bool := !tx.context.pending.isEmpty

def hasUnfinalizedMutations (tx : Transaction) : Bool :=
  tx.hasUnfinishedCapture || tx.finalizedMutations != tx.pendingMutations.length

def hasUnresolvedMutationsForAbort (tx : Transaction) : Bool :=
  tx.hasUnfinishedCapture || tx.undoResolved.any fun resolved => !resolved

/-- The mutation at this index has been undone. -/
def resolved (tx : Transaction) (index : Nat) : Bool := tx.undoResolved.getD index false

/-- Some mutation behind this index has not been undone. -/
def unresolvedAfter (tx : Transaction) (index : Nat) : Bool :=
  (tx.undoResolved.drop (index + 1)).any fun resolved => !resolved

end Transaction

namespace Database

def state (db : Database) (t : TransactionId) : TransactionState := db.locking.state t

/-- The pool with what it borrows; its durability provider is the log. -/
def cache (db : Database) : Cache := ⟨db.pages, db.pool, some db.log.durableLsn, db.handed⟩

def withCache (db : Database) (c : Cache) : Database := { db with pages := c.pages, pool := c.pool, handed := c.handed }

def onCache {α : Type} (x : CacheOp α) : DbOp α := x.zoom cache withCache

def onLog {α : Type} (x : LogOp α) : DbOp α := x.zoom Database.log fun db log => { db with log := log }

def onPageManager {α : Type} (x : PageOp α) : DbOp α := onCache (Cache.onPages x)

def setTransaction (db : Database) (t : TransactionId) (tx : Transaction) : Database :=
  { db with transactions := Function.update db.transactions t tx }

def modifyTransaction (t : TransactionId) (f : Transaction → Transaction) : DbOp Unit :=
  modify fun db => db.setTransaction t (f (db.transactions t))

/-! ## Capturing a mutation -/

/-- The context with one more watched page. -/
def watched (id : PageId) (page : Page) (tx : Transaction) : Transaction :=
  { tx with context := { tx.context with pending := tx.context.pending ++ [⟨id, some page.payload, page.lsn⟩] } }

def watch (t : TransactionId) (id : PageId) : DbOp Unit := do
  throwIf (id.isValid = false) (.invalidArgument "invalid mutation page")
  let page ← onCache (image id)
  modifyTransaction t (watched id page)

/-- `pending_mutations_.push_back`, `undo_resolved_.push_back`. -/
def recorded (mutation : PhysicalMutation) (tx : Transaction) : Transaction :=
  { tx with
    pendingMutations := tx.pendingMutations ++ [mutation]
    undoResolved := tx.undoResolved ++ [false] }

def finalized (tx : Transaction) : Transaction := { tx with finalizedMutations := tx.finalizedMutations + 1 }

def finalizeMutation (t : TransactionId) (mutation : PhysicalMutation) : DbOp (Option Nat) := do
  modifyTransaction t (recorded mutation)
  let db ← get
  if (db.transactions t).logSink then
    let lsn ← onLog (LogManager.appendPhysicalMutation t mutation)
    throwIf (lsn = 0) (.logic "WAL mutation logger returned zero LSN")
    modifyTransaction t finalized
    return some lsn
  else return none

/-- The before image of the first entry of a page is moved away. -/
def moveBefore (id : PageId) : List Pending → List Pending
  | [] => []
  | entry :: rest => if entry.id = id then { entry with before := none } :: rest else entry :: moveBefore id rest

/-- `next_sequence_++` and `std::move(it->before)`. -/
def movedBefore (id : PageId) (tx : Transaction) : Transaction :=
  { tx with context := ⟨moveBefore id tx.context.pending, tx.context.nextSequence + 1⟩ }

/-- The branch of `capture` for a page that has changed. -/
def captureChange (t : TransactionId) (frameId : FrameId) (mutation : PhysicalMutation) : DbOp Unit := do
  modifyTransaction t (movedBefore mutation.pageId)
  match ← finalizeMutation t mutation with
  | some lsn =>
    throwIf (lsn = 0) (.invalidArgument "a finalized mutation requires a nonzero LSN")
    onCache (Cache.modifyFrame frameId (Cache.setLsn lsn))
  | none => onCache (Cache.markMutationPending mutation.pageId)

/-- `pending_.erase(it)`. -/
def erasedPending (id : PageId) (tx : Transaction) : Transaction :=
  { tx with context := { tx.context with pending := tx.context.pending.eraseP fun entry => entry.id = id } }

/-- `capture`, the page being the one of a pinned frame. An entry whose before image has been moved away compares as
changed, and the log refuses its empty image. The mutation that then remains in `pending_mutations_` is left out: the
entry stays in the context for good, and an unfinished capture is asked about before the mutations are. -/
def capture (t : TransactionId) (id : PageId) (frameId : FrameId) : DbOp Unit := do
  let db ← get
  let context := (db.transactions t).context
  let after := (db.pool.frames frameId).page.payload
  match context.pending.find? fun entry => entry.id = id with
  | none => throw (.logic "finish without watch")
  | some entry =>
    match entry.before with
    | none => throw (.wal "invalid WAL mutation image size")
    | some before =>
      (if after ≠ before then
        captureChange t frameId ⟨id, .payloadWrite, context.nextSequence, before, after, entry.previousPageLsn⟩
      else pure ())
      modifyTransaction t (erasedPending id)

/-- `finish(id, page)`. -/
def finish (t : TransactionId) (id : PageId) (frameId : FrameId) : DbOp Unit := do
  let db ← get
  throwIf ((db.pool.frames frameId).page.id ≠ id) (.invalidArgument "mutation page does not match finish target")
  capture t id frameId

/-- A client changes the page it has pinned: under the mutation context of its transaction, or with none. -/
def changePinned (client : Option TransactionId) (id : PageId) (frameId : FrameId) (after : Payload) : DbOp Unit :=
  match client with
  | some t => do
    watch t id
    onCache (writePayload frameId after)
    finish t id frameId
    let _ ← onCache (Cache.unpinPage id true)
  | none => do
    onCache (writePayload frameId after)
    let _ ← onCache (Cache.unpinPage id true)

/-- One page access: pin the page, read it, change it or not, unpin it. `none` is for a page that could not be pinned. -/
def accessPage {α : Type} (client : Option TransactionId) (id : PageId) (f : Payload → Option Payload × α) :
    DbOp (Option α) := do
  match ← onCache (Cache.fetchPage id) with
  | none => return none
  | some frameId =>
    match f ((← get).pool.frames frameId).page.payload with
    | (some after, answer) =>
      changePinned client id frameId after
      return some answer
    | (none, answer) =>
      let _ ← onCache (Cache.unpinPage id false)
      return some answer

/-! ## What an access stays within -/

/-- Every use of the pool and of the log stays within the relation, and so does every note in a transaction that leaves its
allocated pages alone. -/
structure Covers (R : Database → Database → Prop) : Prop where
  refl : ∀ db, R db db
  trans : ∀ a b c, R a b → R b c → R a c
  onCache : ∀ {α : Type} (x : CacheOp α), Op.Within R (onCache x)
  onLog : ∀ {α : Type} (x : LogOp α), Op.Within R (onLog x)
  note : ∀ (t : TransactionId) {f : Transaction → Transaction}, (∀ tx, (f tx).allocatedPages = tx.allocatedPages) →
    Op.Within R (modifyTransaction t f)

namespace Covers

variable {R : Database → Database → Prop} {α β : Type} (h : Covers R) (t : TransactionId) (f : FrameId)

include h

theorem bind {x : DbOp α} {next : α → DbOp β} (hx : Op.Within R x) (hnext : ∀ a, Op.Within R (next a)) :
    Op.Within R (x >>= next) := Op.Within.bind h.trans hx hnext

theorem check (condition : Prop) [Decidable condition] (e : Err) : Op.Within R (throwIf condition e : DbOp Unit) :=
  Op.within_throwIf h.refl _ _

theorem finalizeMutation (mutation : PhysicalMutation) : Op.Within R (finalizeMutation t mutation) := by
  refine h.bind (h.note t fun _ => rfl) fun _ => Op.within_get_bind fun db => ?_
  refine Op.Within.ite (fun _ => ?_) (fun _ => Op.within_pure h.refl _) db
  refine h.bind (h.onLog _) fun lsn => h.bind (h.check _ _) fun _ => ?_
  exact h.bind (h.note t fun _ => rfl) fun _ => Op.within_pure h.refl _

theorem captureChange (mutation : PhysicalMutation) : Op.Within R (captureChange t f mutation) := by
  refine h.bind (h.note t fun _ => rfl) fun _ => h.bind (h.finalizeMutation t mutation) fun answer => ?_
  cases answer with
  | some lsn => exact h.bind (h.check _ _) fun _ => h.onCache _
  | none => exact h.onCache _

theorem finish (id : PageId) : Op.Within R (finish t id f) := by
  refine Op.within_get_bind fun db => h.bind (h.check _ _) (fun _ => Op.within_get_bind fun db => ?_) db
  dsimp only
  split
  · exact h.refl db
  · split
    · exact h.refl db
    · refine h.bind ?_ (fun _ => h.note t (f := erasedPending id) fun _ => rfl) db
      exact Op.Within.ite (fun _ => h.captureChange t f _) fun _ => Op.within_pure h.refl _

theorem changePinned (client : Option TransactionId) (id : PageId) (after : Payload) :
    Op.Within R (changePinned client id f after) := by
  have hunpin : Op.Within R (do let _ ← Database.onCache (Cache.unpinPage id true)) :=
    h.bind (h.onCache _) fun _ => Op.within_pure h.refl _
  cases client with
  | none => exact h.bind (h.onCache _) fun _ => hunpin
  | some t =>
    refine h.bind ?_ fun _ => h.bind (h.onCache _) fun _ => h.bind (h.finish t f id) fun _ => hunpin
    exact h.bind (h.check _ _) fun _ => h.bind (h.onCache _) fun _ => h.note t fun _ => rfl

omit f t in
theorem accessPage (client : Option TransactionId) (id : PageId) (f : Payload → Option Payload × α) :
    Op.Within R (accessPage client id f) := by
  refine h.bind (h.onCache _) fun fetched => ?_
  cases fetched with
  | none => exact Op.within_pure h.refl _
  | some frame =>
    refine Op.within_get_bind fun db => ?_
    split
    · exact h.bind (h.changePinned frame client id _) (fun _ => Op.within_pure h.refl _) db
    · exact h.bind (h.onCache _) (fun _ => Op.within_pure h.refl _) db

end Covers

/-! ## Allocating a page -/

def allocatedTo (page : PageId) (tx : Transaction) : Transaction :=
  { tx with allocatedPages := tx.allocatedPages ++ [page] }

/-- `Transaction::allocate_page`, with the page manager's `allocate_transactional_page` under a log sink. -/
def allocatePage (t : TransactionId) : DbOp PageId := do
  let db ← get
  let page ← (if (db.transactions t).logSink then do
      let id ← onPageManager PageManager.reservePage
      let _ ← onLog (LogManager.appendPageAllocate t id)
      onLog LogManager.flush
      onPageManager (PageManager.activateReservedPage id)
      return id
    else onPageManager PageManager.allocatePage)
  modifyTransaction t (allocatedTo page)
  return page

/-! ## Rolling back -/

def resolvedAt (index : Nat) (tx : Transaction) : Transaction := { tx with undoResolved := tx.undoResolved.set index true }

def resolveMutationForUndo (t : TransactionId) (index : Nat) (restoredPageLsn : Nat) : DbOp Unit := do
  let tx := (← get).transactions t
  match tx.pendingMutations[index]? with
  | none => throw (.logic "invalid transaction mutation for undo resolution")
  | some mutation =>
    throwIf (tx.resolved index = true) (.logic "mutation was already resolved for undo")
    throwIf (tx.unresolvedAfter index = true) (.logic "undo resolution must follow reverse mutation order")
    onCache (if index < tx.finalizedMutations then Cache.restorePageLsnAfterUndo mutation.pageId restoredPageLsn
      else Cache.resolvePendingMutation mutation.pageId restoredPageLsn)
    modifyTransaction t (resolvedAt index)

/-- The body of the first loop of `rollback_for_abort`. -/
def undoMutation (t : TransactionId) (index : Nat) : DbOp Unit := do
  let tx := (← get).transactions t
  if tx.resolved index then return
  match tx.pendingMutations[index]? with
  | none => throw .outOfBounds
  | some mutation =>
    onCache (applyBeforeImage mutation)
    resolveMutationForUndo t index mutation.previousPageLsn

/-- The body of the second loop. -/
def releasePage (page : PageId) : DbOp Unit := do
  if (← get).pages.isPageAllocated page then onPageManager (PageManager.deallocatePage page)

def requireNoUnfinishedCapture (t : TransactionId) : DbOp Unit := do
  throwIf (((← get).transactions t).hasUnfinishedCapture = true)
    (.logic "cannot abort unfinished physical mutation capture")

def rollbackForAbort (t : TransactionId) : DbOp Unit := do
  let tx := (← get).transactions t
  requireNoUnfinishedCapture t
  (List.range tx.pendingMutations.length).reverse.forM (undoMutation t)
  tx.allocatedPages.reverse.forM releasePage

end Database

end Ddb.Concurrency
