import Ddb.Concurrency.Transaction
import Ddb.Lib.Run

/-!
# The coordinator, and any number of transactions

The coordinator runs the protocol of `commit` and `abort`: the log as its participant first, then the lock manager. Its
two calls, and `allocate_page`, consist of pieces that each touch the file, the log or the lock table once. The system
below runs the calls of any number of transactions piece by piece, so that other clients of the pool, the log and the lock
manager come in between, and so that it can be stopped in the middle of a call. What a call does when nobody comes in
between is the sequence of its pieces (`commit_eq`, `abort_eq`, `allocatePage_eq`).
-/

namespace Ddb.Concurrency

open Ddb.Lib Ddb.Storage Ddb.Buffer

namespace Database

def modifyLocking (step : LockStep) : DbOp Unit := modify fun db => { db with locking := db.locking.step step }

/-- `TransactionManager::begin`. -/
def beginTransaction : DbOp TransactionId := do
  let id := (← get).nextId
  modify fun db => { db with nextId := db.nextId + 1 }
  let _ ← onLog (LogManager.appendBegin id)
  modifyTransaction id fun _ => .fresh true
  return id

/-! ## The log as a participant -/

/-- `prepare_commit` up to its record. -/
def logCommit (t : TransactionId) : DbOp Unit := do
  throwIf (((← get).transactions t).hasUnfinalizedMutations = true)
    (.wal "cannot commit transaction with unlogged mutations")
  let _ ← onLog (LogManager.appendCommit t)

def prepareCommit (t : TransactionId) : DbOp Unit := do
  logCommit t
  onLog LogManager.flush

/-- `prepare_abort` after the rollback, up to its record. -/
def logAbort (t : TransactionId) : DbOp Unit := do
  throwIf (((← get).transactions t).hasUnresolvedMutationsForAbort = true)
    (.wal "cannot abort transaction with unresolved physical mutations")
  let _ ← onLog (LogManager.appendAbort t)

def prepareAbort (t : TransactionId) : DbOp Unit := do
  rollbackForAbort t
  logAbort t
  onLog LogManager.flush

/-! ## The coordinator -/

/-- `commit` after the participant. -/
def endCommit (t : TransactionId) : DbOp Unit := do
  throwIf (((← get).transactions t).hasUnfinalizedMutations = true)
    (.logic "cannot commit transaction with unfinalized physical mutations")
  modifyLocking (.commit t)

def commit (t : TransactionId) : DbOp Unit := do
  if LockSystem.isTerminal ((← get).state t) then return
  prepareCommit t
  endCommit t

/-- `abort` after the participant. -/
def endAbort (t : TransactionId) : DbOp Unit := do
  throwIf (((← get).transactions t).hasUnresolvedMutationsForAbort = true)
    (.logic "cannot abort transaction with unresolved physical mutations")
  modifyLocking (.abort t)

def abort (t : TransactionId) : DbOp Unit := do
  if LockSystem.isTerminal ((← get).state t) then return
  prepareAbort t
  endAbort t

end Database

/-! ## The pieces of a call -/

inductive Action where
  | checkCapture
  | undo (index : Nat)
  | release (page : PageId)
  | logAbort
  | logCommit
  | logAllocate (page : PageId)
  | flushLog
  | activate (page : PageId)
  | endAbort
  | endCommit
  deriving DecidableEq

namespace Database

def perform (t : TransactionId) : Action → DbOp Unit
  | .checkCapture => requireNoUnfinishedCapture t
  | .undo index => undoMutation t index
  | .release page => releasePage page
  | .logAbort => Database.logAbort t
  | .logCommit => Database.logCommit t
  | .logAllocate page => do
    let _ ← onLog (LogManager.appendPageAllocate t page)
  | .flushLog => onLog LogManager.flush
  | .activate page => do
    onPageManager (PageManager.activateReservedPage page)
    modifyTransaction t (allocatedTo page)
  | .endAbort => Database.endAbort t
  | .endCommit => Database.endCommit t

def commitCall : List Action := [.logCommit, .flushLog, .endCommit]

/-- The pieces of `rollback_for_abort`. -/
def rollbackCall (tx : Transaction) : List Action :=
  .checkCapture :: ((List.range tx.pendingMutations.length).reverse.map .undo ++ tx.allocatedPages.reverse.map .release)

def abortCall (tx : Transaction) : List Action := rollbackCall tx ++ [.logAbort, .flushLog, .endAbort]

/-- What follows the reservation of the page. -/
def allocateCall (page : PageId) : List Action := [.logAllocate page, .flushLog, .activate page]

end Database

/-! ## The system -/

structure System where
  db : Database
  /-- The transactions that `begin` has returned. -/
  begun : TransactionId → Bool
  /-- What is left of the call a transaction is in. -/
  calls : TransactionId → List Action

inductive Step where
  | begin
  /-- A page access of a transaction, or of a client that logs nothing. -/
  | access (client : Option TransactionId) (id : PageId) (change : Payload → Option Payload)
  | allocate (client : Option TransactionId)
  | commit (t : TransactionId)
  | abort (t : TransactionId)
  /-- The next piece of the call a transaction is in. -/
  | resume (t : TransactionId)
  | lock (request : LockRequest)
  | wake (request : LockRequest)
  | unlock (t : TransactionId) (resource : ResourceId)
  /-- `fetch_page` and a clean `unpin_page` of a reader. -/
  | pin (id : PageId)
  | unpin (id : PageId)
  | flushPage (id : PageId)
  | flushAllPages
  | deletePage (id : PageId)
  | flushLog

namespace System

/-- A client may call on behalf of this transaction. -/
def idle (s : System) (t : TransactionId) : Bool := s.begun t && (s.calls t).isEmpty

/-- A call that is over when it returns or throws. -/
def run {α : Type} (s : System) (x : DbOp α) : System := { s with db := (x.run s.db).2 }

def enter (s : System) (t : TransactionId) (call : List Action) : System :=
  { s with calls := Function.update s.calls t call }

def begin (s : System) : System :=
  match Database.beginTransaction.run s.db with
  | (.ok id, db) => { s with db := db, begun := Function.update s.begun id true }
  | (.error _, db) => { s with db := db }

/-- `allocate_page`: the reservation now, the rest piece by piece. A client without a transaction allocates at once. -/
def allocate (s : System) : Option TransactionId → System
  | none => s.run (Database.onPageManager PageManager.allocatePage)
  | some t =>
    match (Database.onPageManager PageManager.reservePage).run s.db with
    | (.ok page, db) => ({ s with db := db }).enter t (Database.allocateCall page)
    | (.error _, db) => { s with db := db }

/-- One piece; an exception ends the call. -/
def resume (s : System) (t : TransactionId) : System :=
  match s.calls t with
  | [] => s
  | action :: rest =>
    match (Database.perform t action).run s.db with
    | (.ok _, db) => ({ s with db := db }).enter t rest
    | (.error _, db) => ({ s with db := db }).enter t []

def step (s : System) : Step → System
  | .begin => s.begin
  | .access client id change =>
    if client.all s.idle then s.run (Database.accessPage client id fun payload => (change payload, ())) else s
  | .allocate client => if client.all s.idle then s.allocate client else s
  | .commit t =>
    if s.idle t && !LockSystem.isTerminal (s.db.state t) then s.enter t Database.commitCall else s
  | .abort t =>
    if s.idle t && !LockSystem.isTerminal (s.db.state t) then s.enter t (Database.abortCall (s.db.transactions t)) else s
  | .resume t => s.resume t
  | .lock request => if s.idle request.transactionId then s.run (Database.modifyLocking (.lock request)) else s
  | .wake request => s.run (Database.modifyLocking (.wake request))
  | .unlock t resource => if s.idle t then s.run (Database.modifyLocking (.unlock t resource)) else s
  | .pin id => s.run (Database.onCache (Cache.fetchPage id))
  | .unpin id => s.run (Database.onCache (Cache.unpinPage id false))
  | .flushPage id => s.run (Database.onCache (Cache.flushPage id))
  | .flushAllPages => s.run (Database.onCache Cache.flushAllPages)
  | .deletePage id => s.run (Database.onCache (Cache.deletePage id))
  | .flushLog => s.run (Database.onLog LogManager.flush)

/-- A database on an open file and an open log, before the first transaction: an empty pool, no locks. -/
def start (pages : PageManager) (capacity : Nat) (log : LogManager) : System where
  db := { pages := pages, pool := .create capacity, handed := [], log := log, locking := .initial
          transactions := fun _ => .fresh true, nextId := 1 }
  begun := fun _ => false
  calls := fun _ => []

end System

/-! ## A call is the sequence of its pieces -/

namespace Database

variable {t : TransactionId}

theorem abort_eq (db : Database) : (abort t).run db =
    (if LockSystem.isTerminal (db.state t) then pure ()
      else (abortCall (db.transactions t)).forM (perform t) : DbOp Unit).run db := by
  rw [abort, Op.get_bind]
  split
  · rfl
  · simp only [prepareAbort, rollbackForAbort, abortCall, rollbackCall, List.cons_append, List.forM_eq_forM,
      List.forM_append, List.forM_map, List.forM_cons, List.forM_nil, perform, bind_assoc, Op.get_bind, bind_pure_unit]

theorem allocatePage_eq (db : Database) (h : (db.transactions t).logSink = true) : (allocatePage t).run db = (do
    let page ← onPageManager PageManager.reservePage
    (allocateCall page).forM (perform t)
    return page : DbOp PageId).run db := by
  rw [allocatePage, Op.get_bind, if_pos h]
  simp only [allocateCall, List.forM_eq_forM, List.forM_cons, List.forM_nil, perform, bind_assoc, pure_bind]

end Database

end Ddb.Concurrency
