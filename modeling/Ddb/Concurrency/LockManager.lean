import Mathlib.Data.Finset.Basic
import Mathlib.Logic.Function.Basic

/-!
# The lock manager

`LockManager` keeps two tables, resource to holders and transaction to held resources, behind one mutex. Every public
call is one mutex section, except `lock`, whose loop gives the mutex up while it sleeps on the condition variable: it is
one section from the call to the first `changed_.wait`, and one more each time the wait ends. `lockPass` is one turn of
that loop; what a turn returns says whether the call is over or has gone to sleep.

The hash maps are functions into `Option`, so that an entry with an empty vector and a missing entry stay different.
-/

namespace Ddb.Concurrency

/-- `TransactionId`; smaller means older. -/
abbrev TransactionId := Nat

inductive TransactionState where
  | growing
  | shrinking
  | committed
  | aborted
  deriving DecidableEq, Repr

structure ResourceId where
  value : Nat
  deriving DecidableEq, Repr

inductive LockMode where
  | shared
  | exclusive
  deriving DecidableEq, Repr

structure Holder where
  transactionId : TransactionId
  mode : LockMode
  deriving DecidableEq, Repr

structure LockManager where
  table : ResourceId → Option (List Holder)
  held : TransactionId → Option (Finset ResourceId)

/-- What one turn of the loop in `LockManager::lock` ends with. -/
inductive LockPass where
  /-- The call returns this value. -/
  | returned (granted : Bool)
  /-- WAIT-DIE: the requester released everything and is `Aborted`; the call returns `false`. -/
  | died
  /-- The call sleeps in `changed_.wait`. -/
  | blocked
  deriving DecidableEq, Repr

namespace LockManager

def empty : LockManager where
  table := fun _ => none
  held := fun _ => none

def conflicts (requested held : LockMode) : Bool :=
  requested == .exclusive || held == .exclusive

/-- The holders of a resource, none when it has no entry. -/
def holders (lm : LockManager) (resource : ResourceId) : List Holder :=
  (lm.table resource).getD []

def compatible (lm : LockManager) (tx : TransactionId) (resource : ResourceId) (mode : LockMode) : Bool :=
  match lm.table resource with
  | none => true
  | some holders => !holders.any fun holder => holder.transactionId != tx && conflicts mode holder.mode

def requesterIsYoungerThanConflict (lm : LockManager) (tx : TransactionId) (resource : ResourceId)
    (mode : LockMode) : Bool :=
  match lm.table resource with
  | none => false
  | some holders => holders.any fun holder =>
      holder.transactionId != tx && conflicts mode holder.mode && decide (holder.transactionId < tx)

/-- `v.erase(remove_if(...))` for one resource, the entry going when nothing is left. -/
def dropHolder (tx : TransactionId) (entry : Option (List Holder)) : Option (List Holder) :=
  match entry with
  | none => none
  | some holders =>
    let rest := holders.filter fun holder => holder.transactionId != tx
    if rest.isEmpty then none else some rest

def releaseAll (lm : LockManager) (tx : TransactionId) : LockManager :=
  match lm.held tx with
  | none => lm
  | some resources =>
    { table := fun resource => if resource ∈ resources then dropHolder tx (lm.table resource) else lm.table resource
      held := Function.update lm.held tx none }

/-- The requester's own entry, `own` of the source. -/
def ownEntry (lm : LockManager) (tx : TransactionId) (resource : ResourceId) : Option Holder :=
  (lm.holders resource).find? fun holder => holder.transactionId == tx

/-- `own->mode = Exclusive` on the first entry of the requester. -/
def upgrade (tx : TransactionId) : List Holder → List Holder
  | [] => []
  | holder :: rest =>
    if holder.transactionId == tx then { holder with mode := .exclusive } :: rest else holder :: upgrade tx rest

/-- The grant branch of `lock`: an upgrade of the own entry, or a new entry in both tables. -/
def grant (lm : LockManager) (tx : TransactionId) (resource : ResourceId) (mode : LockMode) : LockManager :=
  match lm.ownEntry tx resource with
  | some _ => { lm with table := Function.update lm.table resource (some (upgrade tx (lm.holders resource))) }
  | none =>
    { table := Function.update lm.table resource (some (lm.holders resource ++ [⟨tx, mode⟩]))
      held := Function.update lm.held tx (some (insert resource ((lm.held tx).getD ∅))) }

/-- The two returns for a requester that already holds the resource. -/
def ownReturn (own : Option Holder) (mode : LockMode) : Option Bool :=
  match own with
  | none => none
  | some own =>
    if own.mode = mode then some true
    else if own.mode = .exclusive ∧ mode = .shared then some false
    else none

/-- One turn of the loop of `lock`, the requester being `Growing`. The reference `table_[resource]` creates the entry. -/
def lockPass (lm : LockManager) (tx : TransactionId) (resource : ResourceId) (mode : LockMode) :
    LockManager × LockPass :=
  let lm := { lm with table := Function.update lm.table resource (some (lm.holders resource)) }
  match ownReturn (lm.ownEntry tx resource) mode with
  | some answer => (lm, .returned answer)
  | none =>
    if lm.compatible tx resource mode then (lm.grant tx resource mode, .returned true)
    else if lm.requesterIsYoungerThanConflict tx resource mode then (lm.releaseAll tx, .died)
    else (lm, .blocked)

/-- The table updates of `unlock` once the own entry is found; `none` when the call returns `false`. -/
def unlockEntry (lm : LockManager) (tx : TransactionId) (resource : ResourceId) : Option LockManager :=
  match lm.table resource with
  | none => none
  | some holders =>
    if holders.any fun holder => holder.transactionId == tx then
      let rest := holders.eraseP fun holder => holder.transactionId == tx
      let table := Function.update lm.table resource (if rest.isEmpty then none else some rest)
      let held := match lm.held tx with
        | none => lm.held
        | some resources =>
          let left := resources.erase resource
          Function.update lm.held tx (if left = ∅ then none else some left)
      some { table := table, held := held }
    else none

end LockManager

/-! ## The lock manager among its callers

The transactions' states live in the `Transaction` objects; a request asleep in `changed_.wait` is a waiter. A waiter
stays one until its wait predicate holds and it runs its next section. -/

structure LockRequest where
  transactionId : TransactionId
  resource : ResourceId
  mode : LockMode
  deriving DecidableEq, Repr

structure LockSystem where
  locks : LockManager
  state : TransactionId → TransactionState
  waiters : List LockRequest

/-- One mutex section of the lock manager. -/
inductive LockStep where
  /-- `lock_shared` or `lock_exclusive`, up to its return or its first wait. -/
  | lock (request : LockRequest)
  /-- The wait of a sleeping request ends. -/
  | wake (request : LockRequest)
  | unlock (tx : TransactionId) (resource : ResourceId)
  | commit (tx : TransactionId)
  | abort (tx : TransactionId)
  deriving DecidableEq, Repr

namespace LockSystem

def initial : LockSystem where
  locks := .empty
  state := fun _ => .growing
  waiters := []

def setState (s : LockSystem) (tx : TransactionId) (state : TransactionState) : LockSystem :=
  { s with state := Function.update s.state tx state }

/-- One turn of the lock loop for a `Growing` requester, with its effect on the state and the waiters. -/
def lockSection (s : LockSystem) (request : LockRequest) : LockSystem :=
  match s.locks.lockPass request.transactionId request.resource request.mode with
  | (locks, .returned _) => { s with locks := locks }
  | (locks, .died) => { s with locks := locks }.setState request.transactionId .aborted
  | (locks, .blocked) => { s with locks := locks, waiters := s.waiters ++ [request] }

/-- The predicate of `changed_.wait`. -/
def waitOver (s : LockSystem) (request : LockRequest) : Bool :=
  s.state request.transactionId == .aborted ||
    s.locks.compatible request.transactionId request.resource request.mode

def isTerminal (state : TransactionState) : Bool := state == .committed || state == .aborted

def step (s : LockSystem) : LockStep → LockSystem
  | .lock request => if s.state request.transactionId = .growing then s.lockSection request else s
  | .wake request =>
    if request ∈ s.waiters ∧ s.waitOver request then
      let s := { s with waiters := s.waiters.erase request }
      if s.state request.transactionId = .growing then s.lockSection request else s
    else s
  | .unlock tx resource =>
    if s.state tx = .growing ∨ s.state tx = .shrinking then
      match s.locks.unlockEntry tx resource with
      | none => s
      | some locks => { s with locks := locks }.setState tx .shrinking
    else s
  | .commit tx =>
    if isTerminal (s.state tx) then s
    else { s with locks := s.locks.releaseAll tx }.setState tx .committed
  | .abort tx =>
    if isTerminal (s.state tx) then s
    else { s with locks := s.locks.releaseAll tx }.setState tx .aborted

end LockSystem

end Ddb.Concurrency
