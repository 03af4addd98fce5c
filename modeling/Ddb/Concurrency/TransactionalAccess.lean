import Ddb.Concurrency.WaitDie
import Ddb.Execution.IndexedTable

/-!
# The transactional wrappers

`TransactionalTableHeap` and `TransactionalBPlusTree` ask the lock manager before each call: a tree is locked by its metadata
page, a heap by its metadata page for an insertion and by the page of the record otherwise. Where the lock is denied the
wrapper answers as if nothing were found or done.

A transaction on its own is denied a lock in one case only: it asks for a shared lock where it has the exclusive one. As long
as it does not, it reads what it wrote.
-/

namespace Ddb.Concurrency

open Ddb.Lib Ddb.Storage Ddb.Index Ddb.Execution

/-- The constructor of `ResourceId` from a page id. -/
def ResourceId.ofPage (id : PageId) : ResourceId := ⟨id.index⟩

namespace LockSystem

/-- What `lock` returns, nothing if it goes to sleep. -/
def answer (s : LockSystem) (request : LockRequest) : Option Bool :=
  if s.state request.transactionId = .growing then
    match (s.locks.lockPass request.transactionId request.resource request.mode).2 with
    | .returned granted => some granted
    | .died => some false
    | .blocked => none
  else some false

/-- The transaction is growing, and nobody else has a lock. -/
structure AloneWith (s : LockSystem) (t : TransactionId) : Prop where
  growing : s.state t = .growing
  own : ∀ r, ∀ holder ∈ s.locks.holders r, holder.transactionId = t

end LockSystem

/-- `holds` of the lock manager. -/
def LockManager.holds (lm : LockManager) (tx : TransactionId) (resource : ResourceId) (mode : LockMode) : Bool :=
  (lm.holders resource).any fun holder => holder.transactionId == tx && holder.mode == mode

/-! ## The wrappers -/

inductive WrapperCall where
  | get (r : RecordId)
  | insert (tuple : Tuple)
  | erase (r : RecordId)
  | getValue (key : KeyType)
  | insertKey (key : KeyType) (value : RecordId)
  | removeKey (key : KeyType)

namespace WrapperCall

/-- The call that is wrapped. -/
def inner : WrapperCall → TableCall
  | get r => .heap (.get r)
  | insert tuple => .heap (.insert tuple)
  | erase r => .heap (.erase r)
  | getValue key => .tree (.getValue key)
  | insertKey key value => .tree (.insert key value)
  | removeKey key => .tree (.remove key)

/-- Writes are made for the transaction, reads for none. -/
def client (t : TransactionId) : WrapperCall → Option TransactionId
  | get _ | getValue _ => none
  | insert _ | erase _ | insertKey _ _ | removeKey _ => some t

def mode : WrapperCall → LockMode
  | get _ | getValue _ => .shared
  | insert _ | erase _ | insertKey _ _ | removeKey _ => .exclusive

/-- What is returned without the lock. -/
def denied : WrapperCall → TableAnswer
  | get _ => .heap (.got none)
  | insert _ => .heap (.inserted none)
  | erase _ => .heap (.erased false)
  | getValue _ => .tree (.found none)
  | insertKey _ _ => .tree (.inserted false)
  | removeKey _ => .tree (.removed false)

end WrapperCall

end Ddb.Concurrency

namespace Ddb.Execution.IndexedTable

open Ddb.Lib Ddb.Storage Ddb.Index Ddb.Concurrency

/-- The page a wrapper locks. -/
def lockedPage (x : IndexedTable) : WrapperCall → PageId
  | .get r | .erase r => r.pageId
  | .insert _ => x.heap.metadata
  | .getValue _ | .insertKey _ _ | .removeKey _ => x.tree.metadata

def request (x : IndexedTable) (t : TransactionId) (c : WrapperCall) : LockRequest :=
  ⟨t, .ofPage (x.lockedPage c), c.mode⟩

/-- The state after the lock request. -/
def locked (x : IndexedTable) (t : TransactionId) (c : WrapperCall) : IndexedTable :=
  { x with db := { x.db with locking := x.db.locking.step (.lock (x.request t c)) } }

/-- One call of a wrapper; no answer if it sleeps in its lock request. -/
def wrapped (x : IndexedTable) (t : TransactionId) (c : WrapperCall) : Option (Except Err TableAnswer) × IndexedTable :=
  match x.db.locking.answer (x.request t c) with
  | some true =>
    let result := (x.locked t c).call (c.client t) c.inner
    (some result.1, result.2)
  | some false => (some (.ok c.denied), x.locked t c)
  | none => (none, x.locked t c)

def wrappedAnswers (t : TransactionId) : IndexedTable → List WrapperCall → List (Option (Except Err TableAnswer))
  | _, [] => []
  | x, c :: rest => (x.wrapped t c).1 :: wrappedAnswers t (x.wrapped t c).2 rest

/-- A shared lock is not asked for by a transaction that has the exclusive one. -/
def Unshadowed (t : TransactionId) (x : IndexedTable) (c : WrapperCall) : Prop :=
  c.mode = .shared → x.db.locking.locks.holds t (.ofPage (x.lockedPage c)) .exclusive = false

/-- No page access and no allocation of the wrapped call fails. -/
def WrappedSmooth (t : TransactionId) (x : IndexedTable) (c : WrapperCall) : Prop :=
  x.db.locking.answer (x.request t c) = some true → (x.locked t c).CallSmooth (c.client t) c.inner

instance (t : TransactionId) (x : IndexedTable) (c : WrapperCall) : Decidable (x.Unshadowed t c) :=
  inferInstanceAs (Decidable (_ → _))

instance (t : TransactionId) (x : IndexedTable) (c : WrapperCall) : Decidable (x.WrappedSmooth t c) :=
  inferInstanceAs (Decidable (_ → _))

end Ddb.Execution.IndexedTable

/-! ## One transaction on its own -/

namespace Ddb.Concurrency

open Ddb.Lib Ddb.Storage Ddb.Index Ddb.Execution

variable {lm : LockManager} {s : LockSystem} {t : TransactionId} {r : ResourceId} {mode : LockMode}

theorem LockManager.compatible_of_own (h : ∀ holder ∈ lm.holders r, holder.transactionId = t) :
    lm.compatible t r mode = true := by
  rw [compatible]
  cases htable : lm.table r with
  | none => rfl
  | some holders =>
    rw [LockManager.holders, htable, Option.getD_some] at h
    simp only [Bool.not_eq_true', List.any_eq_false]
    intro holder hholder
    simp [h holder hholder]

/-- The lock is granted unless it is a shared one on what the transaction has exclusively. -/
theorem LockManager.lockPass_of_own (h : ∀ r, ∀ holder ∈ lm.holders r, holder.transactionId = t)
    (hfree : mode = .shared → lm.holds t r .exclusive = false) :
    ∃ next, lm.lockPass t r mode = (next, .returned true) ∧ ∀ r, ∀ holder ∈ next.holders r, holder.transactionId = t := by
  obtain ⟨touched, htouched⟩ : ∃ touched : LockManager,
    touched = { lm with table := Function.update lm.table r (some (lm.holders r)) } := ⟨_, rfl⟩
  have hholders : ∀ r, touched.holders r = lm.holders r := fun r => htouched ▸ holders_touch r
  have hown : ∀ r, ∀ holder ∈ touched.holders r, holder.transactionId = t := fun r => hholders r ▸ h r
  rw [lockPass, ← htouched]
  cases hreturn : ownReturn (touched.ownEntry t r) mode with
  | none =>
    rw [if_pos (compatible_of_own (hown r))]
    refine ⟨_, rfl, fun r' holder hholder => ?_⟩
    rcases mem_grant (fun own heq => mode_of_ownReturn_none (heq ▸ hreturn)) hholder with hold | ⟨-, rfl⟩
    · exact hown r' holder hold
    · rfl
  | some answer =>
    refine ⟨touched, ?_, hown⟩
    cases hentry : touched.ownEntry t r with
    | none =>
      rw [hentry] at hreturn
      cases hreturn
    | some own =>
      have hmem : own ∈ lm.holders r := hholders r ▸ List.mem_of_find?_eq_some hentry
      rw [hentry, ownReturn] at hreturn
      split at hreturn
      · obtain rfl := Option.some.inj hreturn
        rfl
      · split at hreturn
        · rename_i hmode
          have hnot := List.any_eq_false.mp (hfree hmode.2) own hmem
          simp [hmode.1, h r own hmem] at hnot
        · cases hreturn

namespace LockSystem

theorem AloneWith.lock (h : s.AloneWith t) (hfree : mode = .shared → s.locks.holds t r .exclusive = false) :
    s.answer ⟨t, r, mode⟩ = some true ∧ (s.step (.lock ⟨t, r, mode⟩)).AloneWith t := by
  obtain ⟨next, hpass, hown⟩ := LockManager.lockPass_of_own h.own hfree
  constructor
  · rw [answer, if_pos h.growing, hpass]
  · rw [step, if_pos h.growing, lockSection, hpass]
    exact ⟨h.growing, hown⟩

end LockSystem

namespace Database

/-- Nothing that is done to pages touches a lock. -/
theorem covers_locking : Covers fun db db' => db'.locking = db.locking :=
  ⟨fun _ => rfl, fun _ _ _ hab hbc => hbc.trans hab, fun _ _ => rfl, fun _ _ => rfl, fun _ _ _ _ => rfl⟩

theorem allocateFor_locking (client : Option TransactionId) :
    Op.Within (fun db db' => db'.locking = db.locking) (allocateFor client) := by
  have h := covers_locking
  cases client with
  | none => exact h.onCache _
  | some t =>
    refine Op.within_get_bind fun db => h.bind (Op.Within.ite (fun _ => ?_) fun _ => h.onCache _)
      (fun page => h.bind (fun _ => rfl) fun _ => Op.within_pure h.refl _) db
    refine h.bind (h.onCache _) fun id => h.bind (h.onLog _) fun _ => h.bind (h.onLog _) fun _ => ?_
    exact h.bind (h.onCache _) fun _ => Op.within_pure h.refl _

theorem run_locking {α : Type} (client : Option TransactionId) (prog : PageProg PageId Payload Err α) (db : Database) :
    (prog.run (pager client) db).2.locking = db.locking := by
  refine PageProg.run_within covers_locking.refl covers_locking.trans (fun id change db => ?_) (fun db => ?_) prog db
  · exact covers_locking.accessPage client id (fun payload => (change payload, payload)) db
  · exact allocateFor_locking client db

end Database

end Ddb.Concurrency

namespace Ddb.Execution.IndexedTable

open Ddb.Lib Ddb.Storage Ddb.Index Ddb.Concurrency

variable {m₀ : Memory PageId Payload} {schema : Schema} {contents : Contents} {x : IndexedTable} {t : TransactionId}
  {c : WrapperCall}

theorem call_locking (x : IndexedTable) (client : Option TransactionId) (c : TableCall) :
    (x.call client c).2.db.locking = x.db.locking := by
  cases c with
  | heap c => exact Database.run_locking client (c.method.run x.heap) x.db
  | tree c => exact Database.run_locking client (c.method.run x.tree) x.db

/-- A wrapped call whose lock is not in its own way is the call that is wrapped. -/
theorem Holds.wrapped (h : x.Holds m₀ schema contents) (halone : x.db.locking.AloneWith t) (hsmooth : x.WrappedSmooth t c)
    (hfree : x.Unshadowed t c) : ∃ answer contents', (x.wrapped t c).1 = some answer ∧
      contents.Allows schema (ForeignPage m₀) contents' answer c.inner ∧ (x.wrapped t c).2.Holds m₀ schema contents' ∧
      (x.wrapped t c).2.db.locking.AloneWith t := by
  obtain ⟨hanswer, hnext⟩ := halone.lock hfree
  have hlocked : (x.locked t c).Holds m₀ schema contents := ⟨⟨h.1.inv.of_locking _, h.1.clean⟩, h.2⟩
  obtain ⟨contents', hallows, hholds⟩ := hlocked.call (hsmooth hanswer)
  rw [IndexedTable.wrapped, request, hanswer]
  refine ⟨_, contents', rfl, hallows, hholds, ?_⟩
  rw [call_locking]
  exact hnext

/-- A transaction that is alone reads what it has written, as long as it never asks for a shared lock on what it has locked
exclusively. -/
theorem Holds.reads_own_writes (h : x.Holds m₀ schema contents) (halone : x.db.locking.AloneWith t) (calls : List WrapperCall)
    (hsmooth : EachStep (fun x c => (x.wrapped t c).2) (WrappedSmooth t) x calls)
    (hfree : EachStep (fun x c => (x.wrapped t c).2) (Unshadowed t) x calls) :
    ∃ answers contents', x.wrappedAnswers t calls = answers.map some ∧
      contents.Runs schema (ForeignPage m₀) (calls.map WrapperCall.inner) answers contents' := by
  induction calls generalizing x contents with
  | nil => exact ⟨[], contents, rfl, .nil contents⟩
  | cons c rest ih =>
    obtain ⟨answer, between, hanswer, hallows, hholds, hlocking⟩ := h.wrapped halone hsmooth.1 hfree.1
    obtain ⟨answers, contents', hanswers, hruns⟩ := ih hholds hlocking hsmooth.2 hfree.2
    exact ⟨answer :: answers, contents', by rw [wrappedAnswers, hanswer, hanswers, List.map_cons], .cons hallows hruns⟩

/-- A heap and a tree in a database in which one transaction has begun. -/
def ledgerObjects : (Except Err (TableHeap × BPlusTree) × Unit) × Database :=
  ((createBoth none ledgerSchema ⟨2, 2⟩).run ()).run (Database.pager none) ledgerDb

theorem exists_ledgerObjects {P : IndexedTable → Prop} [DecidablePred P]
    (h : (ledgerObjects.1.1.toOption.any fun objects => decide (P ⟨ledgerObjects.2, objects.1, objects.2⟩)) = true) :
    ∃ heap tree db, ledgerObjects = ((.ok (heap, tree), ()), db) ∧ P ⟨db, heap, tree⟩ := by
  rcases hobjects : ledgerObjects with ⟨⟨outcome, _⟩, db⟩
  rw [hobjects] at h
  cases outcome with
  | error e => cases h
  | ok objects => exact ⟨objects.1, objects.2, db, rfl, of_decide_eq_true h⟩

/-- Each structure is read before it is written, a row also after its insertion. -/
def ownReads : List WrapperCall :=
  [.getValue 5, .insert ⟨[.int64 7, .string [65, 66]]⟩, .get ⟨.ofIndex 3, 0⟩, .insertKey 5 ⟨.ofIndex 3, 0⟩, .removeKey 5,
    .erase ⟨.ofIndex 3, 0⟩]

theorem ownReads_answered : ∃ heap tree db answers contents, ledgerObjects = ((.ok (heap, tree), ()), db) ∧
    wrappedAnswers 1 ⟨db, heap, tree⟩ ownReads = answers.map some ∧ Contents.Runs ledgerSchema (ForeignPage ledgerDb.memory)
      ⟨[], fun _ => none⟩ (ownReads.map WrapperCall.inner) answers contents := by
  obtain ⟨heap, tree, db, hobjects, hsmooth, hfree⟩ := @exists_ledgerObjects (fun x =>
    EachStep (fun x c => (x.wrapped 1 c).2) (WrappedSmooth 1) x ownReads ∧
      EachStep (fun x c => (x.wrapped 1 c).2) (Unshadowed 1) x ownReads) _ (by decide +kernel)
  have hcolumns : ledgerSchema.columns ≠ [] := by decide
  have haccepted : BPlusTreeConfig.Accepted ⟨2, 2⟩ := ⟨by decide, by decide, by decide, by decide⟩
  have hsmooth₀ : ((createBoth none ledgerSchema ⟨2, 2⟩).run ()).Smooth (Database.pager none) ledgerDb := by decide +kernel
  obtain ⟨heap', tree', db', hcreated, hholds⟩ := holds_created (Database.ready_exec (System.launch_new 3).working [.begin])
    hcolumns haccepted hsmooth₀
  obtain ⟨hboth, rfl⟩ := Prod.mk.inj (hobjects.symm.trans hcreated)
  obtain ⟨rfl, rfl⟩ := Prod.mk.inj (Except.ok.inj (Prod.mk.inj hboth).1)
  have hlocking : db.locking = .initial :=
    (congrArg (fun created => Database.locking created.2) hobjects).symm.trans (Database.run_locking none _ ledgerDb)
  have halone : db.locking.AloneWith 1 := by
    rw [hlocking]
    exact ⟨rfl, fun r holder hholder => absurd hholder List.not_mem_nil⟩
  obtain ⟨answers, contents, hanswers, hruns⟩ := hholds.reads_own_writes halone ownReads hsmooth hfree
  exact ⟨heap, tree, db, answers, contents, hobjects, hanswers, hruns⟩

/-- The tree is locked exclusively for the insertion, and the shared lock for the lookup is denied. -/
theorem ownWrite_not_read : ∃ heap tree db, ledgerObjects = ((.ok (heap, tree), ()), db) ∧
    wrappedAnswers 1 ⟨db, heap, tree⟩ [.insertKey 5 ⟨.ofIndex 9, 0⟩, .getValue 5] =
      [some (.ok (.tree (.inserted true))), some (.ok (.tree (.found none)))] :=
  exists_ledgerObjects (P := fun x => x.wrappedAnswers 1 [.insertKey 5 ⟨.ofIndex 9, 0⟩, .getValue 5] =
    [some (.ok (.tree (.inserted true))), some (.ok (.tree (.found none)))]) (by decide +kernel)

end Ddb.Execution.IndexedTable
