import Ddb.Concurrency.TransactionCoordinator

/-!
# What each piece does

For every operation of the system one statement of all it can do to the pool, the log and the transactions, whether it
returns or throws, and whatever the files answer. The invariants of the modules that follow are derived from these and
never from the operations themselves.

A mutation whose log record could not be written leaves its capture open for good. Such a transaction can neither commit
nor abort any more, so little is said about it beyond that.
-/

namespace Ddb.Concurrency

open Ddb.Lib Ddb.Storage Ddb.Buffer

namespace Transaction

variable {tx : Transaction} {id : PageId}

/-- A transaction between two of its operations. -/
structure Inv (tx : Transaction) : Prop where
  sink : tx.logSink = true
  length : tx.undoResolved.length = tx.pendingMutations.length
  /-- A capture that was left open lost its before image. -/
  stale : ∀ id entry, tx.context.pending.find? (fun entry => entry.id = id) = some entry → entry.before = none
  finalized : tx.hasUnfinishedCapture = true ∨ tx.finalizedMutations = tx.pendingMutations.length

theorem inv_fresh : (fresh true).Inv := ⟨rfl, rfl, by simp [fresh], Or.inr rfl⟩

/-- One more mutation, logged. -/
def captured (mutation : PhysicalMutation) (tx : Transaction) : Transaction where
  logSink := tx.logSink
  context := ⟨tx.context.pending, tx.context.nextSequence + 1⟩
  pendingMutations := tx.pendingMutations ++ [mutation]
  undoResolved := tx.undoResolved ++ [false]
  finalizedMutations := tx.finalizedMutations + 1
  allocatedPages := tx.allocatedPages

end Transaction

namespace Database

variable {db db' : Database} {t : TransactionId} {id : PageId} {α : Type} {outcome : Except Err α} {pending : List Pending}

theorem onCache_run (x : CacheOp α) (db : Database) :
    (onCache x).run db = ((x.run db.cache).1, db.withCache (x.run db.cache).2) := rfl

theorem onCache_of_run {x : CacheOp α} {c : Cache} (h : x.run db.cache = (outcome, c)) :
    (onCache x).run db = (outcome, db.withCache c) := by
  rw [onCache_run, h]

theorem cache_withCache {c : Cache} (h : c.walDurability = db.cache.walDurability) : (db.withCache c).cache = c := by
  obtain ⟨pages, pool, wal, handed⟩ := c
  obtain rfl : wal = some db.log.durableLsn := h
  rfl

@[simp] theorem withCache_transactions (db : Database) (c : Cache) :
    (db.withCache c).transactions = db.transactions := rfl

structure Inv (db : Database) : Prop where
  cache : db.cache.Inv none
  settled : db.cache.Settled
  log : db.log.WellFormed
  transactions : ∀ t, (db.transactions t).Inv

/-- Nothing but the pool has moved. -/
structure Still (db db' : Database) : Prop where
  log : db'.log = db.log
  transactions : db'.transactions = db.transactions
  locking : db'.locking = db.locking
  nextId : db'.nextId = db.nextId

theorem still_withCache (db : Database) (c : Cache) : Still db (db.withCache c) := ⟨rfl, rfl, rfl, rfl⟩

theorem Still.of_withCache {c : Cache} (h : Still (db.withCache c) db') : Still db db' :=
  ⟨h.log, h.transactions, h.locking, h.nextId⟩

def withLog (db : Database) (log : LogManager) : Database := { db with log := log }

theorem onLog_of_run {x : LogOp α} {log : LogManager} (h : x.run db.log = (outcome, log)) :
    (onLog x).run db = (outcome, db.withLog log) := by
  change ((x.run db.log).1, db.withLog (x.run db.log).2) = _
  rw [h]

@[simp] theorem setTransaction_self (db : Database) (t : TransactionId) (tx : Transaction) :
    (db.setTransaction t tx).transactions t = tx := Function.update_self _ _ _

@[simp] theorem setTransaction_idem (db : Database) (t : TransactionId) (tx tx' : Transaction) :
    (db.setTransaction t tx).setTransaction t tx' = db.setTransaction t tx' := by
  simp only [setTransaction, Function.update_idem]

theorem setTransaction_withLog (db : Database) (t : TransactionId) (tx : Transaction) (log : LogManager) :
    (db.withLog log).setTransaction t tx = (db.setTransaction t tx).withLog log := rfl

@[simp] theorem withLog_transactions (db : Database) (log : LogManager) :
    (db.withLog log).transactions = db.transactions := rfl

theorem cache_withLog (db : Database) (log : LogManager) :
    (db.withLog log).cache = { db.cache with walDurability := some log.durableLsn } := rfl

/-- The pool, and what the transaction and the log know, but no lock and no other transaction. -/
structure Apart (db db' : Database) (t : TransactionId) (tx : Transaction) : Prop where
  transactions : db'.transactions = Function.update db.transactions t tx
  locking : db'.locking = db.locking
  nextId : db'.nextId = db.nextId

theorem view_id (h : db.Inv) {page : Page} (hview : db.cache.view id = some page) :
    page.id = id ∧ id.index < db.pages.pageCount := by
  cases hf : db.pool.pageTable id with
  | some f =>
    rw [Cache.view_resident hf] at hview
    obtain rfl := Option.some.inj hview
    exact ⟨(h.cache.pool.table_frame id f hf).2, h.cache.resident id f hf⟩
  | none =>
    rw [Cache.view_absent hf] at hview
    obtain ⟨hindex, -, hid⟩ := PageManager.slot_eq_some hview
    exact ⟨hid, hindex⟩

/-! ## A page access -/

/-- The ends of a page access by a client that logs under its transaction, or by one that does not log. -/
inductive Accessed {α : Type} (db : Database) (client : Option TransactionId) (id : PageId)
    (f : Payload → Option Payload × α) : Except Err (Option α) × Database → Prop where
  /-- The page was not pinned, or its image could not be taken. -/
  | failed {outcome : Except Err (Option α)} {db' : Database} (houtcome : ∀ a, outcome ≠ .ok (some a))
      (hquiet : db.cache.Quiet db'.cache) (hstill : Still db db') : Accessed db client id f (outcome, db')
  | read {old : Page} {a : α} {db' : Database} (hview : db.cache.view id = some old) (hf : f old.payload = (none, a))
      (hquiet : db.cache.Quiet db'.cache) (hstill : Still db db') : Accessed db client id f (.ok (some a), db')
  /-- A write without a log record: the client does not log, or it wrote what was there. -/
  | wrote {old : Page} {after : Payload} {a : α} {db' : Database} (hview : db.cache.view id = some old)
      (hf : f old.payload = (some after, a)) (hclient : client.isSome = true → after = old.payload)
      (halloc : db.pages.isPageAllocated id = true)
      (hwrote : db.cache.Rewrote db'.cache id (old.withPayload after)) (hstill : Still db db') :
      Accessed db client id f (.ok (some a), db')
  | captured {t : TransactionId} {old : Page} {after : Payload} {a : α} {mutation : PhysicalMutation}
      {bytes : Bytes} {db' : Database} (hclient : client = some t) (hview : db.cache.view id = some old)
      (hf : f old.payload = (some after, a)) (hchanged : after ≠ old.payload)
      (halloc : db.pages.isPageAllocated id = true)
      (hmutation : mutation = ⟨id, .payloadWrite, (db.transactions t).context.nextSequence, old.payload, after, old.lsn⟩)
      (hencode : LogManager.encodePhysicalMutation mutation = .ok bytes)
      (hwrote : db.cache.Rewrote db'.cache id ⟨id, db.log.nextLsn, after⟩)
      (hlog : db.log.Appended db'.log [⟨db.log.nextLsn, t, .physicalMutation, bytes⟩])
      (hrest : Apart db db' t ((db.transactions t).captured mutation)) : Accessed db client id f (.ok (some a), db')
  /-- The capture was left open. -/
  | spoiled {t : TransactionId} {e : Err} {old : Page} {after : Payload} {a : α} {tx : Transaction} {db' : Database}
      (hclient : client = some t) (hview : db.cache.view id = some old) (hf : f old.payload = (some after, a))
      (halloc : db.pages.isPageAllocated id = true) (hmoved : db.cache.Moved db'.cache id)
      (hlog : db'.log = db.log ∨ db.log.Appended db'.log [])
      (hreason : (db.transactions t).hasUnfinishedCapture = true ∨ ¬ db.log.Healthy)
      (hopen : tx.hasUnfinishedCapture = true) (hrest : Apart db db' t tx) : Accessed db client id f (.error e, db')

/-! The open captures of a transaction: what `watch`, the move and the erasure do to the list. -/

theorem moveBefore_append (h : ∀ entry ∈ pending, ¬ entry.id = id) {new : Pending} (hnew : new.id = id) :
    moveBefore id (pending ++ [new]) = pending ++ [{ new with before := none }] := by
  induction pending with
  | nil => simp [moveBefore, hnew]
  | cons entry rest ih =>
    obtain ⟨hentry, hrest⟩ := List.forall_mem_cons.mp h
    rw [List.cons_append, moveBefore, if_neg hentry, ih hrest, List.cons_append]

theorem eraseP_append (h : ∀ entry ∈ pending, ¬ entry.id = id) {new : Pending} (hnew : new.id = id) :
    (pending ++ [new]).eraseP (fun entry => entry.id = id) = pending := by
  rw [List.eraseP_append_right _ (by simpa using h), List.eraseP_cons_of_pos (by simpa using hnew), List.append_nil]

theorem watch_pinned (h : db.cache.Inv none) (halloc : db.pages.isPageAllocated id = true) {f : FrameId}
    (hf : db.pool.pageTable id = some f) (hpin : (db.pool.frames f).pinCount ≠ 0) :
    (∃ e, (watch t id).run db = (.error e, db)) ∨
      (watch t id).run db = (.ok (), db.setTransaction t (watched id (db.pool.frames f).page (db.transactions t))) := by
  have hvalid := (PageManager.isPageAllocated_iff.mp halloc).1
  rw [watch, Op.throwIf_bind_neg (by simp [hvalid])]
  rcases Cache.image_pinned h halloc hf hpin with ⟨e, he⟩ | hok
  · exact Or.inl ⟨e, Op.bind_error (onCache_of_run he)⟩
  · exact Or.inr (Op.bind_ok (onCache_of_run hok))

/-- The changed page is recorded, and logged unless the log fails; then its frame gets the LSN. -/
theorem captureChange_cases (hlog : db.log.WellFormed) (hsink : (db.transactions t).logSink = true)
    {mutation : PhysicalMutation} (hvalid : mutation.pageId.isValid = true) (f : FrameId) :
    (∃ e log, (captureChange t f mutation).run db =
        (.error e, (db.setTransaction t (recorded mutation (movedBefore mutation.pageId (db.transactions t)))).withLog log) ∧
      db.log.Appended log [] ∧ ¬ db.log.Healthy) ∨
    (∃ bytes log, (captureChange t f mutation).run db =
        (.ok (), ((db.setTransaction t
          (finalized (recorded mutation (movedBefore mutation.pageId (db.transactions t))))).withLog log).withCache
            (db.cache.written f ((db.pool.frames f).page.withLsn db.log.nextLsn))) ∧
      LogManager.encodePhysicalMutation mutation = .ok bytes ∧
      db.log.Appended log [⟨db.log.nextLsn, t, .physicalMutation, bytes⟩]) := by
  set tx := recorded mutation (movedBefore mutation.pageId (db.transactions t)) with htx
  have hrecord : (captureChange t f mutation).run db = ((do
      let lsn ← onLog (LogManager.appendPhysicalMutation t mutation)
      throwIf (lsn = 0) (.logic "WAL mutation logger returned zero LSN")
      modifyTransaction t finalized
      throwIf (lsn = 0) (.invalidArgument "a finalized mutation requires a nonzero LSN")
      onCache (Cache.modifyFrame f (Cache.setLsn lsn))) : DbOp Unit).run (db.setTransaction t tx) := by
    have hpushed : (db.setTransaction t (movedBefore mutation.pageId (db.transactions t))).setTransaction t
        (recorded mutation ((db.setTransaction t (movedBefore mutation.pageId (db.transactions t))).transactions t)) =
        db.setTransaction t tx := by
      rw [setTransaction_self, setTransaction_idem]
    have hsink' : ((db.setTransaction t tx).transactions t).logSink = true := by
      rw [setTransaction_self]
      exact hsink
    simp only [captureChange, finalizeMutation, modifyTransaction, bind_assoc, Op.modify_bind, Op.get_bind, hpushed,
      if_pos hsink', pure_bind]
  have hlsn : ¬ db.log.nextLsn = 0 := Nat.pos_iff_ne_zero.mp hlog.next_pos
  rw [hrecord]
  rcases LogManager.appendPhysicalMutation_cases hlog t hvalid with ⟨e, log, hrun, happended, hsick⟩ | ⟨bytes, log, hrun, hencode, happended⟩
  · exact Or.inl ⟨e, log, Op.bind_error (@onLog_of_run (db.setTransaction t tx) _ _ _ _ hrun), happended, hsick⟩
  · refine Or.inr ⟨bytes, log, ?_, hencode, happended⟩
    rw [Op.bind_ok (@onLog_of_run (db.setTransaction t tx) _ _ _ _ hrun), Op.throwIf_bind_neg hlsn, modifyTransaction,
      Op.modify_bind, Op.throwIf_bind_neg hlsn]
    have hfinal : (((db.setTransaction t tx).withLog log).setTransaction t
        (finalized (((db.setTransaction t tx).withLog log).transactions t))) =
        (db.setTransaction t (finalized tx)).withLog log := by
      rw [withLog_transactions, setTransaction_self, setTransaction_withLog, setTransaction_idem]
    have hcache : ((db.setTransaction t (finalized tx)).withLog log).cache = db.cache := by
      rw [cache_withLog, happended.durableLsn]
      rfl
    rw [hfinal]
    refine onCache_of_run ?_
    rw [hcache]
    rfl

/-- An entry at the end of the list: `stale` is kept when the page had an open capture before or the entry has lost its
image too. -/
theorem stale_append {new : Pending}
    (h : ∀ id entry, pending.find? (fun entry => entry.id = id) = some entry → entry.before = none)
    (hnew : new.before = none ∨ (pending.find? fun entry => entry.id = new.id).isSome = true) (id : PageId) (entry : Pending)
    (hentry : (pending ++ [new]).find? (fun entry => entry.id = id) = some entry) : entry.before = none := by
  rw [List.find?_append] at hentry
  cases hfind : pending.find? fun entry => entry.id = id with
  | some first =>
    rw [hfind] at hentry
    obtain rfl : first = entry := by simpa using hentry
    exact h id first hfind
  | none =>
    rw [hfind, Option.none_or, List.find?_singleton] at hentry
    split at hentry
    · rename_i heq
      obtain rfl := Option.some.inj hentry
      rcases hnew with hnone | hsome
      · exact hnone
      · rw [of_decide_eq_true heq, hfind] at hsome
        simp at hsome
    · simp at hentry

/-- The page has been watched and written: `finish` leaves the capture open, finds nothing changed, or logs the change. -/
theorem finish_cases (hlog : db.log.WellFormed) {tx : Transaction} (hinv : tx.Inv) {old : Page} {f : FrameId}
    (htx : db.transactions t = watched id old tx) (hid : (db.pool.frames f).page.id = id) (hvalid : id.isValid = true) :
    (∃ e tx' log, (finish t id f).run db = (.error e, (db.setTransaction t tx').withLog log) ∧
      (log = db.log ∨ db.log.Appended log []) ∧ (tx.hasUnfinishedCapture = true ∨ ¬ db.log.Healthy) ∧
      tx'.hasUnfinishedCapture = true ∧ tx'.Inv ∧ tx'.allocatedPages = tx.allocatedPages) ∨
    ((finish t id f).run db = (.ok (), db.setTransaction t tx) ∧ (db.pool.frames f).page.payload = old.payload) ∨
    (∃ mutation bytes log, (finish t id f).run db = (.ok (), ((db.setTransaction t (tx.captured mutation)).withLog log).withCache
        (db.cache.written f ((db.pool.frames f).page.withLsn db.log.nextLsn))) ∧
      (db.pool.frames f).page.payload ≠ old.payload ∧
      mutation = ⟨id, .payloadWrite, tx.context.nextSequence, old.payload, (db.pool.frames f).page.payload, old.lsn⟩ ∧
      LogManager.encodePhysicalMutation mutation = .ok bytes ∧
      db.log.Appended log [⟨db.log.nextLsn, t, .physicalMutation, bytes⟩]) := by
  have hpending : (db.transactions t).context.pending = tx.context.pending ++ [⟨id, some old.payload, old.lsn⟩] := by
    rw [htx, watched]
  have hsequence : (db.transactions t).context.nextSequence = tx.context.nextSequence := by rw [htx, watched]
  have hself : db.setTransaction t (db.transactions t) = db := by simp only [setTransaction, Function.update_eq_self]
  rw [finish, Op.get_bind, Op.throwIf_bind_neg (by simp [hid]), capture, Op.get_bind]
  dsimp only
  rw [hpending, hsequence, List.find?_append]
  cases hfind : tx.context.pending.find? fun entry => entry.id = id with
  | some first =>
    -- An older capture of the page is open and has lost its image.
    have hopen : tx.context.pending ≠ [] := by
      rintro hnil
      simp [hnil] at hfind
    refine Or.inl ⟨.wal "invalid WAL mutation image size", db.transactions t, db.log, ?_, Or.inl rfl, ?_, ?_, ?_, ?_⟩
    · rw [Option.some_or]
      dsimp only
      rw [hinv.stale id first hfind, hself]
      rfl
    · exact Or.inl (by simpa [Transaction.hasUnfinishedCapture] using hopen)
    · rw [Transaction.hasUnfinishedCapture, hpending]
      simp
    · rw [htx]
      refine ⟨hinv.sink, hinv.length, stale_append hinv.stale (Or.inr (by simp [hfind])), Or.inl ?_⟩
      simp [watched, Transaction.hasUnfinishedCapture]
    · rw [htx, watched]
  | none =>
    have hnone : ∀ entry ∈ tx.context.pending, ¬ entry.id = id := by simpa using hfind
    rw [Option.none_or, List.find?_singleton, if_pos (by simp)]
    dsimp only
    by_cases hsame : (db.pool.frames f).page.payload = old.payload
    · refine Or.inr (Or.inl ⟨?_, hsame⟩)
      rw [if_neg (by simpa using hsame), pure_bind, modifyTransaction, Op.modify_run, htx, erasedPending, watched]
      dsimp only
      rw [eraseP_append hnone rfl]
    rw [if_pos hsame]
    set mutation : PhysicalMutation :=
      ⟨id, .payloadWrite, tx.context.nextSequence, old.payload, (db.pool.frames f).page.payload, old.lsn⟩ with hmutation
    have hmoved : moveBefore id (db.transactions t).context.pending = tx.context.pending ++ [⟨id, none, old.lsn⟩] := by
      rw [hpending, moveBefore_append hnone rfl]
    rcases @captureChange_cases db t hlog (by rw [htx]; exact hinv.sink) mutation hvalid f with
      ⟨e, log, hrun, happended, hsick⟩ | ⟨bytes, log, hrun, hencode, happended⟩
    · refine Or.inl ⟨e, _, log, Op.bind_error hrun, Or.inr happended, Or.inr hsick, ?_, ?_, ?_⟩
      · change (!(moveBefore id (db.transactions t).context.pending).isEmpty) = true
        rw [hmoved]
        simp
      · refine ⟨by rw [htx]; exact hinv.sink, ?_, ?_, Or.inl ?_⟩
        · rw [htx]
          simp [recorded, movedBefore, watched, hinv.length]
        · change ∀ id' entry, (moveBefore id (db.transactions t).context.pending).find? _ = some entry → _
          rw [hmoved]
          exact stale_append hinv.stale (Or.inl rfl)
        · change (!(moveBefore id (db.transactions t).context.pending).isEmpty) = true
          rw [hmoved]
          simp
      · rw [htx]
        rfl
    · refine Or.inr (Or.inr ⟨mutation, bytes, log, ?_, hsame, rfl, hencode, happended⟩)
      have herased : erasedPending id (finalized (recorded mutation (movedBefore id (db.transactions t)))) =
          tx.captured mutation := by
        simp only [erasedPending, finalized, recorded, movedBefore, hmoved, eraseP_append hnone, hsequence]
        rw [htx]
        rfl
      rw [Op.bind_ok hrun, modifyTransaction, Op.modify_run, ← herased]
      refine Prod.ext rfl ?_
      change (((db.setTransaction t _).setTransaction t _).withLog log).withCache _ = _
      rw [setTransaction_idem]
      exact congrArg (fun tx => ((db.setTransaction t (erasedPending id tx)).withLog log).withCache _)
        (setTransaction_self db t _)

theorem Inv.of_still (h : db.Inv) (hstill : Still db db') (hcache : db'.cache.Inv none) (hsettled : db'.cache.Settled) :
    db'.Inv :=
  ⟨hcache, hsettled, hstill.log ▸ h.log, hstill.transactions ▸ h.transactions⟩

theorem Inv.of_apart (h : db.Inv) {tx : Transaction} (hrest : Apart db db' t tx) (htx : tx.Inv)
    (hlog : db'.log.WellFormed) (hcache : db'.cache.Inv none) (hsettled : db'.cache.Settled) : db'.Inv := by
  refine ⟨hcache, hsettled, hlog, fun other => ?_⟩
  rw [hrest.transactions, Function.update_apply]
  split
  · exact htx
  · exact h.transactions other

theorem Transaction.Inv.captured {tx : Transaction} (h : tx.Inv) (mutation : PhysicalMutation) :
    (tx.captured mutation).Inv := by
  refine ⟨h.sink, ?_, h.stale, ?_⟩
  · simp [Transaction.captured, h.length]
  · rcases h.finalized with hopen | hall
    · exact Or.inl hopen
    · exact Or.inr (by simp [Transaction.captured, hall])

theorem Inv.of_quiet (h : db.Inv) {c : Cache} (hinv : c.Inv none) (hquiet : db.cache.Quiet c) : (db.withCache c).Inv := by
  have hcache := cache_withCache hquiet.wal
  exact h.of_still (still_withCache db c) (by rwa [hcache]) (by rw [hcache]; exact hquiet.settled h.settled)

/-- Unpinning the page a client has written, when the pool is otherwise as the client found it. -/
theorem unpin_after_write (h : db.Inv) {f : FrameId} (hf : db.pool.pageTable id = some f)
    (hpin : (db.pool.frames f).pinCount ≠ 0) {page : Page} (hid : page.id = id)
    (hcache : db'.cache = db.cache.written f page) : ∃ db₂, (onCache (Cache.unpinPage id true)).run db' = (.ok true, db₂) ∧
      Still db' db₂ ∧ db₂.cache.Inv none ∧ db.cache.Wrote db₂.cache id page := by
  obtain ⟨hrun, hinv, hwrote⟩ := @Cache.unpin_written db.cache f id page h.cache hf hpin hid
  have hwal : ((db.cache.written f page).unpinned f true).walDurability = db'.cache.walDurability := by
    rw [hcache, hwrote.wal]
    rfl
  refine ⟨_, onCache_of_run (by rw [hcache, hrun]), still_withCache _ _, ?_, ?_⟩
  · rwa [cache_withCache hwal]
  · rwa [cache_withCache hwal]

/-- The state in which a transaction has watched the page it has pinned, and written it. -/
def watchedWrite (db : Database) (t : TransactionId) (id : PageId) (f : FrameId) (after : Payload) : Database :=
  (db.setTransaction t (watched id (db.pool.frames f).page (db.transactions t))).withCache
    (db.cache.written f ((db.pool.frames f).page.withPayload after))

theorem changePinned_watched {f : FrameId} (hwatch : (watch t id).run db =
    (.ok (), db.setTransaction t (watched id (db.pool.frames f).page (db.transactions t)))) (after : Payload) :
    (changePinned (some t) id f after).run db = (do
      finish t id f
      let _ ← onCache (Cache.unpinPage id true) : DbOp Unit).run (db.watchedWrite t id f after) := by
  rw [changePinned, Op.bind_ok hwatch, Op.bind_ok (onCache_of_run (Cache.writePayload_run _ f after))]
  rfl

theorem cache_watchedWrite (db : Database) (t : TransactionId) (id : PageId) (f : FrameId) (after : Payload) :
    (db.watchedWrite t id f after).cache = db.cache.written f ((db.pool.frames f).page.withPayload after) := rfl

theorem page_watchedWrite (db : Database) (t : TransactionId) (id : PageId) (f : FrameId) (after : Payload) :
    ((db.watchedWrite t id f after).pool.frames f).page = ((db.pool.frames f).page.withPayload after) :=
  congrArg Frame.page ((Cache.frames_written f).trans (if_pos rfl))

theorem watchedWrite_setTransaction (db : Database) (t : TransactionId) (id : PageId) (f : FrameId) (after : Payload)
    (tx : Transaction) : (db.watchedWrite t id f after).setTransaction t tx =
      (db.setTransaction t tx).withCache (db.cache.written f ((db.pool.frames f).page.withPayload after)) :=
  congrArg (fun db => Database.withCache db _) (setTransaction_idem db t _ tx)

/-- A write that needs no log record, and the unpin behind it. -/
theorem wrote_unlogged (h : db.Inv) (client : Option TransactionId) (after : Payload) {f : FrameId}
    (halloc : db.pages.isPageAllocated id = true) (hf : db.pool.pageTable id = some f) (hpin : (db.pool.frames f).pinCount ≠ 0)
    (hclient : client.isSome = true → after = (db.pool.frames f).page.payload) : ∃ db', (onCache (Cache.unpinPage id true)).run
        (db.withCache (db.cache.written f ((db.pool.frames f).page.withPayload after))) = (.ok true, db') ∧ db'.Inv ∧
      ∀ answer : α, Accessed db client id (fun _ => (some after, answer)) (.ok (some answer), db') := by
  obtain ⟨db', hrun, hstill, hinv, hwrote⟩ := unpin_after_write h hf hpin
    (show ((db.pool.frames f).page.withPayload after).id = id from (h.cache.pool.table_frame id f hf).2)
    (cache_withCache (show _ = db.cache.walDurability from rfl))
  have hstill := hstill.of_withCache
  exact ⟨db', hrun, h.of_still hstill hinv (hwrote.settled h.settled), fun answer =>
    .wrote (Cache.view_resident hf) rfl hclient halloc ((Cache.Quiet.refl db.cache).then_wrote hwrote) hstill⟩

theorem setTransaction_same (db : Database) (t : TransactionId) : db.setTransaction t (db.transactions t) = db := by
  rw [setTransaction, Function.update_eq_self]

/-- A client writes the page it has pinned. -/
theorem changePinned_cases (h : db.Inv) (client : Option TransactionId) {f : FrameId}
    (halloc : db.pages.isPageAllocated id = true) (hf : db.pool.pageTable id = some f) (hpin : (db.pool.frames f).pinCount ≠ 0)
    (after : Payload) : (∃ e db', (changePinned client id f after).run db = (.error e, db') ∧ db'.Inv ∧ ∀ answer : α,
      Accessed db client id (fun _ => (some after, answer)) (.error e, db')) ∨
    (∃ db', (changePinned client id f after).run db = (.ok (), db') ∧ db'.Inv ∧ ∀ answer : α,
      Accessed db client id (fun _ => (some after, answer)) (.ok (some answer), db')) := by
  have hid : (db.pool.frames f).page.id = id := (h.cache.pool.table_frame id f hf).2
  have hvalid := (PageManager.isPageAllocated_iff.mp halloc).1
  have hview : db.cache.view id = some (db.pool.frames f).page := Cache.view_resident hf
  cases client with
  | none =>
    obtain ⟨db₂, hrun, hinv, haccess⟩ := wrote_unlogged h none after halloc hf hpin (by simp)
    refine Or.inr ⟨db₂, ?_, hinv, haccess⟩
    rw [changePinned, Op.bind_ok (onCache_of_run (Cache.writePayload_run db.cache f after))]
    exact Op.bind_ok hrun
  | some t =>
    rcases @watch_pinned db t id h.cache halloc f hf hpin with ⟨e, hwatch⟩ | hwatch
    · refine Or.inl ⟨e, db, by rw [changePinned, Op.bind_error hwatch], h, fun answer => ?_⟩
      exact .failed (by simp) (.refl db.cache) ⟨rfl, rfl, rfl, rfl⟩
    rw [changePinned_watched hwatch]
    have hmoved : db.cache.Moved (db.watchedWrite t id f after).cache id := Cache.Moved.written h.cache hf _
    have hpage := page_watchedWrite db t id f after
    rcases @finish_cases (db.watchedWrite t id f after) t id h.log (db.transactions t) (h.transactions t)
      (db.pool.frames f).page f (setTransaction_self _ _ _) (by rw [hpage]; exact hid) hvalid
      with ⟨e, tx, log, hrun, hlog, hreason, hopen, htx, -⟩ | ⟨hrun, hsame⟩ | ⟨mutation, bytes, log, hrun, hne, hmutation, hencode, hlog⟩
    · -- The page keeps what was written, pinned and unlogged.
      have hkept : log.durableLsn = db.log.durableLsn ∧ log.WellFormed := by
        rcases hlog with rfl | hlog
        · exact ⟨rfl, h.log⟩
        · exact ⟨hlog.durableLsn, hlog.wellFormed h.log⟩
      have hcache : (((db.watchedWrite t id f after).setTransaction t tx).withLog log).cache =
          (db.watchedWrite t id f after).cache := by
        rw [cache_withLog, hkept.1]
        rfl
      have hrest : Apart db (((db.watchedWrite t id f after).setTransaction t tx).withLog log) t tx := by
        rw [watchedWrite_setTransaction]
        exact ⟨rfl, rfl, rfl⟩
      refine Or.inl ⟨e, _, Op.bind_error hrun, h.of_apart hrest htx hkept.2 ?_ ?_, fun answer => ?_⟩
      · rw [hcache]
        exact h.cache.written hf hpin hid
      · rw [hcache]
        exact hmoved.settled h.settled
      · exact .spoiled rfl hview rfl halloc (by rwa [hcache]) hlog hreason hopen hrest
    · rw [hpage] at hsame
      rw [watchedWrite_setTransaction, setTransaction_same] at hrun
      obtain ⟨db₂, hrun', hinv, haccess⟩ := wrote_unlogged h (some t) after halloc hf hpin fun _ => hsame
      refine Or.inr ⟨db₂, ?_, hinv, haccess⟩
      rw [Op.bind_ok hrun, Op.bind_ok hrun']
      rfl
    · rw [hpage] at hne hmutation
      have hagain : (db.watchedWrite t id f after).cache.written f
          (((db.watchedWrite t id f after).pool.frames f).page.withLsn db.log.nextLsn) =
          db.cache.written f ⟨id, db.log.nextLsn, after⟩ := by
        rw [hpage, cache_watchedWrite, Cache.written_written, ← hid]
        rfl
      have hcache : ((((db.watchedWrite t id f after).setTransaction t ((db.transactions t).captured mutation)).withLog
          log).withCache (db.cache.written f ⟨id, db.log.nextLsn, after⟩)).cache =
            db.cache.written f ⟨id, db.log.nextLsn, after⟩ := by
        apply cache_withCache
        rw [cache_withLog, hlog.durableLsn]
        rfl
      obtain ⟨db₂, hrun', hstill, hinv, hwrote⟩ := unpin_after_write h hf hpin
        (show (⟨id, db.log.nextLsn, after⟩ : Page).id = id from rfl) hcache
      have hlog₂ : db.log.Appended db₂.log [⟨db.log.nextLsn, t, .physicalMutation, bytes⟩] := by
        rw [hstill.log]
        exact hlog
      have hrest : Apart db db₂ t ((db.transactions t).captured mutation) := by
        refine ⟨?_, hstill.locking, hstill.nextId⟩
        rw [hstill.transactions, watchedWrite_setTransaction]
        rfl
      refine Or.inr ⟨db₂, ?_, ?_, fun answer => ?_⟩
      · rw [Op.bind_ok hrun]
        refine (congrArg (fun c => (onCache (Cache.unpinPage id true) >>= fun _ => pure () : DbOp Unit).run
          (Database.withCache _ c)) hagain).trans ?_
        exact Op.bind_ok hrun'
      · exact h.of_apart hrest (Transaction.Inv.captured (h.transactions t) mutation) (hlog₂.wellFormed h.log) hinv
          (hwrote.settled h.settled)
      · exact .captured rfl hview rfl hne halloc hmutation hencode ((Cache.Quiet.refl db.cache).then_wrote hwrote) hlog₂ hrest

/-- A fetch before the access. -/
theorem Accessed.after_fetch {client : Option TransactionId} {f : Payload → Option Payload × α} {c : Cache} {old : Page}
    {result : Except Err (Option α) × Database} (hquiet : db.cache.Quiet c) (hview : c.view id = db.cache.view id)
    (hold : db.cache.view id = some old) (h : Accessed (db.withCache c) client id (fun _ => f old.payload) result) :
    Accessed db client id f result := by
  have hcache := cache_withCache hquiet.wal
  have hsame : ∀ {page : Page}, (db.withCache c).cache.view id = some page → page = old := by
    intro page hpage
    rw [hcache, hview, hold] at hpage
    exact (Option.some.inj hpage).symm
  cases h with
  | failed houtcome hquiet' hstill =>
    exact .failed houtcome (hquiet.trans (hcache ▸ hquiet')) hstill.of_withCache
  | read hv hf hquiet' hstill =>
    exact .read hold hf (hquiet.trans (hcache ▸ hquiet')) hstill.of_withCache
  | wrote hv hf hclient halloc hwrote hstill =>
    obtain rfl := hsame hv
    rw [hcache] at hwrote
    exact .wrote hold hf hclient ((hquiet.allocated id).symm.trans halloc) (hquiet.then_rewrote hwrote)
      hstill.of_withCache
  | captured hclient hv hf hchanged halloc hmutation hencode hwrote hlog hrest =>
    obtain rfl := hsame hv
    rw [hcache] at hwrote
    exact .captured hclient hold hf hchanged ((hquiet.allocated id).symm.trans halloc) hmutation hencode
      (hquiet.then_rewrote hwrote) hlog ⟨hrest.transactions, hrest.locking, hrest.nextId⟩
  | spoiled hclient hv hf halloc hmoved hlog hreason hopen hrest =>
    obtain rfl := hsame hv
    rw [hcache] at hmoved
    exact .spoiled hclient hold hf ((hquiet.allocated id).symm.trans halloc) (hquiet.then_moved hmoved) hlog hreason hopen
      ⟨hrest.transactions, hrest.locking, hrest.nextId⟩

theorem accessPage_cases (h : db.Inv) (client : Option TransactionId) (id : PageId) (f : Payload → Option Payload × α) :
    Accessed db client id f ((accessPage client id f).run db) ∧ ((accessPage client id f).run db).2.Inv := by
  have hfetch := Cache.fetched_fetchPage h.cache id
  rw [accessPage, Op.bind_run, onCache_run]
  generalize (Cache.fetchPage id).run db.cache = result at hfetch
  cases hfetch with
  | @failed outcome c houtcome hinv hquiet =>
    have hcache := cache_withCache hquiet.wal
    have hstill := still_withCache db c
    have hinv' := h.of_quiet hinv hquiet
    match outcome, houtcome with
    | .error e, _ => exact ⟨.failed (by simp) (by rwa [hcache]) hstill, hinv'⟩
    | .ok none, _ => exact ⟨.failed (by simp) (by rwa [hcache]) hstill, hinv'⟩
    | .ok (some f), houtcome => exact absurd rfl (houtcome f)
  | @fetched frameId c hinv hquiet hview halloc hf hpin =>
    have hcache := cache_withCache hquiet.wal
    have hstill := still_withCache db c
    have hinv' := h.of_quiet hinv hquiet
    have hold : db.cache.view id = some (c.pool.frames frameId).page := by rw [← hview, Cache.view_resident hf]
    dsimp only
    rw [Op.get_bind]
    cases hfun : f (c.pool.frames frameId).page.payload with
    | mk change answer =>
      rw [show ((db.withCache c).pool.frames frameId).page = (c.pool.frames frameId).page from rfl, hfun]
      cases change with
      | none =>
        have hunpin := Cache.unpinPage_run hf hpin false
        have hquiet' := hquiet.trans (Cache.Quiet.unpinned c frameId)
        have hcache' := cache_withCache hquiet'.wal
        have hstate : (onCache (Cache.unpinPage id false)).run (db.withCache c) =
            (.ok true, db.withCache (c.unpinned frameId false)) := by
          rw [onCache_of_run (by rw [hcache, hunpin])]
          rfl
        rw [Op.bind_ok hstate]
        exact ⟨.read hold hfun (by rwa [hcache']) (still_withCache db _),
          h.of_quiet (hinv.unpinned hf hpin false) hquiet'⟩
      | some after =>
        have halloc' : (db.withCache c).pages.isPageAllocated id = true := (hquiet.allocated id).trans halloc
        have hlift : ∀ result : Except Err (Option α) × Database,
            Accessed (db.withCache c) client id (fun _ => (some after, answer)) result → Accessed db client id f result := by
          intro result haccess
          apply Accessed.after_fetch hquiet hview hold
          rwa [hfun]
        rcases changePinned_cases hinv' client halloc' hf hpin after with
          ⟨e, db', hrun, hinv'', haccess⟩ | ⟨db', hrun, hinv'', haccess⟩
        · rw [Op.bind_error hrun]
          exact ⟨hlift _ (haccess answer), hinv''⟩
        · rw [Op.bind_ok hrun]
          exact ⟨hlift _ (haccess answer), hinv''⟩

/-! ## The pieces of a call -/

/-- The record a piece writes. -/
def recordOf : Action → Option WalRecordType
  | .logAbort => some .abort
  | .logCommit => some .commit
  | .logAllocate _ => some .pageAllocate
  | _ => none

/-- What is checked before the record is written, and what the record carries. -/
def Loggable (tx : Transaction) (action : Action) (bytes : Bytes) : Prop :=
  match action with
  | .logAbort => tx.hasUnresolvedMutationsForAbort = false ∧ bytes = []
  | .logCommit => tx.hasUnfinalizedMutations = false ∧ bytes = []
  | .logAllocate page => LogManager.encodePageAllocate page = .ok bytes
  | _ => False

def withLocking (db : Database) (locking : LockSystem) : Database := { db with locking := locking }

/-- The ends of a piece. -/
inductive Performed (db : Database) (t : TransactionId) : Action → Except Err Unit × Database → Prop where
  | checked (hclosed : (db.transactions t).hasUnfinishedCapture = false) : Performed db t .checkCapture (.ok (), db)
  | refused {e : Err} (hopen : (db.transactions t).hasUnfinishedCapture = true) :
      Performed db t .checkCapture (.error e, db)
  | skipped {index : Nat} (hresolved : (db.transactions t).resolved index = true) :
      Performed db t (.undo index) (.ok (), db)
  | undone {index : Nat} {mutation : PhysicalMutation} {old : Page} {db' : Database}
      (hmutation : (db.transactions t).pendingMutations[index]? = some mutation)
      (hresolved : (db.transactions t).resolved index = false)
      (hlater : (db.transactions t).unresolvedAfter index = false)
      (hview : db.cache.view mutation.pageId = some old) (halloc : db.pages.isPageAllocated mutation.pageId = true)
      (hwrote : db.cache.Rewrote db'.cache mutation.pageId
        ⟨mutation.pageId, mutation.previousPageLsn, mutation.beforeImage⟩)
      (hlog : db'.log = db.log) (hrest : Apart db db' t (resolvedAt index (db.transactions t))) :
      Performed db t (.undo index) (.ok (), db')
  | notUndone {index : Nat} {e : Err} {db' : Database} (hquiet : db.cache.Quiet db'.cache) (hstill : Still db db') :
      Performed db t (.undo index) (.error e, db')
  /-- The image is back and the PageLSN is not: the order was wrong, or the mutation has no LSN. -/
  | torn {index : Nat} {e : Err} {mutation : PhysicalMutation} {db' : Database}
      (hmutation : (db.transactions t).pendingMutations[index]? = some mutation)
      (hreason : (db.transactions t).unresolvedAfter index = true ∨ (db.transactions t).hasUnfinishedCapture = true)
      (halloc : db.pages.isPageAllocated mutation.pageId = true)
      (hmoved : db.cache.Moved db'.cache mutation.pageId) (hstill : Still db db') :
      Performed db t (.undo index) (.error e, db')
  | unallocated {page : PageId} (halloc : db.pages.isPageAllocated page = false) :
      Performed db t (.release page) (.ok (), db)
  | released {page : PageId} {outcome : Except Err Unit} {pages : PageManager}
      (halloc : db.pages.isPageAllocated page = true) (hbit : db.pages.BitSet pages page false)
      (hworks : db.pages.Synced → outcome = .ok ()) :
      Performed db t (.release page) (outcome, { db with pages := pages })
  | logged {action : Action} {type : WalRecordType} {bytes : Bytes} {log : LogManager} (htype : recordOf action = some type)
      (hready : Loggable (db.transactions t) action bytes)
      (hlog : db.log.Appended log [⟨db.log.nextLsn, t, type, bytes⟩]) : Performed db t action (.ok (), db.withLog log)
  | notLogged {action : Action} {type : WalRecordType} {e : Err} {log : LogManager} (htype : recordOf action = some type)
      (hlog : log = db.log ∨ db.log.Appended log [])
      (hreason : (∀ bytes, ¬ Loggable (db.transactions t) action bytes) ∨ ¬ db.log.Healthy) :
      Performed db t action (.error e, db.withLog log)
  | flushed {log : LogManager} (hlog : db.log.Flushed log) (hdurable : log.durableLsn = db.log.nextLsn - 1) :
      Performed db t .flushLog (.ok (), db.withLog log)
  | notFlushed {e : Err} {log : LogManager} (hlog : db.log.Flushed log) (hdurable : log.durableLsn = db.log.durableLsn)
      (hsick : ¬ db.log.Healthy) : Performed db t .flushLog (.error e, db.withLog log)
  | activated {page : PageId} {pages : PageManager} (halloc : db.pages.isPageAllocated page = false)
      (hbit : db.pages.BitSet pages page true) :
      Performed db t (.activate page)
        (.ok (), ({ db with pages := pages } : Database).setTransaction t (allocatedTo page (db.transactions t)))
  | notActivated {page : PageId} {e : Err} {pages : PageManager}
      (hpages : pages = db.pages ∨ db.pages.BitSet pages page true) :
      Performed db t (.activate page) (.error e, { db with pages := pages })
  | aborted (hresolved : (db.transactions t).hasUnresolvedMutationsForAbort = false) :
      Performed db t .endAbort (.ok (), db.withLocking (db.locking.step (.abort t)))
  | notAborted {e : Err} (hresolved : (db.transactions t).hasUnresolvedMutationsForAbort = true) :
      Performed db t .endAbort (.error e, db)
  | committed (hfinal : (db.transactions t).hasUnfinalizedMutations = false) :
      Performed db t .endCommit (.ok (), db.withLocking (db.locking.step (.commit t)))
  | notCommitted {e : Err} (hfinal : (db.transactions t).hasUnfinalizedMutations = true) :
      Performed db t .endCommit (.error e, db)

/-- A piece concerns its own transaction only. -/
theorem Performed.transactions_of_ne {action : Action} {result : Except Err Unit × Database} {other : TransactionId}
    (h : Performed db t action result) (hne : other ≠ t) : result.2.transactions other = db.transactions other := by
  cases h with
  | undone _ _ _ _ _ _ _ hrest => exact (congrFun hrest.transactions other).trans (Function.update_of_ne hne _ _)
  | notUndone _ hstill | torn _ _ _ _ hstill => exact congrFun hstill.transactions other
  | activated _ _ => exact Function.update_of_ne hne _ _
  | _ => rfl

theorem resolveMutationForUndo_cases (db : Database) {index : Nat} {mutation : PhysicalMutation}
    (hmutation : (db.transactions t).pendingMutations[index]? = some mutation)
    (hresolved : (db.transactions t).resolved index = false) (lsn : Nat) :
    (∃ e, (resolveMutationForUndo t index lsn).run db = (.error e, db) ∧ (db.transactions t).unresolvedAfter index = true) ∨
    ((db.transactions t).unresolvedAfter index = false ∧ (resolveMutationForUndo t index lsn).run db = (do
      onCache (if index < (db.transactions t).finalizedMutations then Cache.restorePageLsnAfterUndo mutation.pageId lsn
        else Cache.resolvePendingMutation mutation.pageId lsn)
      modifyTransaction t (resolvedAt index) : DbOp Unit).run db) := by
  rw [resolveMutationForUndo, Op.get_bind]
  dsimp only
  rw [hmutation]
  dsimp only
  rw [Op.throwIf_bind_neg (by simp [hresolved])]
  by_cases hlater : (db.transactions t).unresolvedAfter index = true
  · rw [Op.throwIf_bind_pos hlater]
    exact Or.inl ⟨_, rfl, hlater⟩
  · rw [Op.throwIf_bind_neg hlater]
    exact Or.inr ⟨Bool.eq_false_iff.mpr hlater, rfl⟩

theorem undoMutation_cases (h : db.Inv) (t : TransactionId) (index : Nat) :
    Performed db t (.undo index) ((undoMutation t index).run db) ∧ ((undoMutation t index).run db).2.Inv := by
  rw [undoMutation, Op.get_bind]
  by_cases hresolved : (db.transactions t).resolved index = true
  · rw [if_pos hresolved]
    exact ⟨.skipped hresolved, h⟩
  rw [if_neg hresolved]
  have hstill : Still db db := ⟨rfl, rfl, rfl, rfl⟩
  cases hmutation : (db.transactions t).pendingMutations[index]? with
  | none => exact ⟨.notUndone (.refl db.cache) hstill, h⟩
  | some mutation =>
    rcases Cache.applyImage_cases h.cache mutation.pageId mutation.beforeImage with
      ⟨e, c, hrun, hinv, hquiet⟩ | ⟨c, f, old, hrun, hinv, hview, hid, halloc, hwrote, hf, hdirty⟩
    · dsimp only [applyBeforeImage]
      rw [Op.bind_error (onCache_of_run hrun)]
      exact ⟨.notUndone (by rwa [cache_withCache hquiet.wal]) (still_withCache db c), h.of_quiet hinv hquiet⟩
    have hcache := cache_withCache hwrote.wal
    have hsettled := hwrote.settled h.settled
    have hstill' := still_withCache db c
    have hinv' : (db.withCache c).Inv := h.of_still hstill' (by rwa [hcache]) (by rwa [hcache])
    have hmoved : db.cache.Moved (db.withCache c).cache mutation.pageId := by
      rw [hcache]
      exact hwrote.toMoved
    dsimp only [applyBeforeImage]
    rw [Op.bind_ok (onCache_of_run hrun)]
    rcases resolveMutationForUndo_cases (db.withCache c) hmutation (Bool.eq_false_iff.mpr hresolved) mutation.previousPageLsn
      with ⟨e, hrun', hlater⟩ | ⟨hlater, hrun'⟩
    · rw [hrun']
      exact ⟨.torn hmutation (Or.inl hlater) halloc hmoved hstill', hinv'⟩
    rw [hrun', withCache_transactions]
    by_cases hfinal : index < (db.transactions t).finalizedMutations
    · rw [if_pos hfinal]
      obtain ⟨c', hrun'', hinv'', hwrote'⟩ := Cache.restorePageLsnAfterUndo_run hinv hf hsettled hdirty mutation.previousPageLsn
      have hpage : ((c.pool.frames f).page.withLsn mutation.previousPageLsn) =
          ⟨mutation.pageId, mutation.previousPageLsn, mutation.beforeImage⟩ := by
        have hself := hwrote.self
        rw [Cache.view_resident hf] at hself
        rw [Option.some.inj hself, ← hid]
        rfl
      rw [hpage] at hwrote'
      have hboth := hwrote.then_wrote hwrote'
      have hcache' := cache_withCache hboth.wal
      have hrest : Apart db ((db.withCache c').setTransaction t (resolvedAt index (db.transactions t))) t
          (resolvedAt index (db.transactions t)) := ⟨rfl, rfl, rfl⟩
      have htx : (resolvedAt index (db.transactions t)).Inv := by
        obtain ⟨hsink, hlength, hstale, hfinalized⟩ := h.transactions t
        exact ⟨hsink, by simp [resolvedAt, hlength], hstale, hfinalized⟩
      rw [Op.bind_ok (onCache_of_run (by rw [hcache, hrun'']))]
      refine ⟨.undone hmutation (Bool.eq_false_iff.mpr hresolved) hlater hview halloc ?_ rfl hrest,
        h.of_apart hrest htx h.log ?_ ?_⟩
      · exact (show db.cache.Rewrote (db.withCache c').cache _ _ by rwa [hcache'])
      · exact (show (db.withCache c').cache.Inv none by rwa [hcache'])
      · exact (show (db.withCache c').cache.Settled by rw [hcache']; exact hboth.settled h.settled)
    · -- A mutation without an LSN is one whose capture was left open, and no frame counts it as pending.
      have hopen : (db.transactions t).hasUnfinishedCapture = true := by
        rcases (h.transactions t).finalized with hopen | hall
        · exact hopen
        · have hlt := (List.getElem?_eq_some_iff.mp hmutation).1
          exact absurd (hall ▸ hlt) hfinal
      have hthrow : (Cache.resolvePendingMutation mutation.pageId mutation.previousPageLsn).run c =
          (.error (.logic "no pending mutation for page"), c) := by
        rw [Cache.resolvePendingMutation, Cache.onFrame, Op.get_bind, hf]
        dsimp only
        rw [Op.throwIf_bind_pos (hsettled f)]
      rw [if_neg hfinal, Op.bind_error (onCache_of_run (by rw [hcache, hthrow]))]
      exact ⟨.torn hmutation (Or.inr hopen) halloc hmoved hstill', hinv'⟩

theorem onPageManager_of_run {x : PageOp α} {pages : PageManager} (h : x.run db.pages = (outcome, pages)) :
    (onPageManager x).run db = (outcome, { db with pages := pages }) := by
  change ((x.run db.pages).1, ({ db with pages := (x.run db.pages).2 } : Database)) = _
  rw [h]

theorem Inv.of_log (h : db.Inv) {log : LogManager} (hlog : log.WellFormed) : (db.withLog log).Inv :=
  ⟨⟨h.cache.pages, h.cache.pool, h.cache.resident⟩, h.settled, hlog, h.transactions⟩

theorem Inv.of_bitSet (h : db.Inv) {pages : PageManager} {value : Bool} (hbit : db.pages.BitSet pages id value) :
    ({ db with pages := pages } : Database).Inv := by
  refine ⟨⟨hbit.wellFormed, h.cache.pool, fun other f hf => ?_⟩, h.settled, h.log, h.transactions⟩
  exact Nat.lt_of_lt_of_eq (h.cache.resident other f hf) hbit.pageCount.symm

theorem Inv.of_locking (h : db.Inv) (locking : LockSystem) : (db.withLocking locking).Inv :=
  ⟨⟨h.cache.pages, h.cache.pool, h.cache.resident⟩, h.settled, h.log, h.transactions⟩

theorem Inv.of_setTransaction (h : db.Inv) {tx : Transaction} (htx : tx.Inv) : (db.setTransaction t tx).Inv :=
  h.of_apart ⟨rfl, rfl, rfl⟩ htx h.log ⟨h.cache.pages, h.cache.pool, h.cache.resident⟩ h.settled

/-- A check, then a record. -/
theorem logged_cases (h : db.Inv) {action : Action} {type : WalRecordType} (htype : recordOf action = some type)
    {bytes : Bytes} (hsize : bytes.length ≤ LogManager.kMaxRecordSize - LogManager.kMinimumRecordSize)
    (hready : Loggable (db.transactions t) action bytes) :
    Performed db t action ((do let _ ← onLog (LogManager.append type t bytes) : DbOp Unit).run db) ∧
      ((do let _ ← onLog (LogManager.append type t bytes) : DbOp Unit).run db).2.Inv := by
  rcases LogManager.append_cases h.log type t hsize with ⟨e, log, hrun, happended, hsick⟩ | ⟨log, hrun, happended⟩
  · rw [Op.bind_error (onLog_of_run hrun)]
    exact ⟨.notLogged htype (Or.inr happended) (Or.inr hsick), h.of_log (happended.wellFormed h.log)⟩
  · rw [Op.bind_ok (onLog_of_run hrun)]
    exact ⟨.logged htype hready happended, h.of_log (happended.wellFormed h.log)⟩

theorem perform_cases (h : db.Inv) (t : TransactionId) (action : Action) :
    Performed db t action ((perform t action).run db) ∧ ((perform t action).run db).2.Inv := by
  have hsame : db.withLog db.log = db := rfl
  have hempty : ([] : Bytes).length ≤ LogManager.kMaxRecordSize - LogManager.kMinimumRecordSize := Nat.zero_le _
  cases action with
  | checkCapture =>
    rw [perform, requireNoUnfinishedCapture, Op.get_bind]
    by_cases hopen : (db.transactions t).hasUnfinishedCapture = true
    · rw [Op.throwIf_run_pos hopen]
      exact ⟨.refused hopen, h⟩
    · rw [Op.throwIf_run_neg hopen]
      exact ⟨.checked (Bool.eq_false_iff.mpr hopen), h⟩
  | undo index => exact undoMutation_cases h t index
  | release page =>
    rw [perform, releasePage, Op.get_bind]
    by_cases halloc : db.pages.isPageAllocated page = true
    · rw [if_pos halloc]
      rcases @PageManager.deallocatePage_cases db.pages page h.cache.pages with ⟨e, -, hno⟩ | ⟨outcome, pages, hrun, -, hbit, hworks⟩
      · simp [halloc] at hno
      · rw [onPageManager_of_run hrun]
        exact ⟨.released halloc hbit hworks, h.of_bitSet hbit⟩
    · rw [if_neg halloc]
      exact ⟨.unallocated (Bool.eq_false_iff.mpr halloc), h⟩
  | logAbort =>
    rw [perform, Database.logAbort, Op.get_bind]
    by_cases hready : (db.transactions t).hasUnresolvedMutationsForAbort = true
    · rw [Op.throwIf_bind_pos hready, ← hsame]
      exact ⟨.notLogged rfl (Or.inl rfl) (Or.inl fun _ hl => by simp [Loggable, hready] at hl), h⟩
    · rw [Op.throwIf_bind_neg hready]
      exact logged_cases h rfl hempty ⟨Bool.eq_false_iff.mpr hready, rfl⟩
  | logCommit =>
    rw [perform, Database.logCommit, Op.get_bind]
    by_cases hready : (db.transactions t).hasUnfinalizedMutations = true
    · rw [Op.throwIf_bind_pos hready, ← hsame]
      exact ⟨.notLogged rfl (Or.inl rfl) (Or.inl fun _ hl => by simp [Loggable, hready] at hl), h⟩
    · rw [Op.throwIf_bind_neg hready]
      exact logged_cases h rfl hempty ⟨Bool.eq_false_iff.mpr hready, rfl⟩
  | logAllocate page =>
    rw [perform, LogManager.appendPageAllocate]
    by_cases hvalid : page.isValid = true
    · have hencode := LogManager.encodePageAllocate_ok hvalid
      rw [hencode, LogManager.lift, pure_bind]
      exact logged_cases h rfl (by rw [leBytes_length]; decide) hencode
    · have hencode : LogManager.encodePageAllocate page = .error (.wal "invalid WAL allocation page id") := by
        rw [LogManager.encodePageAllocate, if_pos (Bool.eq_false_iff.mpr hvalid)]
      rw [hencode, LogManager.lift]
      exact ⟨.notLogged rfl (Or.inl rfl) (Or.inl fun _ hl => by simp [Loggable, hencode] at hl), h⟩
  | flushLog =>
    rw [perform]
    rcases LogManager.flush_cases db.log with ⟨e, log, hrun, hflushed, hdurable, hsick⟩ | ⟨log, hrun, hflushed, hdurable⟩
    · rw [onLog_of_run hrun]
      exact ⟨.notFlushed hflushed hdurable hsick, h.of_log (hflushed.wellFormed h.log (Or.inl hdurable))⟩
    · rw [onLog_of_run hrun]
      exact ⟨.flushed hflushed hdurable, h.of_log (hflushed.wellFormed h.log (Or.inr hdurable))⟩
  | activate page =>
    rw [perform]
    rcases @PageManager.activateReservedPage_cases db.pages page h.cache.pages with
      ⟨e, hrun, -⟩ | ⟨outcome, pages, hrun, halloc, -, hbit, -⟩
    · rw [Op.bind_error (onPageManager_of_run hrun)]
      exact ⟨.notActivated (Or.inl rfl), h⟩
    · have hinv := h.of_bitSet hbit
      cases outcome with
      | error e =>
        rw [Op.bind_error (onPageManager_of_run hrun)]
        exact ⟨.notActivated (Or.inr hbit), hinv⟩
      | ok _ =>
        rw [Op.bind_ok (onPageManager_of_run hrun)]
        obtain ⟨hsink, hlength, hstale, hfinalized⟩ := h.transactions t
        exact ⟨.activated halloc hbit, hinv.of_setTransaction ⟨hsink, hlength, hstale, hfinalized⟩⟩
  | endAbort =>
    rw [perform, Database.endAbort, Op.get_bind]
    by_cases hready : (db.transactions t).hasUnresolvedMutationsForAbort = true
    · rw [Op.throwIf_bind_pos hready]
      exact ⟨.notAborted hready, h⟩
    · rw [Op.throwIf_bind_neg hready]
      exact ⟨.aborted (Bool.eq_false_iff.mpr hready), h.of_locking _⟩
  | endCommit =>
    rw [perform, Database.endCommit, Op.get_bind]
    by_cases hready : (db.transactions t).hasUnfinalizedMutations = true
    · rw [Op.throwIf_bind_pos hready]
      exact ⟨.notCommitted hready, h⟩
    · rw [Op.throwIf_bind_neg hready]
      exact ⟨.committed (Bool.eq_false_iff.mpr hready), h.of_locking _⟩

end Database

end Ddb.Concurrency
