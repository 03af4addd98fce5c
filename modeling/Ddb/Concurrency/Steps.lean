import Ddb.Concurrency.Effects

/-!
# What each step of the system does

The steps of the system, with the effects of the pieces they run. The invariant of the database is kept by every step, from
any state and whatever the files answer.
-/

namespace Ddb.Concurrency

open Ddb.Lib Ddb.Storage Ddb.Buffer

namespace System

/-- The call of a transaction after one of its pieces. -/
def afterPiece {α : Type} (outcome : Except Err α) (rest : List Action) : List Action :=
  match outcome with
  | .ok _ => rest
  | .error _ => []

/-- The ends of a step. -/
inductive Stepped (s : System) : Step → System → Prop where
  /-- The client had to wait, or the call returned at once. -/
  | stayed {step : Step} : Stepped s step s
  | began {log : LogManager} (hlog : s.db.log.Appended log [⟨s.db.log.nextLsn, s.db.nextId, .begin, []⟩]) :
      Stepped s .begin
        { s with
          db := ({ s.db with nextId := s.db.nextId + 1, log := log } : Database).setTransaction s.db.nextId (.fresh true)
          begun := Function.update s.begun s.db.nextId true }
  | notBegan {log : LogManager} (hlog : s.db.log.Appended log []) (hsick : ¬ s.db.log.Healthy) :
      Stepped s .begin { s with db := { s.db with nextId := s.db.nextId + 1, log := log } }
  | accessed {client : Option TransactionId} {id : PageId} {change : Payload → Option Payload}
      {result : Except Err (Option Unit) × Database} (hidle : client.all s.idle = true)
      (haccess : Database.Accessed s.db client id (fun payload => (change payload, ())) result) :
      Stepped s (.access client id change) { s with db := result.2 }
  | grown {client : Option TransactionId} {pages : PageManager} {calls : TransactionId → List Action}
      (hidle : client.all s.idle = true) (hpages : s.db.pages.Grown pages)
      (hcalls : calls = s.calls ∨ ∃ t, client = some t ∧
        calls = Function.update s.calls t (Database.allocateCall (PageId.ofIndex s.db.pages.pageCount)) ∧
        s.db.pages.Reserved pages) :
      Stepped s (.allocate client) { s with db := { s.db with pages := pages }, calls := calls }
  | committing {t : TransactionId} (hidle : s.idle t = true) (hstate : LockSystem.isTerminal (s.db.state t) = false) :
      Stepped s (.commit t) (s.enter t Database.commitCall)
  | aborting {t : TransactionId} (hidle : s.idle t = true) (hstate : LockSystem.isTerminal (s.db.state t) = false) :
      Stepped s (.abort t) (s.enter t (Database.abortCall (s.db.transactions t)))
  | resumed {t : TransactionId} {action : Action} {rest : List Action} {result : Except Err Unit × Database}
      (hcall : s.calls t = action :: rest) (hpiece : Database.Performed s.db t action result) :
      Stepped s (.resume t) (({ s with db := result.2 }).enter t (afterPiece result.1 rest))
  | locked {step : Step} {lockStep : LockStep}
      (hstep : (∃ request, step = .lock request ∧ lockStep = .lock request ∧ s.idle request.transactionId = true) ∨
        (∃ request, step = .wake request ∧ lockStep = .wake request) ∨
        ∃ t resource, step = .unlock t resource ∧ lockStep = .unlock t resource) :
      Stepped s step { s with db := s.db.withLocking (s.db.locking.step lockStep) }
  | quiet {step : Step} {db : Database} (hquiet : s.db.cache.Quiet db.cache) (hstill : Database.Still s.db db) :
      Stepped s step { s with db := db }
  | synced {log : LogManager} (hlog : s.db.log.Flushed log)
      (hdurable : log.durableLsn = s.db.log.durableLsn ∨ log.durableLsn = s.db.log.nextLsn - 1) :
      Stepped s .flushLog { s with db := s.db.withLog log }

variable {s : System} {rest : List Action} {s' : System}

/-- A call of the pool that writes no page. -/
theorem stepped_onCache {α : Type} (h : s.db.Inv) {x : CacheOp α} (hx : Op.Within Cache.Calm x) (step : Step) :
    Stepped s step (s.run (Database.onCache x)) ∧ (s.run (Database.onCache x)).db.Inv := by
  obtain ⟨hinv, hquiet⟩ := hx s.db.cache h.cache
  have hcache := Database.cache_withCache hquiet.wal
  have hstep : s.run (Database.onCache x) = { s with db := s.db.withCache (x.run s.db.cache).2 } := rfl
  rw [hstep]
  exact ⟨.quiet (by rwa [hcache]) (Database.still_withCache _ _), h.of_quiet hinv hquiet⟩

theorem begin_cases (h : s.db.Inv) : Stepped s .begin s.begin ∧ s.begin.db.Inv := by
  have hnext : ∀ log : LogManager, log.WellFormed → ({ s.db with nextId := s.db.nextId + 1, log := log } : Database).Inv :=
    fun log hlog => ⟨⟨h.cache.pages, h.cache.pool, h.cache.resident⟩, h.settled, hlog, h.transactions⟩
  have hempty : ([] : Bytes).length ≤ LogManager.kMaxRecordSize - LogManager.kMinimumRecordSize := Nat.zero_le _
  rcases LogManager.append_cases h.log .begin s.db.nextId hempty with
    ⟨e, log, hrun, happended, hsick⟩ | ⟨log, hrun, happended⟩
  · have hbegin : Database.beginTransaction.run s.db = (.error e, { s.db with nextId := s.db.nextId + 1, log := log }) := by
      rw [Database.beginTransaction, Op.get_bind, Op.modify_bind]
      exact Op.bind_error (Database.onLog_of_run hrun)
    rw [begin, hbegin]
    exact ⟨.notBegan happended hsick, hnext log (happended.wellFormed h.log)⟩
  · have hbegin : Database.beginTransaction.run s.db = (.ok s.db.nextId,
        ({ s.db with nextId := s.db.nextId + 1, log := log } : Database).setTransaction s.db.nextId (.fresh true)) := by
      rw [Database.beginTransaction, Op.get_bind, Op.modify_bind]
      exact Op.bind_ok (Database.onLog_of_run hrun)
    rw [begin, hbegin]
    exact ⟨.began happended, (hnext log (happended.wellFormed h.log)).of_setTransaction Transaction.inv_fresh⟩

theorem allocate_cases (h : s.db.Inv) {client : Option TransactionId} (hidle : client.all s.idle = true) :
    Stepped s (.allocate client) (s.allocate client) ∧ (s.allocate client).db.Inv := by
  have hgrow : ∀ pages : PageManager, s.db.pages.Grown pages → ({ s.db with pages := pages } : Database).Inv := by
    intro pages hpages
    refine ⟨⟨hpages.wellFormed, h.cache.pool, fun other f hf => ?_⟩, h.settled, h.log, h.transactions⟩
    exact Nat.lt_of_lt_of_le (h.cache.resident other f hf) hpages.pageCount
  cases client with
  | none =>
    obtain ⟨outcome, pages, hrun, hpages, -, -⟩ := PageManager.allocatePage_cases h.cache.pages
    have hstate : s.allocate none = { s with db := { s.db with pages := pages } } := by
      rw [allocate, run, Database.onPageManager_of_run hrun]
    rw [hstate]
    exact ⟨.grown hidle hpages (Or.inl rfl), hgrow pages hpages⟩
  | some t =>
    rcases PageManager.reservePage_cases s.db.pages with ⟨e, pages, hrun, hsame, -⟩ | ⟨pages, hrun, hreserved⟩
    · have hstate : s.allocate (some t) = { s with db := { s.db with pages := pages } } := by
        rw [allocate, Database.onPageManager_of_run hrun]
      rw [hstate]
      have hpages := hsame.grown h.cache.pages
      exact ⟨.grown hidle hpages (Or.inl rfl), hgrow pages hpages⟩
    · have hstate : s.allocate (some t) = { s with
          db := { s.db with pages := pages }
          calls := Function.update s.calls t (Database.allocateCall (PageId.ofIndex s.db.pages.pageCount)) } := by
        rw [allocate, Database.onPageManager_of_run hrun]
        rfl
      rw [hstate]
      have hpages := hreserved.grown h.cache.pages
      exact ⟨.grown hidle hpages (Or.inr ⟨t, rfl, rfl, hreserved⟩), hgrow pages hpages⟩

theorem resume_cases (h : s.db.Inv) (t : TransactionId) : Stepped s (.resume t) (s.resume t) ∧ (s.resume t).db.Inv := by
  cases hcall : s.calls t with
  | nil =>
    rw [resume, hcall]
    exact ⟨.stayed, h⟩
  | cons action rest =>
    obtain ⟨hpiece, hinv⟩ := Database.perform_cases h t action
    have hstate : s.resume t = ({ s with db := ((Database.perform t action).run s.db).2 }).enter t
        (afterPiece ((Database.perform t action).run s.db).1 rest) := by
      rw [resume, hcall]
      dsimp only
      cases (Database.perform t action).run s.db with
      | mk outcome db => cases outcome <;> rfl
    rw [hstate]
    exact ⟨.resumed hcall hpiece, hinv⟩

theorem step_cases (h : s.db.Inv) (step : Step) : Stepped s step (s.step step) ∧ (s.step step).db.Inv := by
  cases step with
  | begin => exact begin_cases h
  | access client id change =>
    rw [System.step]
    split
    · rename_i hidle
      obtain ⟨haccess, hinv⟩ := Database.accessPage_cases h client id fun payload => (change payload, ())
      exact ⟨.accessed hidle haccess, hinv⟩
    · exact ⟨.stayed, h⟩
  | allocate client =>
    rw [System.step]
    split
    · rename_i hidle
      exact allocate_cases h hidle
    · exact ⟨.stayed, h⟩
  | commit t =>
    rw [System.step]
    split
    · rename_i hready
      rw [Bool.and_eq_true, Bool.not_eq_true'] at hready
      exact ⟨.committing hready.1 hready.2, h⟩
    · exact ⟨.stayed, h⟩
  | abort t =>
    rw [System.step]
    split
    · rename_i hready
      rw [Bool.and_eq_true, Bool.not_eq_true'] at hready
      exact ⟨.aborting hready.1 hready.2, h⟩
    · exact ⟨.stayed, h⟩
  | resume t => exact resume_cases h t
  | lock request =>
    rw [System.step]
    split
    · rename_i hidle
      exact ⟨.locked (Or.inl ⟨request, rfl, rfl, hidle⟩), h.of_locking _⟩
    · exact ⟨.stayed, h⟩
  | wake request => exact ⟨.locked (Or.inr (Or.inl ⟨request, rfl, rfl⟩)), h.of_locking _⟩
  | unlock t resource =>
    rw [System.step]
    split
    · exact ⟨.locked (Or.inr (Or.inr ⟨t, resource, rfl, rfl⟩)), h.of_locking _⟩
    · exact ⟨.stayed, h⟩
  | pin id => exact stepped_onCache h (Cache.calm_fetchPage id) (.pin id)
  | unpin id => exact stepped_onCache h (Cache.calm_unpinPage id) (.unpin id)
  | flushPage id => exact stepped_onCache h (Cache.calm_flushPage id) (.flushPage id)
  | flushAllPages => exact stepped_onCache h Cache.calm_flushAllPages .flushAllPages
  | deletePage id => exact stepped_onCache h (Cache.calm_deletePage id) (.deletePage id)
  | flushLog =>
    rcases LogManager.flush_cases s.db.log with ⟨e, log, hrun, hflushed, hdurable, -⟩ | ⟨log, hrun, hflushed, hdurable⟩
    · have hstate : s.step .flushLog = { s with db := s.db.withLog log } := by
        rw [System.step, run, Database.onLog_of_run hrun]
      rw [hstate]
      exact ⟨.synced hflushed (Or.inl hdurable), h.of_log (hflushed.wellFormed h.log (Or.inl hdurable))⟩
    · have hstate : s.step .flushLog = { s with db := s.db.withLog log } := by
        rw [System.step, run, Database.onLog_of_run hrun]
      rw [hstate]
      exact ⟨.synced hflushed (Or.inr hdurable), h.of_log (hflushed.wellFormed h.log (Or.inr hdurable))⟩

theorem inv_step (h : s.db.Inv) (step : Step) : (s.step step).db.Inv := (step_cases h step).2

theorem inv_exec (h : s.db.Inv) (run : List Step) : (exec System.step s run).db.Inv :=
  exec_keeps (P := fun s : System => s.db.Inv) (fun _ step h => inv_step h step) h

/-! ## The log and the pages after a step -/

/-- What becomes of the log: nothing, an append that may have failed, or a flush. -/
inductive LogChange (log log' : LogManager) : List WalRecord → Prop where
  | same (h : log' = log) : LogChange log log' []
  | appended {new : List WalRecord} (h : log.Appended log' new) : LogChange log log' new
  | flushed (h : log.Flushed log')
      (hdurable : log'.durableLsn = log.durableLsn ∨ log'.durableLsn = log.nextLsn - 1) : LogChange log log' []

section LogChange

variable {log log' : LogManager} {new : List WalRecord} (h : LogChange log log' new)

include h

theorem LogChange.records : log'.records = log.records ++ new := by
  cases h with
  | same h => rw [h, List.append_nil]
  | appended h => exact h.records
  | flushed h _ => rw [h.records, List.append_nil]

theorem LogChange.healthy (hlog : log.Healthy) : log'.Healthy := by
  cases h with
  | same h => exact h ▸ hlog
  | appended h | flushed h _ => exact h.healthy hlog

theorem LogChange.durable_le (hlog : log.WellFormed) : log.durableLsn ≤ log'.durableLsn := by
  cases h with
  | same h => rw [h]
  | appended h => exact h.durableLsn.ge
  | flushed _ hdurable =>
    rcases hdurable with hsame | hnow
    · exact hsame.ge
    · exact hnow ▸ Nat.le_sub_one_of_lt hlog.durable_lt

end LogChange

/-- The records a step has added. -/
inductive Logs (s : System) : Step → List WalRecord → Prop where
  | nothing {step : Step} : Logs s step []
  | begin : Logs s .begin [⟨s.db.log.nextLsn, s.db.nextId, .begin, []⟩]
  | mutation {t : TransactionId} {id : PageId} {change : Payload → Option Payload} {mutation : PhysicalMutation}
      {bytes : Bytes} (hencode : LogManager.encodePhysicalMutation mutation = .ok bytes)
      (hindex : mutation.pageId.index < s.db.pages.pageCount) :
      Logs s (.access (some t) id change) [⟨s.db.log.nextLsn, t, .physicalMutation, bytes⟩]
  | piece {t : TransactionId} {action : Action} {rest : List Action} {type : WalRecordType} {bytes : Bytes}
      (hcall : s.calls t = action :: rest) (htype : Database.recordOf action = some type)
      (hready : Database.Loggable (s.db.transactions t) action bytes) :
      Logs s (.resume t) [⟨s.db.log.nextLsn, t, type, bytes⟩]

theorem Stepped.log_change {step : Step} (hinv : s.db.Inv) (h : Stepped s step s') :
    ∃ new, LogChange s.db.log s'.db.log new ∧ Logs s step new := by
  cases h with
  | began hlog => exact ⟨_, .appended hlog, .begin⟩
  | notBegan hlog _ => exact ⟨_, .appended hlog, .nothing⟩
  | accessed _ haccess =>
    cases haccess with
    | failed _ _ hstill | read _ _ _ hstill | wrote _ _ _ _ _ hstill => exact ⟨_, .same hstill.log, .nothing⟩
    | captured hclient hview _ _ _ hmutation hencode _ hlog _ =>
      subst hclient
      refine ⟨_, .appended hlog, .mutation hencode ?_⟩
      rw [hmutation]
      exact (Database.view_id hinv hview).2
    | spoiled _ _ _ _ _ hlog _ _ _ => exact hlog.elim (fun h => ⟨_, .same h, .nothing⟩) fun h => ⟨_, .appended h, .nothing⟩
  | resumed hcall hpiece =>
    cases hpiece with
    | undone _ _ _ _ _ _ hlog _ => exact ⟨_, .same hlog, .nothing⟩
    | notUndone _ hstill | torn _ _ _ _ hstill => exact ⟨_, .same hstill.log, .nothing⟩
    | logged htype hready hlog => exact ⟨_, .appended hlog, .piece hcall htype hready⟩
    | notLogged _ hlog _ => exact hlog.elim (fun h => ⟨_, .same h, .nothing⟩) fun h => ⟨_, .appended h, .nothing⟩
    | flushed hlog hdurable => exact ⟨_, .flushed hlog (Or.inr hdurable), .nothing⟩
    | notFlushed hlog hdurable _ => exact ⟨_, .flushed hlog (Or.inl hdurable), .nothing⟩
    | _ => exact ⟨_, .same rfl, .nothing⟩
  | quiet _ hstill => exact ⟨_, .same hstill.log, .nothing⟩
  | synced hlog hdurable => exact ⟨_, .flushed hlog hdurable, .nothing⟩
  | _ => exact ⟨_, .same rfl, .nothing⟩

theorem Stepped.logs {step : Step} (hinv : s.db.Inv) (h : Stepped s step s') :
    ∃ new, s'.db.log.records = s.db.log.records ++ new ∧ Logs s step new := by
  obtain ⟨new, hlog, hlogs⟩ := h.log_change hinv
  exact ⟨new, hlog.records, hlogs⟩

/-- What becomes of the pool and the file. -/
inductive PagesChange (s : System) (step : Step) (s' : System) : Prop where
  | same (hpool : s'.db.pool = s.db.pool) (hpages : s'.db.pages = s.db.pages)
  | quiet (h : s.db.cache.Quiet s'.db.cache)
  | wrote {id : PageId} {page : Page} (halloc : s.db.pages.isPageAllocated id = true)
      (h : s.db.cache.Rewrote s'.db.cache id page)
  /-- A capture was left open, or an undo torn. -/
  | moved {id : PageId} {t : TransactionId} (halloc : s.db.pages.isPageAllocated id = true)
      (h : s.db.cache.Moved s'.db.cache id)
      (hreason : (s.db.transactions t).hasUnfinishedCapture = true ∨ ¬ s.db.log.Healthy ∨
        ∃ index rest, s.calls t = .undo index :: rest ∧ (s.db.transactions t).unresolvedAfter index = true)
  | grown (hpool : s'.db.pool = s.db.pool) (h : s.db.pages.Grown s'.db.pages)
  | bitSet {page : PageId} {value : Bool} {t : TransactionId} {rest : List Action} (hpool : s'.db.pool = s.db.pool)
      (h : s.db.pages.BitSet s'.db.pages page value) (hstep : step = .resume t)
      (hcall : s.calls t = (if value then .activate page else .release page) :: rest)

theorem Stepped.pages_change {step : Step} (h : Stepped s step s') : PagesChange s step s' := by
  cases h with
  | accessed _ haccess =>
    cases haccess with
    | failed _ hquiet _ | read _ _ hquiet _ => exact .quiet hquiet
    | wrote _ _ _ halloc hwrote _ | captured _ _ _ _ halloc _ _ hwrote _ _ => exact .wrote halloc hwrote
    | spoiled _ _ _ halloc hmoved _ hreason _ _ => exact .moved halloc hmoved (hreason.imp_right Or.inl)
  | grown _ hpages _ => exact .grown rfl hpages
  | resumed hcall hpiece =>
    cases hpiece with
    | undone _ _ _ _ halloc hwrote _ _ => exact .wrote halloc hwrote
    | notUndone hquiet _ => exact .quiet hquiet
    | torn _ hreason halloc hmoved _ =>
      exact .moved halloc hmoved (hreason.symm.imp_right fun hlater => Or.inr ⟨_, _, hcall, hlater⟩)
    | released _ hbit _ | activated _ hbit => exact .bitSet rfl hbit rfl hcall
    | notActivated hpages =>
      rcases hpages with rfl | hbit
      · exact .same rfl rfl
      · exact .bitSet rfl hbit rfl hcall
    | _ => exact .same rfl rfl
  | quiet hquiet _ => exact .quiet hquiet
  | _ => exact .same rfl rfl

theorem PagesChange.pageCount_le {step : Step} (h : PagesChange s step s') : s.db.pages.pageCount ≤ s'.db.pages.pageCount := by
  cases h with
  | same _ h => rw [h]
  | quiet h | wrote _ h | moved _ h _ | bitSet _ h _ _ => exact h.pageCount.ge
  | grown _ h => exact h.pageCount

theorem pageCount_step (hinv : s.db.Inv) (step : Step) : s.db.pages.pageCount ≤ (s.step step).db.pages.pageCount :=
  (step_cases hinv step).1.pages_change.pageCount_le

/-- A file that works keeps working. -/
theorem synced_step (hinv : s.db.Inv) (h : s.db.pages.Synced) (step : Step) : (s.step step).db.pages.Synced := by
  cases (step_cases hinv step).1.pages_change with
  | same _ hc => exact hc ▸ h
  | quiet hc | wrote _ hc | moved _ hc _ | grown _ hc | bitSet _ hc _ _ => exact hc.synced h

/-- A transaction id that has not been given out has no transaction. -/
def Fresh (s : System) : Prop :=
  ∀ t, s.db.nextId ≤ t → s.db.transactions t = .fresh true ∧ s.begun t = false ∧ s.calls t = []

theorem Fresh.lt_of_idle (h : s.Fresh) {t : TransactionId} (hidle : s.idle t = true) : t < s.db.nextId := by
  by_contra hge
  obtain ⟨-, hbegun, -⟩ := h t (Nat.le_of_not_lt hge)
  simp [idle, hbegun] at hidle

theorem Fresh.lt_of_call (h : s.Fresh) {t : TransactionId} {action : Action} (hcall : s.calls t = action :: rest) :
    t < s.db.nextId := by
  by_contra hge
  obtain ⟨-, -, hcalls⟩ := h t (Nat.le_of_not_lt hge)
  simp [hcalls] at hcall

/-- Nothing happened to the transactions that are not there yet. -/
theorem Fresh.of_update (h : s.Fresh) {owner : TransactionId} (howner : owner < s.db.nextId)
    (hnext : s'.db.nextId = s.db.nextId) (hbegun : s'.begun = s.begun)
    (htx : ∀ t, t ≠ owner → s'.db.transactions t = s.db.transactions t) (hcalls : ∀ t, t ≠ owner → s'.calls t = s.calls t) :
    s'.Fresh := by
  intro t ht
  rw [hnext] at ht
  have hne : t ≠ owner := (Nat.lt_of_lt_of_le howner ht).ne'
  rw [htx t hne, hbegun, hcalls t hne]
  exact h t ht

theorem fresh_step (hinv : s.db.Inv) (h : s.Fresh) (step : Step) : (s.step step).Fresh := by
  have hstep := (step_cases hinv step).1
  generalize s.step step = s' at hstep
  have hsame : ∀ {db : Database}, Database.Still s.db db → ({ s with db := db } : System).Fresh := by
    intro db hstill t ht
    rw [hstill.transactions]
    exact h t (hstill.nextId ▸ ht)
  cases hstep with
  | stayed => exact h
  | began hlog =>
    intro t ht
    have hlt : s.db.nextId < t := ht
    obtain ⟨htx, hbegun, hcalls⟩ := h t hlt.le
    exact ⟨(Function.update_of_ne hlt.ne' _ _).trans htx, (Function.update_of_ne hlt.ne' _ _).trans hbegun, hcalls⟩
  | notBegan hlog hsick => exact fun t ht => h t (Nat.le_of_succ_le ht)
  | accessed hidle haccess =>
    cases haccess with
    | failed _ _ hstill | read _ _ _ hstill | wrote _ _ _ _ _ hstill => exact hsame hstill
    | captured hclient _ _ _ _ _ _ _ _ hrest | spoiled hclient _ _ _ _ _ _ _ hrest =>
      subst hclient
      refine h.of_update (h.lt_of_idle hidle) hrest.nextId rfl (fun t hne => ?_) fun _ _ => rfl
      rw [hrest.transactions, Function.update_of_ne hne]
  | grown hidle hpages hcalls =>
    rcases hcalls with rfl | ⟨owner, rfl, rfl, -⟩
    · exact h
    · exact h.of_update (h.lt_of_idle hidle) rfl rfl (fun _ _ => rfl) fun t hne => Function.update_of_ne hne _ _
  | committing hidle hstate | aborting hidle hstate =>
    exact h.of_update (h.lt_of_idle hidle) rfl rfl (fun _ _ => rfl) fun t hne => Function.update_of_ne hne _ _
  | resumed hcall hpiece =>
    refine h.of_update (h.lt_of_call hcall) ?_ rfl (fun t => hpiece.transactions_of_ne) fun t hne => Function.update_of_ne hne _ _
    cases hpiece with
    | undone _ _ _ _ _ _ _ h | notUndone _ h | torn _ _ _ _ h => exact h.nextId
    | _ => rfl
  | locked hstep => exact h
  | quiet _ hstill => exact hsame hstill
  | synced hlog hdurable => exact h

/-! ## The order of a rollback -/

def NoUndo (call : List Action) : Prop := ∀ index, .undo index ∉ call

/-- What a transaction in this call looks like: inside the loop over its mutations, those behind the next one are undone and
no capture is open. -/
inductive Ordered (tx : Transaction) : List Action → Prop where
  | other {call : List Action} (hcall : NoUndo call) : Ordered tx call
  | entering {rest : List Action} (hrest : NoUndo rest) :
      Ordered tx (.checkCapture :: ((List.range tx.pendingMutations.length).reverse.map .undo ++ rest))
  | undoing {n : Nat} {rest : List Action} (hrest : NoUndo rest) (hclosed : tx.hasUnfinishedCapture = false)
      (hlater : ∀ resolved ∈ tx.undoResolved.drop n, resolved = true) :
      Ordered tx ((List.range n).reverse.map .undo ++ rest)

def CallsOrdered (s : System) : Prop := ∀ t, Ordered (s.db.transactions t) (s.calls t)

theorem NoUndo.nil : NoUndo [] := by simp [NoUndo]

theorem NoUndo.of_cons {action : Action} (h : NoUndo (action :: rest)) : NoUndo rest :=
  fun index hmem => h index (List.mem_cons_of_mem action hmem)

theorem NoUndo.afterPiece (h : NoUndo rest) {α : Type} (outcome : Except Err α) : NoUndo (afterPiece outcome rest) := by
  cases outcome with
  | ok _ => exact h
  | error _ => exact .nil

theorem ordered_abortCall (tx : Transaction) : Ordered tx (Database.abortCall tx) := by
  rw [Database.abortCall, Database.rollbackCall, List.cons_append, List.append_assoc]
  exact .entering (by simp [NoUndo])

theorem range_succ_undo (n : Nat) :
    (List.range (n + 1)).reverse.map Action.undo = .undo n :: (List.range n).reverse.map .undo := by
  rw [List.range_succ, List.reverse_append, List.reverse_singleton, List.singleton_append, List.map_cons]

/-- The next piece of an undo loop is the last mutation that may still have to be undone. -/
theorem Ordered.undo_next {tx : Transaction} {index : Nat} (h : Ordered tx (.undo index :: rest)) :
    (∃ tail, rest = (List.range index).reverse.map .undo ++ tail ∧ NoUndo tail) ∧ tx.hasUnfinishedCapture = false ∧
      tx.unresolvedAfter index = false := by
  generalize hcall : Action.undo index :: rest = call at h
  cases h with
  | other hno => exact absurd (hcall ▸ List.mem_cons_self) (hno index)
  | entering hno => cases hcall
  | @undoing n tail hno hclosed hlater =>
    cases n with
    | zero =>
      obtain rfl : Action.undo index :: rest = tail := hcall
      exact absurd List.mem_cons_self (hno index)
    | succ n =>
      rw [range_succ_undo, List.cons_append, List.cons.injEq, Action.undo.injEq] at hcall
      obtain ⟨rfl, rfl⟩ := hcall
      exact ⟨⟨tail, rfl, hno⟩, hclosed, by simpa [Transaction.unresolvedAfter] using hlater⟩

theorem forall_drop_of_resolved {tx : Transaction} {index : Nat} (hlater : tx.unresolvedAfter index = false)
    (hresolved : tx.resolved index = true) : ∀ resolved ∈ tx.undoResolved.drop index, resolved = true := by
  have hlt : index < tx.undoResolved.length := by
    by_contra hge
    rw [Transaction.resolved, List.getD_eq_default _ _ (Nat.le_of_not_lt hge)] at hresolved
    cases hresolved
  rw [Transaction.resolved, List.getD_eq_getElem _ _ hlt] at hresolved
  rw [List.drop_eq_getElem_cons hlt]
  exact List.forall_mem_cons.mpr ⟨hresolved, by simpa [Transaction.unresolvedAfter] using hlater⟩

/-- The piece at the head of a call keeps the order. -/
theorem Ordered.performed {db : Database} {t : TransactionId} {action : Action} {result : Except Err Unit × Database}
    (hinv : (db.transactions t).Inv) (h : Ordered (db.transactions t) (action :: rest))
    (hpiece : Database.Performed db t action result) : Ordered (result.2.transactions t) (afterPiece result.1 rest) := by
  have hother : (∀ index, action ≠ .undo index) → action ≠ .checkCapture → NoUndo (afterPiece result.1 rest) := by
    intro hundo hcheck
    generalize hcall : action :: rest = call at h
    cases h with
    | other hno => exact (hcall ▸ hno : NoUndo (action :: rest)).of_cons.afterPiece _
    | entering hno => exact absurd (List.cons.inj hcall).1 hcheck
    | @undoing n tail hno hclosed hlater =>
      cases n with
      | zero =>
        obtain rfl : action :: rest = tail := hcall
        exact hno.of_cons.afterPiece _
      | succ n =>
        rw [range_succ_undo, List.cons_append] at hcall
        exact absurd (List.cons.inj hcall).1 (hundo n)
  cases hpiece with
  | checked hclosed =>
    generalize hcall : Action.checkCapture :: rest = call at h
    cases h with
    | other hno => exact .other (hcall ▸ hno : NoUndo (_ :: rest)).of_cons
    | entering hno =>
      obtain rfl := (List.cons.inj hcall).2
      refine .undoing hno hclosed ?_
      rw [← hinv.length, List.drop_length]
      exact fun _ hmem => nomatch hmem
    | @undoing n tail hno hclosed hlater =>
      cases n with
      | zero =>
        obtain rfl : Action.checkCapture :: rest = tail := hcall
        exact .other hno.of_cons
      | succ n =>
        rw [range_succ_undo, List.cons_append] at hcall
        cases (List.cons.inj hcall).1
  | skipped hresolved =>
    obtain ⟨⟨tail, rfl, hno⟩, hclosed, hlater⟩ := h.undo_next
    exact .undoing hno hclosed (forall_drop_of_resolved hlater hresolved)
  | @undone index mutation _ _ hmutation _ _ _ _ _ _ hrest =>
    obtain ⟨⟨tail, rfl, hno⟩, hclosed, hlater⟩ := h.undo_next
    rw [hrest.transactions, Function.update_self]
    have hlt : index < (db.transactions t).undoResolved.length := by
      rw [hinv.length]
      exact (List.getElem?_eq_some_iff.mp hmutation).1
    refine .undoing hno hclosed (forall_drop_of_resolved ?_ ?_)
    · rw [Transaction.unresolvedAfter, Database.resolvedAt, List.drop_set_of_lt (Nat.lt_succ_self index)]
      exact hlater
    · simp [Transaction.resolved, Database.resolvedAt, hlt]
  | refused _ | notUndone _ _ | torn _ _ _ _ _ | notLogged _ _ _ => exact .other .nil
  | logged htype _ _ =>
    refine .other (hother ?_ ?_)
    · rintro index rfl
      cases htype
    · rintro rfl
      cases htype
  | _ => exact .other (hother (by simp) (by simp))

theorem callsOrdered_step (hinv : s.db.Inv) (hfresh : s.Fresh) (h : s.CallsOrdered) (step : Step) :
    (s.step step).CallsOrdered := by
  have hstep := (step_cases hinv step).1
  generalize s.step step = s' at hstep
  intro t
  have hidle : s.idle t = true → s.calls t = [] := by
    intro hidle
    simpa [idle] using (Bool.and_eq_true_iff.mp hidle).2
  -- Another transaction entered a call, or this one did.
  have henter : ∀ {owner : TransactionId} {call : List Action},
      (t = owner → Ordered (s.db.transactions t) call) → Ordered (s.db.transactions t) (Function.update s.calls owner call t) := by
    intro owner call hcall
    rw [Function.update_apply]
    split
    · rename_i heq
      exact hcall heq
    · exact h t
  cases hstep with
  | stayed => exact h t
  | began hlog =>
    by_cases ht : t = s.db.nextId
    · subst ht
      have hnone := (hfresh s.db.nextId le_rfl).2.2
      exact .other (by rw [hnone]; exact .nil)
    · have htx : Function.update s.db.transactions s.db.nextId (.fresh true) t = s.db.transactions t :=
        Function.update_of_ne ht _ _
      change Ordered (Function.update s.db.transactions s.db.nextId (.fresh true) t) (s.calls t)
      rw [htx]
      exact h t
  | notBegan hlog hsick => exact h t
  | @accessed client id change result hclient haccess =>
    -- The client is in no call.
    have hupdate : ∀ {owner : TransactionId} {tx : Transaction}, client = some owner →
        result.2.transactions = Function.update s.db.transactions owner tx →
        Ordered (result.2.transactions t) (s.calls t) := by
      rintro owner tx rfl htx
      by_cases ht : t = owner
      · subst ht
        exact .other (by rw [hidle hclient]; exact .nil)
      · rw [htx, Function.update_of_ne ht]
        exact h t
    cases haccess with
    | failed _ _ hstill | read _ _ _ hstill | wrote _ _ _ _ _ hstill => exact hstill.transactions ▸ h t
    | captured howner _ _ _ _ _ _ _ _ hrest | spoiled howner _ _ _ _ _ _ _ hrest => exact hupdate howner hrest.transactions
  | grown hclient hpages hcalls =>
    rcases hcalls with rfl | ⟨owner, rfl, rfl, -⟩
    · exact h t
    · exact henter fun _ => .other (by simp [NoUndo, Database.allocateCall])
  | committing hclient hstate => exact henter fun _ => .other (by simp [NoUndo, Database.commitCall])
  | aborting hclient hstate => exact henter fun heq => heq ▸ ordered_abortCall _
  | @resumed owner action rest result hcall hpiece =>
    by_cases ht : t = owner
    · subst ht
      change Ordered (result.2.transactions t) (Function.update s.calls t _ t)
      rw [Function.update_self]
      exact (hcall ▸ h t : Ordered _ (action :: rest)).performed (hinv.transactions t) hpiece
    · change Ordered (result.2.transactions t) (Function.update s.calls owner _ t)
      rw [Function.update_of_ne ht, hpiece.transactions_of_ne ht]
      exact h t
  | locked hlock => exact h t
  | quiet _ hstill => exact hstill.transactions ▸ h t
  | synced hlog hdurable => exact h t

/-- What holds between any two steps. -/
structure Inv (s : System) : Prop where
  db : s.db.Inv
  fresh : s.Fresh
  ordered : s.CallsOrdered

theorem Inv.step (h : s.Inv) (step : Step) : (s.step step).Inv :=
  ⟨inv_step h.db step, fresh_step h.db h.fresh step, callsOrdered_step h.db h.fresh h.ordered step⟩

theorem Inv.exec (h : s.Inv) (run : List Step) : (exec System.step s run).Inv :=
  exec_keeps (P := System.Inv) (fun _ step h => h.step step) h

/-- What is asked of the files at the start. -/
def Initial (s : System) : Prop :=
  ∃ pages capacity log, s = .start pages capacity log ∧ pages.WellFormed ∧ log.WellFormed

theorem Initial.inv (h : s.Initial) : s.db.Inv := by
  obtain ⟨pages, capacity, log, rfl, hpages, hlog⟩ := h
  refine ⟨⟨hpages, BufferPool.inv_create capacity, ?_⟩, fun _ => rfl, hlog, fun _ => Transaction.inv_fresh⟩
  intro id f hf
  simp [System.start, BufferPool.create, Database.cache] at hf

theorem Initial.fresh (h : s.Initial) : s.Fresh := by
  obtain ⟨pages, capacity, log, rfl, -, -⟩ := h
  exact fun _ _ => ⟨rfl, rfl, rfl⟩

theorem Initial.sound (h : s.Initial) : s.Inv := by
  refine ⟨h.inv, h.fresh, fun t => .other ?_⟩
  obtain ⟨pages, capacity, log, rfl, -, -⟩ := h
  exact .nil

/-- A database on a new file and a new log. -/
def new (capacity : Nat) : System := .start .empty capacity .empty

theorem initial_new (capacity : Nat) : (new capacity).Initial :=
  ⟨.empty, capacity, .empty, rfl, PageManager.wellFormed_empty, LogManager.wellFormed_empty⟩

end System

end Ddb.Concurrency
