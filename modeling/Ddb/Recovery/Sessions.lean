import Ddb.Recovery.Crash
import Ddb.Recovery.TerminalRecords

/-!
# Several sessions on one log

The log outlives a session: the next one opens it again, and appends to it. Transaction ids do not outlive it, they are given
out from one again. The analysis knows a transaction by its id alone, so the records of two transactions with one id are
taken together. If no session begins a transaction under an id that the log it was opened on has a record of, every record
is attributed to the transaction that wrote it.
-/

namespace Ddb.Recovery

open Ddb.Lib Ddb.Storage Ddb.Buffer Ddb.Concurrency

structure Session where
  start : System
  run : List Step
  /-- The records of this session that are in the file after its end. -/
  left : List WalRecord

/-- The log the sessions have left. -/
def wal (sessions : List Session) : List WalRecord := sessions.flatMap Session.left

/-- A database file as the sessions before and their recovery have left it, and the log opened again. What the file system
will answer is arbitrary. -/
def Opened (records : List WalRecord) (s : System) : Prop :=
  ∃ pages capacity failNextFlush appendFaults flushFaults, pages.WellFormed ∧ s = .start pages capacity
    { LogManager.reopen records with
      failNextFlush := failNextFlush, appendFaults := appendFaults, flushFaults := flushFaults }

/-- Sessions one after the other on a log that was empty. Each ends by a close or a crash: what it leaves in the file are some
of its records, the durable ones among them. -/
inductive Sessions : List Session → Prop where
  | none : Sessions []
  | next {sessions : List Session} {session : Session} (h : Sessions sessions) (hopened : Opened (wal sessions) session.start)
      (hleft : Survives (exec System.step session.start session.run).db.log (wal sessions ++ session.left)) :
      Sessions (sessions ++ [session])

/-- The analysis accepts the log, and what it says of a transaction is what the transaction's own session wrote. -/
def Attributed (sessions : List Session) : Prop :=
  ∃ state, RecoveryAnalyzer.analyze (wal sessions) = .ok state ∧ ∀ session ∈ sessions, ∀ t, mentions session.left t = true →
    ∃ transaction, state.transaction t = some transaction ∧
      (transaction.status = .committed ↔ has .commit session.left t = true) ∧
      (∀ index ∈ transaction.mutationIndexes, ∃ record ∈ session.left, state.mutations[index]? = mutationOf record) ∧
      ∀ index ∈ transaction.allocationIndexes, ∃ record ∈ session.left, state.allocations[index]? = allocationOf record

/-- A transaction is begun only under an id that the log the session was opened on has no record of. -/
def BeginsUnused (before : List WalRecord) (s : System) : Step → Prop
  | .begin => mentions before s.db.nextId = false
  | _ => True

/-- Every step of every session meets the two conditions. -/
def Careful (sessions : List Session) : Prop :=
  ∀ earlier session later, sessions = earlier ++ session :: later →
    EachStep System.step (fun s step => BeginsUnused (wal earlier) s step ∧ s.EndsOnce step) session.start session.run

variable {sessions : List Session} {session : Session} {before : List WalRecord} {s s' : System} {t : TransactionId}

theorem wal_append : wal (sessions ++ [session]) = wal sessions ++ session.left := by
  simp [wal]

/-! ## Within a session -/

/-- The session has written records of its own transactions only, and these have no record in the log it was opened on. -/
structure Authored (before : List WalRecord) (s : System) : Prop where
  records : ∃ new, s.db.log.records = before ++ new ∧ ∀ record ∈ new, s.begun record.transactionId = true
  calls : ∀ t, s.calls t ≠ [] → s.begun t = true
  unused : ∀ t, s.begun t = true → mentions before t = false

theorem begun_of_idle (h : s.idle t = true) : s.begun t = true := (Bool.and_eq_true_iff.mp h).1

/-- A step that begins no transaction. -/
theorem Authored.keep (h : Authored before s) (hbegun : s'.begun = s.begun)
    (hrecords : ∃ new, s'.db.log.records = s.db.log.records ++ new ∧ ∀ record ∈ new, s.begun record.transactionId = true)
    (hcalls : ∀ t, s'.calls t ≠ [] → s.calls t ≠ [] ∨ s.begun t = true) : Authored before s' := by
  obtain ⟨old, hold, hauthors⟩ := h.records
  obtain ⟨new, hnew, hauthors'⟩ := hrecords
  refine ⟨⟨old ++ new, by rw [hnew, hold, List.append_assoc], ?_⟩, ?_, ?_⟩
  · rw [hbegun]
    exact List.forall_mem_append.mpr ⟨hauthors, hauthors'⟩
  · rw [hbegun]
    exact fun t hne => (hcalls t hne).elim (h.calls t) id
  · rw [hbegun]
    exact h.unused

theorem authored_step (hinv : s.db.Inv) (h : Authored before s) {step : Step} (hbegins : BeginsUnused before s step) :
    Authored before (s.step step) := by
  have hstep := (System.step_cases hinv step).1
  generalize s.step step = s' at hstep
  obtain ⟨new, hrecords, hlogs⟩ := hstep.logs hinv
  -- A step that leaves the log alone.
  have hsame : s'.db.log.records = s.db.log.records →
      ∃ new, s'.db.log.records = s.db.log.records ++ new ∧ ∀ record ∈ new, s.begun record.transactionId = true :=
    fun heq => ⟨[], by rw [heq, List.append_nil], fun _ hmem => nomatch hmem⟩
  have henter : ∀ {owner : TransactionId} {call : List Action}, s.begun owner = true →
      ∀ t, Function.update s.calls owner call t ≠ [] → s.calls t ≠ [] ∨ s.begun t = true := by
    intro owner call howner t hne
    by_cases ht : t = owner
    · exact Or.inr (ht ▸ howner)
    · rw [Function.update_of_ne ht] at hne
      exact Or.inl hne
  cases hstep with
  | began hlog =>
    have hmono : ∀ t, s.begun t = true → Function.update s.begun s.db.nextId true t = true := by
      intro t ht
      rw [Function.update_apply, ht, ite_self]
    obtain ⟨old, hold, hauthors⟩ := h.records
    refine ⟨⟨old ++ _, (hlog.records.trans (by rw [hold, List.append_assoc])), ?_⟩, fun t hne => hmono t (h.calls t hne), ?_⟩
    · refine List.forall_mem_append.mpr ⟨fun record hmem => hmono _ (hauthors record hmem), ?_⟩
      exact List.forall_mem_singleton.mpr (Function.update_self _ _ _)
    · intro t ht
      by_cases hnew : t = s.db.nextId
      · exact hnew ▸ hbegins
      · exact h.unused t (by rwa [← Function.update_of_ne hnew true s.begun])
  | notBegan hlog _ => exact h.keep rfl ⟨_, hlog.records, fun _ hmem => nomatch hmem⟩ fun _ hne => Or.inl hne
  | accessed hidle _ =>
    refine h.keep rfl ⟨new, hrecords, ?_⟩ fun _ hne => Or.inl hne
    cases hlogs with
    | nothing => exact fun _ hmem => nomatch hmem
    | mutation _ _ => exact List.forall_mem_singleton.mpr (begun_of_idle hidle)
  | grown hidle _ hcalls =>
    rcases hcalls with rfl | ⟨owner, rfl, rfl, -⟩
    · exact h.keep rfl (hsame rfl) fun _ hne => Or.inl hne
    · exact h.keep rfl (hsame rfl) (henter (begun_of_idle hidle))
  | committing hidle _ | aborting hidle _ => exact h.keep rfl (hsame rfl) (henter (begun_of_idle hidle))
  | resumed hcall _ =>
    have howner : s.begun _ = true := h.calls _ (by rw [hcall]; exact List.cons_ne_nil _ _)
    refine h.keep rfl ⟨new, hrecords, ?_⟩ (henter howner)
    cases hlogs with
    | nothing => exact fun _ hmem => nomatch hmem
    | piece _ _ _ => exact List.forall_mem_singleton.mpr howner
  | quiet _ hstill => exact h.keep rfl (hsame (by rw [hstill.log])) fun _ hne => Or.inl hne
  | synced hlog _ => exact h.keep rfl (hsame hlog.records) fun _ hne => Or.inl hne
  | _ => exact h.keep rfl (hsame rfl) fun _ hne => Or.inl hne

/-! ## Opening the log again -/

theorem wellFormed_reopen (hpos : ∀ record ∈ before, 0 < record.lsn) (hincreasing : before.Pairwise fun a b => a.lsn < b.lsn) :
    (LogManager.reopen before).WellFormed := by
  refine ⟨Nat.succ_pos _, hpos, fun record hmem => Nat.lt_succ_of_le ?_, hincreasing, Nat.lt_succ_self _⟩
  obtain ⟨first, last, rfl⟩ := (List.eq_nil_or_concat before).resolve_left (List.ne_nil_of_mem hmem)
  rw [List.concat_eq_append, List.getLast?_concat, Option.elim_some]
  rw [List.concat_eq_append] at hmem hincreasing
  rcases List.mem_append.mp hmem with hfirst | hlast
  · exact ((List.pairwise_append.mp hincreasing).2.2 record hfirst last List.mem_cons_self).le
  · rw [List.mem_singleton.mp hlast]

theorem Opened.initial (h : Opened before s) (hlog : (LogManager.reopen before).WellFormed) : s.Initial := by
  obtain ⟨pages, capacity, failNextFlush, appendFaults, flushFaults, hpages, rfl⟩ := h
  exact ⟨pages, capacity, _, rfl, hpages, hlog.next_pos, hlog.lsn_pos, hlog.lsn_lt, hlog.increasing, hlog.durable_lt⟩

theorem Opened.records (h : Opened before s) : s.db.log.records = before := by
  obtain ⟨pages, capacity, failNextFlush, appendFaults, flushFaults, hpages, rfl⟩ := h
  rfl

theorem Opened.authored (h : Opened before s) : Authored before s := by
  obtain ⟨pages, capacity, failNextFlush, appendFaults, flushFaults, hpages, rfl⟩ := h
  exact ⟨⟨[], (List.append_nil before).symm, fun _ hmem => nomatch hmem⟩, fun t hne => absurd rfl hne, fun t ht => nomatch ht⟩

/-- What a session has added to the log. -/
theorem session_left (hopened : Opened before s) (hlog : (LogManager.reopen before).WellFormed)
    (haccepted : ∃ state, RecoveryAnalyzer.analyze before = .ok state) {run : List Step} {left : List WalRecord}
    (hcareful : EachStep System.step (fun s step => BeginsUnused before s step ∧ s.EndsOnce step) s run)
    (hleft : Survives (exec System.step s run).db.log (before ++ left)) :
    (LogManager.reopen (before ++ left)).WellFormed ∧ (∃ state, RecoveryAnalyzer.analyze (before ++ left) = .ok state) ∧
      ∀ t, mentions left t = true → mentions before t = false := by
  have hinit := hopened.initial hlog
  have hlast := (always_of_eachStep (P := fun s : System => s.db.Inv ∧ Authored before s ∧ s.Acceptable)
    (fun _ step h hc => ⟨System.inv_step h.1 step, authored_step h.1 h.2.1 hc.1, System.acceptable_step h.1 h.2.2 hc.2⟩)
    ⟨hinit.inv, hopened.authored, hinit.acceptable (by rwa [hopened.records])⟩ hcareful).last
  obtain ⟨hinv, hauthored, hacceptable⟩ := hlast
  refine ⟨wellFormed_reopen (fun record hmem => hinv.log.lsn_pos record (hleft.beginning.subset hmem))
    (hinv.log.increasing.sublist hleft.beginning.sublist), hacceptable.analyze hleft.beginning, fun t hmentions => ?_⟩
  obtain ⟨new, hnew, hauthors⟩ := hauthored.records
  obtain ⟨record, hmem, hrecord⟩ := List.any_eq_true.mp hmentions
  have hbeginning := hleft.beginning
  rw [hnew, List.prefix_append_right_inj] at hbeginning
  rw [← of_decide_eq_true hrecord]
  exact hauthored.unused _ (hauthors record (hbeginning.subset hmem))

/-! ## All sessions -/

theorem mentions_of_mem {records : List WalRecord} {record : WalRecord} (h : record ∈ records) :
    mentions records record.transactionId = true :=
  List.any_eq_true.mpr ⟨record, h, decide_eq_true rfl⟩

/-- The log of careful sessions can be opened and analyzed, and no two sessions have records of one id. -/
theorem sessions_apart (h : Sessions sessions) (hcareful : Careful sessions) :
    (LogManager.reopen (wal sessions)).WellFormed ∧ (∃ state, RecoveryAnalyzer.analyze (wal sessions) = .ok state) ∧
      ∀ session ∈ sessions, ∀ record ∈ wal sessions, mentions session.left record.transactionId = true → record ∈ session.left := by
  induction h with
  | none => exact ⟨wellFormed_reopen (fun _ hmem => nomatch hmem) .nil, ⟨_, rfl⟩, fun _ hmem => nomatch hmem⟩
  | @next sessions session h hopened hleft ih =>
    obtain ⟨hlog, haccepted, hapart⟩ := ih fun earlier session' later heq =>
      hcareful earlier session' (later ++ [session]) (by rw [heq, List.append_assoc, List.cons_append])
    obtain ⟨hlog', haccepted', hunused⟩ := session_left hopened hlog haccepted (hcareful sessions session [] rfl) hleft
    rw [wal_append]
    refine ⟨hlog', haccepted', fun other hother record hmem hmentions => ?_⟩
    rcases List.mem_append.mp hother with hold | hnew
    · rcases List.mem_append.mp hmem with hmem | hmem
      · exact hapart other hold record hmem hmentions
      · -- The id of a new record has no record in what the other session left.
        have hnone := hunused _ (mentions_of_mem hmem)
        obtain ⟨witness, hwitness, hid⟩ := List.any_eq_true.mp hmentions
        have hsome : mentions (wal sessions) record.transactionId = true :=
          List.any_eq_true.mpr ⟨witness, List.mem_flatMap.mpr ⟨other, hold, hwitness⟩, hid⟩
        rw [hnone] at hsome
        cases hsome
    · obtain rfl := List.mem_singleton.mp hnew
      rcases List.mem_append.mp hmem with hmem | hmem
      · have hsome := mentions_of_mem hmem
        rw [hunused _ hmentions] at hsome
        cases hsome
      · exact hmem

/-- The entry at a position that the analysis lists for a transaction comes from a record of the transaction. -/
theorem origin_of_findIdxs {α : Type} (of : WalRecord → Option α) {owner : α → Nat} {records : List WalRecord} {index : Nat}
    (howner : ∀ {record entry}, of record = some entry → owner entry = record.transactionId)
    (h : index ∈ (records.filterMap of).findIdxs fun entry => owner entry = t) :
    ∃ record ∈ records, record.transactionId = t ∧ (records.filterMap of)[index]? = of record := by
  obtain ⟨hlt, hid⟩ := List.mem_findIdxs_iff_exists_getElem_pos.mp h
  obtain ⟨record, hmem, hof⟩ := List.mem_filterMap.mp (List.getElem_mem hlt)
  exact ⟨record, hmem, (howner hof).symm.trans (of_decide_eq_true hid), (List.getElem?_eq_getElem hlt).trans hof.symm⟩

theorem records_prefix_exec (hinv : s.db.Inv) (run : List Step) :
    s.db.log.records <+: (exec System.step s run).db.log.records := by
  induction run generalizing s with
  | nil => exact List.prefix_rfl
  | cons step rest ih =>
    obtain ⟨new, hrecords, -⟩ := (System.step_cases hinv step).1.logs hinv
    exact (hrecords ▸ List.prefix_append _ _).trans (ih (System.inv_step hinv step))

/-- A session that is closed, and leaves all its records. -/
def Session.closed (before : List WalRecord) (start : System) (run : List Step) : Session :=
  ⟨start, run, (exec System.step start run).db.log.records.drop before.length⟩

theorem sessions_closed (h : Sessions sessions) (hopened : Opened (wal sessions) s) (hinv : s.db.Inv) (run : List Step) :
    Sessions (sessions ++ [.closed (wal sessions) s run]) := by
  have hkept := records_prefix_exec hinv run
  rw [hopened.records] at hkept
  have hall : wal sessions ++ (Session.closed (wal sessions) s run).left = (exec System.step s run).db.log.records :=
    List.prefix_append_drop hkept |>.symm
  refine .next h hopened ?_
  rw [hall]
  exact ⟨List.prefix_rfl, fun _ hmem _ => hmem⟩

/-- A session in which transaction 1 is begun and committed. -/
def firstSession : Session :=
  .closed [] (.start .empty 1 (.reopen [])) [.allocate none, .begin, .commit 1, .resume 1, .resume 1, .resume 1]

theorem inv_first : firstSession.start.db.Inv :=
  System.Initial.inv ⟨.empty, 1, _, rfl, PageManager.wellFormed_empty, wellFormed_reopen (by simp) .nil⟩

theorem sessions_first : Sessions [firstSession] :=
  sessions_closed .none ⟨.empty, 1, false, [], [], PageManager.wellFormed_empty, rfl⟩ inv_first _

/-- A session on the same files in which transaction 1 is begun, writes page 0, and never ends. -/
def secondSession : Session :=
  .closed (wal [firstSession])
    (.start (exec System.step firstSession.start firstSession.run).db.pages 1 (.reopen (wal [firstSession])))
    [.begin, .access (some 1) (.ofIndex 0) (fun _ => some (.filled 1))]

theorem sessions_second : Sessions [firstSession, secondSession] := by
  have hpages := (System.inv_exec inv_first firstSession.run).cache.pages
  have hopened : Opened (wal [firstSession]) secondSession.start := ⟨_, 1, false, [], [], hpages, rfl⟩
  have hlog : (LogManager.reopen (wal [firstSession])).WellFormed := by
    apply wellFormed_reopen
    · decide +kernel
    · decide +kernel
  exact sessions_closed sessions_first hopened (hopened.initial hlog).inv _

end Ddb.Recovery
