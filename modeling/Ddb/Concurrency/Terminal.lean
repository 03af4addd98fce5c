import Ddb.Concurrency.AbortSafety
import Ddb.Concurrency.Rollback

/-!
# What the log says about a transaction

On files that work, no capture is left open, a clean frame agrees with the disk, and a call of the coordinator that has
written its record runs to its end. So the log says the truth about how a transaction ended: one with a commit record is
`Committed` or in the last pieces of its commit, one with an abort record is `Aborted` or in the last pieces of its abort,
and no transaction has both.
-/

namespace Ddb.Concurrency

open Ddb.Lib Ddb.Storage Ddb.Buffer

namespace System

variable {s s' : System} {t : TransactionId}

/-! ## Files that work -/

structure Working (s : System) : Prop where
  inv : s.Inv
  synced : s.db.pages.Synced
  healthy : s.db.log.Healthy
  closed : ∀ t, (s.db.transactions t).hasUnfinishedCapture = false
  clean : ∀ p, s.db.cache.Clean p

theorem healthy_step (hinv : s.db.Inv) (h : s.db.log.Healthy) (step : Step) : (s.step step).db.log.Healthy := by
  obtain ⟨new, hlog, -⟩ := (step_cases hinv step).1.log_change hinv
  exact hlog.healthy h

theorem clean_of_rewrote {db : Database} {p : PageId} {page : Page} (h : ∀ p, s.db.cache.Clean p)
    (hwrote : s.db.cache.Rewrote db.cache p page) (q : PageId) : db.cache.Clean q := by
  by_cases hq : q = p
  · exact hq ▸ hwrote.clean_self
  · exact hwrote.clean q hq (h q)

/-- A capture is left open, or an undo torn, only when a file fails. -/
theorem Working.step (h : s.Working) (step : Step) : (s.step step).Working := by
  refine ⟨h.inv.step step, synced_step h.inv.db h.synced step, healthy_step h.inv.db h.healthy step, ?_, ?_⟩
  · intro t
    have hstep := (step_cases h.inv.db step).1
    generalize s.step step = s' at hstep
    have hupdate : ∀ {db : Database} {owner : TransactionId} {tx : Transaction},
        db.transactions = Function.update s.db.transactions owner tx →
        tx.hasUnfinishedCapture = (s.db.transactions owner).hasUnfinishedCapture →
        (db.transactions t).hasUnfinishedCapture = false := by
      intro db owner tx htx hsame
      rw [htx, Function.update_apply]
      split
      · exact hsame.trans (h.closed owner)
      · exact h.closed t
    cases hstep with
    | began hlog =>
      change (Function.update s.db.transactions s.db.nextId (.fresh true) t).hasUnfinishedCapture = false
      rw [Function.update_apply]
      split
      · rfl
      · exact h.closed t
    | accessed hidle haccess =>
      cases haccess with
      | failed _ _ hstill | read _ _ _ hstill | wrote _ _ _ _ _ hstill => exact hstill.transactions ▸ h.closed t
      | captured _ _ _ _ _ _ _ _ _ hrest => exact hupdate hrest.transactions rfl
      | @spoiled owner _ _ _ _ _ _ _ _ _ _ _ _ hreason _ _ =>
        rcases hreason with hopen | hsick
        · rw [h.closed owner] at hopen
          cases hopen
        · exact absurd h.healthy hsick
    | resumed hcall hpiece =>
      cases hpiece with
      | undone _ _ _ _ _ _ _ hrest => exact hupdate hrest.transactions rfl
      | notUndone _ hstill | torn _ _ _ _ hstill => exact hstill.transactions ▸ h.closed t
      | activated _ _ => exact hupdate rfl rfl
      | _ => exact h.closed t
    | quiet _ hstill => exact hstill.transactions ▸ h.closed t
    | _ => exact h.closed t
  · intro p
    have hpool : (s.step step).db.pool = s.db.pool → s.db.pages.pageCount ≤ (s.step step).db.pages.pageCount →
        (∀ id : PageId, id.index < s.db.pages.pageCount → (s.step step).db.pages.slot id = s.db.pages.slot id) →
        (s.step step).db.cache.Clean p :=
      fun hsame hcount hslot => (Database.Keeps.of_pool h.inv.db p hsame hcount hslot).clean (h.clean p)
    cases (step_cases h.inv.db step).1.pages_change with
    | same hsame hpages => exact hpool hsame (by rw [hpages]) fun _ _ => by rw [hpages]
    | quiet hquiet => exact hquiet.clean p (h.clean p)
    | wrote _ hwrote => exact clean_of_rewrote h.clean hwrote p
    | @moved _ owner _ _ hreason =>
      rcases hreason with hopen | hsick | ⟨index, rest, hcall, hlater⟩
      · rw [h.closed owner] at hopen
        cases hopen
      · exact absurd h.healthy hsick
      · have hordered := h.inv.ordered owner
        rw [hcall] at hordered
        rw [hordered.undo_next.2.2] at hlater
        cases hlater
    | grown hsame hpages => exact hpool hsame hpages.pageCount hpages.slot
    | bitSet hsame hbit _ _ => exact hpool hsame hbit.pageCount.ge fun other _ => hbit.slot other

/-! ## The end of a transaction in the log -/

/-- The log has a record of this type for the transaction. -/
def Recorded (s : System) (type : WalRecordType) (t : TransactionId) : Prop :=
  ∃ record ∈ s.db.log.records, record.type = type ∧ record.transactionId = t

/-- Where a transaction is in its calls, and what the log says about it by then. -/
inductive Phase (s : System) (t : TransactionId) : List Action → Prop where
  | outside {page : PageId} {call : List Action} (hcall : call <:+ Database.allocateCall page)
      (hpage : call ≠ [] → page.index < s.db.pages.pageCount)
      (hcommit : s.Recorded .commit t → s.db.state t = .committed)
      (habort : s.Recorded .abort t → s.db.state t = .aborted) : Phase s t call
  | committing (hrunning : LockSystem.isTerminal (s.db.state t) = false) (hcommit : ¬ s.Recorded .commit t)
      (habort : ¬ s.Recorded .abort t) : Phase s t Database.commitCall
  | committed {call : List Action} (hcall : call = [.flushLog, .endCommit] ∨ call = [.endCommit])
      (hrunning : LockSystem.isTerminal (s.db.state t) = false) (habort : ¬ s.Recorded .abort t) : Phase s t call
  | aborting {undoing : List Action}
      (hundoing : ∀ action ∈ undoing, Database.recordOf action = none ∧ action ≠ .endCommit ∧ action ≠ .endAbort)
      (hrunning : LockSystem.isTerminal (s.db.state t) = false) (hcommit : ¬ s.Recorded .commit t)
      (habort : ¬ s.Recorded .abort t) : Phase s t (undoing ++ [.logAbort, .flushLog, .endAbort])
  | aborted {call : List Action} (hcall : call = [.flushLog, .endAbort] ∨ call = [.endAbort])
      (hrunning : LockSystem.isTerminal (s.db.state t) = false) (hcommit : ¬ s.Recorded .commit t)
      (hundone : s.Undone t) : Phase s t call

def Phases (s : System) : Prop := ∀ t, Phase s t (s.calls t)

theorem Phase.keep {call : List Action} (h : Phase s t call)
    (hrecorded : ∀ type, type = .commit ∨ type = .abort → s'.Recorded type t → s.Recorded type t)
    (hstate : s'.db.state t = s.db.state t) (hpages : s.db.pages.pageCount ≤ s'.db.pages.pageCount)
    (hundone : call ≠ [] → s.Undone t → s'.Undone t) : Phase s' t call := by
  have hcommit := hrecorded .commit (Or.inl rfl)
  have habort := hrecorded .abort (Or.inr rfl)
  cases h with
  | outside hcall hpage hcommitted haborted =>
    exact .outside hcall (fun hne => Nat.lt_of_lt_of_le (hpage hne) hpages)
      (fun hrec => hstate.trans (hcommitted (hcommit hrec))) fun hrec => hstate.trans (haborted (habort hrec))
  | committing hrunning hno hno' => exact .committing (by rwa [hstate]) (fun h => hno (hcommit h)) fun h => hno' (habort h)
  | committed hcall hrunning hno' => exact .committed hcall (by rwa [hstate]) fun h => hno' (habort h)
  | aborting hundoing hrunning hno hno' =>
    exact .aborting hundoing (by rwa [hstate]) (fun h => hno (hcommit h)) fun h => hno' (habort h)
  | aborted hcall hrunning hno hall =>
    refine .aborted hcall (by rwa [hstate]) (fun h => hno (hcommit h)) (hundone ?_ hall)
    rcases hcall with rfl | rfl <;> simp

/-- A transaction in no call. -/
theorem phase_nil : Phase s t [] ↔ (s.Recorded .commit t → s.db.state t = .committed) ∧
    (s.Recorded .abort t → s.db.state t = .aborted) := by
  constructor
  · intro h
    generalize hcall : ([] : List Action) = call at h
    cases h with
    | outside _ _ hcommit habort => exact ⟨hcommit, habort⟩
    | committing _ _ _ => cases hcall
    | committed hshape _ _ => rcases hshape with rfl | rfl <;> cases hcall
    | aborting _ _ _ _ => exact absurd hcall (by simp)
    | aborted hshape _ _ _ => rcases hshape with rfl | rfl <;> cases hcall
  · rintro ⟨hcommit, habort⟩
    exact @Phase.outside s t (.ofIndex 0) [] List.nil_suffix (fun hne => absurd rfl hne) hcommit habort

/-- No transaction has both records. -/
theorem Phases.not_both (h : s.Phases) (hcommit : s.Recorded .commit t) : ¬ s.Recorded .abort t := by
  intro habort
  have hphase := h t
  generalize s.calls t = call at hphase
  cases hphase with
  | outside _ _ hcommitted haborted =>
    have hstate := hcommitted hcommit
    rw [haborted habort] at hstate
    cases hstate
  | committing _ hno _ => exact hno hcommit
  | committed _ _ hno => exact hno habort
  | aborting _ _ hno _ => exact hno hcommit
  | aborted _ _ hno _ => exact hno hcommit

/-- While a rollback is in progress, the transaction has no commit record. -/
theorem Phases.not_committed_of_undo (h : s.Phases) {index : Nat} {rest : List Action}
    (hcall : s.calls t = .undo index :: rest) : ¬ s.Recorded .commit t := by
  have hphase := h t
  rw [hcall] at hphase
  generalize hlist : Action.undo index :: rest = call at hphase
  cases hphase with
  | outside hsuffix _ _ _ =>
    have hmem := hsuffix.subset (hlist ▸ List.mem_cons_self)
    simp [Database.allocateCall] at hmem
  | committing _ _ _ => cases hlist
  | committed hshape _ _ => rcases hshape with rfl | rfl <;> cases hlist
  | aborting _ _ hno _ => exact hno
  | aborted hshape _ _ _ => rcases hshape with rfl | rfl <;> cases hlist

/-- A record of the end of a transaction is written by a piece of a call of it. -/
theorem recorded_append {step : Step} {new : List WalRecord} (hrecords : s'.db.log.records = s.db.log.records ++ new)
    (hlogs : Logs s step new) {type : WalRecordType} (htype : type = .commit ∨ type = .abort) (h : s'.Recorded type t) :
    s.Recorded type t ∨ (step = .resume t ∧
      ∃ action rest, s.calls t = action :: rest ∧ Database.recordOf action = some type) := by
  obtain ⟨record, hmem, rfl, rfl⟩ := h
  rw [hrecords, List.mem_append] at hmem
  rcases hmem with hmem | hmem
  · exact Or.inl ⟨record, hmem, rfl, rfl⟩
  · cases hlogs with
    | nothing => cases hmem
    | begin | mutation _ _ =>
      obtain rfl := List.mem_singleton.mp hmem
      simp at htype
    | piece hcall hrecord hready =>
      obtain rfl := List.mem_singleton.mp hmem
      exact Or.inr ⟨rfl, _, _, hcall, hrecord⟩

theorem Recorded.of_records {type : WalRecordType} (hrecords : s'.db.log.records = s.db.log.records)
    (h : s'.Recorded type t) : s.Recorded type t := by
  rwa [Recorded, hrecords] at h

/-- The state after a piece of a call. -/
abbrev after (s : System) (t : TransactionId) (rest : List Action) (result : Except Err Unit × Database) : System :=
  ({ s with db := result.2 }).enter t (afterPiece result.1 rest)

section Piece

variable {action : Action} {rest : List Action} {result : Except Err Unit × Database}

theorem recorded_of_piece (hinv : s.db.Inv) (hcall : s.calls t = action :: rest)
    (hpiece : Database.Performed s.db t action result) (type : WalRecordType) (htype : type = .commit ∨ type = .abort)
    (hrecord : Database.recordOf action ≠ some type) (hrec : (s.after t rest result).Recorded type t) : s.Recorded type t := by
  obtain ⟨new, hrecords, hlogs⟩ := (Stepped.resumed hcall hpiece).logs hinv
  refine (recorded_append hrecords hlogs htype hrec).resolve_right ?_
  rintro ⟨-, other, tail, hother, hwritten⟩
  rw [hcall] at hother
  obtain ⟨rfl, -⟩ := List.cons.inj hother
  exact hrecord hwritten

/-- A piece that does not end the transaction, and writes no record of its end. -/
theorem resumed_keeps (hinv : s.db.Inv) (hcall : s.calls t = action :: rest) (hpiece : Database.Performed s.db t action result)
    (hrecord : Database.recordOf action ≠ some .commit ∧ Database.recordOf action ≠ some .abort)
    (hend : action ≠ .endCommit ∧ action ≠ .endAbort) :
    (∀ type, type = .commit ∨ type = .abort → (s.after t rest result).Recorded type t → s.Recorded type t) ∧
      result.2.state t = s.db.state t := by
  constructor
  · intro type htype
    apply recorded_of_piece hinv hcall hpiece type htype
    rcases htype with rfl | rfl
    · exact hrecord.1
    · exact hrecord.2
  · cases hpiece with
    | undone _ _ _ _ _ _ _ h | notUndone _ h | torn _ _ _ _ h => rw [Database.state, h.locking, Database.state]
    | aborted _ => exact absurd rfl hend.2
    | committed _ => exact absurd rfl hend.1
    | _ => rfl

/-- An exception ends the call, and nothing has been said about the end of the transaction. -/
theorem phase_of_error (hlog : result.2.log = s.db.log ∨ s.db.log.Appended result.2.log []) (hcommit : ¬ s.Recorded .commit t)
    (habort : ¬ s.Recorded .abort t) : Phase (s.after t rest result) t [] := by
  have hrecords : result.2.log.records = s.db.log.records := by
    rcases hlog with hlog | hlog
    · rw [hlog]
    · exact hlog.records.trans (List.append_nil _)
  exact phase_nil.mpr ⟨fun hrec => absurd (hrec.of_records (s := s) hrecords) hcommit,
    fun hrec => absurd (hrec.of_records (s := s) hrecords) habort⟩

theorem finished_state (hrunning : LockSystem.isTerminal (s.db.state t) = false) :
    (s.db.locking.step (.commit t)).state t = .committed ∧ (s.db.locking.step (.abort t)).state t = .aborted := by
  have hstill : ¬ LockSystem.isTerminal (s.db.locking.state t) = true := Bool.eq_false_iff.mp hrunning
  rw [LockSystem.step, if_neg hstill, LockSystem.step, if_neg hstill]
  exact ⟨Function.update_self _ _ _, Function.update_self _ _ _⟩

theorem Phase.performed (hw : s.Working) (hcall : s.calls t = action :: rest) (h : Phase s t (action :: rest))
    (hpiece : Database.Performed s.db t action result) : Phase (s.after t rest result) t (afterPiece result.1 rest) := by
  have hpages := (Stepped.resumed hcall hpiece).pages_change.pageCount_le
  have hfinal : (s.db.transactions t).hasUnfinalizedMutations = false := by
    have hall := (hw.inv.db.transactions t).finalized.resolve_left (by simp [hw.closed t])
    simp [Transaction.hasUnfinalizedMutations, hw.closed t, hall]
  generalize hlist : action :: rest = call at h
  cases h with
  | @outside page _ hsuffix hpage hcommit habort =>
    subst hlist
    have hmem : action ∈ Database.allocateCall page := hsuffix.subset List.mem_cons_self
    have hkeeps := resumed_keeps hw.inv.db hcall hpiece
      (by simp only [Database.allocateCall, List.mem_cons, List.not_mem_nil, or_false] at hmem
          rcases hmem with rfl | rfl | rfl <;> simp [Database.recordOf])
      (by constructor <;> rintro rfl <;> simp [Database.allocateCall] at hmem)
    have hrest : afterPiece result.1 rest <:+ Database.allocateCall page := by
      cases result.1 with
      | ok _ => exact (List.suffix_cons action rest).trans hsuffix
      | error _ => exact List.nil_suffix
    refine .outside hrest (fun _ => Nat.lt_of_lt_of_le (hpage (by simp)) hpages) ?_ ?_
    · exact fun hrec => hkeeps.2.trans (hcommit (hkeeps.1 _ (Or.inl rfl) hrec))
    · exact fun hrec => hkeeps.2.trans (habort (hkeeps.1 _ (Or.inr rfl) hrec))
  | committing hrunning hcommit habort =>
    obtain ⟨rfl, rfl⟩ := List.cons.inj hlist
    have hkeeps := recorded_of_piece hw.inv.db hcall hpiece .abort (Or.inr rfl) (by simp [Database.recordOf])
    cases hpiece with
    | logged _ _ _ => exact .committed (Or.inl rfl) hrunning fun hrec => habort (hkeeps hrec)
    | notLogged _ hlog _ => exact phase_of_error hlog hcommit habort
  | committed hshape hrunning habort =>
    rcases hshape with rfl | rfl
    · obtain ⟨rfl, rfl⟩ := List.cons.inj hlist
      have hkeeps := resumed_keeps hw.inv.db hcall hpiece (by simp [Database.recordOf]) (by simp)
      cases hpiece with
      | logged htype _ _ => cases htype
      | notLogged htype _ _ => cases htype
      | flushed _ _ =>
        exact .committed (Or.inr rfl) hrunning fun hrec => habort (hkeeps.1 _ (Or.inr rfl) hrec)
      | notFlushed _ _ hsick => exact absurd hw.healthy hsick
    · obtain ⟨rfl, rfl⟩ := List.cons.inj hlist
      cases hpiece with
      | logged htype _ _ => cases htype
      | notLogged htype _ _ => cases htype
      | notCommitted hopen =>
        rw [hfinal] at hopen
        cases hopen
      | committed _ =>
        exact phase_nil.mpr ⟨fun _ => (finished_state hrunning).1, fun hrec => absurd hrec habort⟩
  | @aborting undoing hundoing hrunning hcommit habort =>
    cases undoing with
    | nil =>
      obtain ⟨rfl, rfl⟩ := List.cons.inj hlist
      have hkeeps := recorded_of_piece hw.inv.db hcall hpiece .commit (Or.inl rfl) (by simp [Database.recordOf])
      cases hpiece with
      | logged _ hready _ => exact .aborted (Or.inl rfl) hrunning (fun hrec => hcommit (hkeeps hrec)) hready.1
      | notLogged _ hlog _ => exact phase_of_error hlog hcommit habort
    | cons first undoing =>
      obtain ⟨rfl, rfl⟩ := List.cons.inj hlist
      obtain ⟨⟨hrecord, hend⟩, hundoing⟩ := List.forall_mem_cons.mp hundoing
      have hkeeps := resumed_keeps hw.inv.db hcall hpiece (by simp [hrecord]) hend
      have hcommit' : ¬ (s.after t _ result).Recorded .commit t := fun hrec => hcommit (hkeeps.1 _ (Or.inl rfl) hrec)
      have habort' : ¬ (s.after t _ result).Recorded .abort t := fun hrec => habort (hkeeps.1 _ (Or.inr rfl) hrec)
      cases hresult : result.1 with
      | ok _ => exact .aborting hundoing (by rw [← hrunning]; exact congrArg _ hkeeps.2) hcommit' habort'
      | error _ => exact phase_nil.mpr ⟨fun hrec => absurd hrec hcommit', fun hrec => absurd hrec habort'⟩
  | aborted hshape hrunning hcommit hundone =>
    rcases hshape with rfl | rfl
    · obtain ⟨rfl, rfl⟩ := List.cons.inj hlist
      have hkeeps := resumed_keeps hw.inv.db hcall hpiece (by simp [Database.recordOf]) (by simp)
      cases hpiece with
      | logged htype _ _ => cases htype
      | notLogged htype _ _ => cases htype
      | flushed _ _ =>
        exact .aborted (Or.inr rfl) hrunning (fun hrec => hcommit (hkeeps.1 _ (Or.inl rfl) hrec)) hundone
      | notFlushed _ _ hsick => exact absurd hw.healthy hsick
    · obtain ⟨rfl, rfl⟩ := List.cons.inj hlist
      cases hpiece with
      | logged htype _ _ => cases htype
      | notLogged htype _ _ => cases htype
      | notAborted hleft =>
        rw [show (s.db.transactions t).hasUnresolvedMutationsForAbort = false from hundone] at hleft
        cases hleft
      | aborted _ =>
        exact phase_nil.mpr ⟨fun hrec => absurd hrec hcommit, fun _ => (finished_state hrunning).2⟩

end Piece

/-- A step of the lock manager between the calls of a transaction. -/
theorem Phase.locked {call : List Action} (h : Phase s t call) (hlog : s'.db.log = s.db.log) (hpages : s'.db.pages = s.db.pages)
    (htx : s'.db.transactions = s.db.transactions) {state : TransactionState} (hstate : s'.db.state t = state)
    (hrunning : LockSystem.isTerminal (s.db.state t) = false)
    (hend : LockSystem.isTerminal state = true → call = [] ∧ state = .aborted) : Phase s' t call := by
  have hrecorded : ∀ {type : WalRecordType}, s'.Recorded type t → s.Recorded type t := fun hrec =>
    hrec.of_records (by rw [hlog])
  have hstill : call ≠ [] → LockSystem.isTerminal (s'.db.state t) = false := by
    intro hne
    rw [hstate, Bool.eq_false_iff]
    exact fun hterminal => hne (hend hterminal).1
  cases h with
  | outside hcall hpage hcommit habort =>
    refine .outside hcall (fun hne => by rw [hpages]; exact hpage hne) ?_ ?_
    · intro hrec
      rw [hcommit (hrecorded hrec)] at hrunning
      cases hrunning
    · intro hrec
      rw [habort (hrecorded hrec)] at hrunning
      cases hrunning
  | committing _ hcommit habort =>
    exact .committing (hstill (by simp [Database.commitCall])) (fun h => hcommit (hrecorded h)) fun h => habort (hrecorded h)
  | committed hcall _ habort =>
    refine .committed hcall (hstill ?_) fun h => habort (hrecorded h)
    rcases hcall with rfl | rfl <;> simp
  | aborting hundoing _ hcommit habort =>
    exact .aborting hundoing (hstill (by simp)) (fun h => hcommit (hrecorded h)) fun h => habort (hrecorded h)
  | aborted hcall _ hcommit hundone =>
    refine .aborted hcall (hstill ?_) (fun h => hcommit (hrecorded h)) (by rw [Undone, htx]; exact hundone)
    rcases hcall with rfl | rfl <;> simp

theorem mem_rollbackCall {tx : Transaction} {action : Action} (h : action ∈ Database.rollbackCall tx) :
    Database.recordOf action = none ∧ action ≠ .endCommit ∧ action ≠ .endAbort := by
  simp only [Database.rollbackCall, List.mem_cons, List.mem_append, List.mem_map] at h
  rcases h with rfl | ⟨index, -, rfl⟩ | ⟨page, -, rfl⟩ <;> simp [Database.recordOf]

theorem phases_step (hw : s.Working) (h : s.Phases) (step : Step) : (s.step step).Phases := by
  have hstep := (step_cases hw.inv.db step).1
  have hpages := pageCount_step hw.inv.db step
  generalize s.step step = s' at hstep hpages
  intro t
  have hidle : s.idle t = true → s.calls t = [] := by
    intro hidle
    simpa [idle] using (Bool.and_eq_true_iff.mp hidle).2
  have hundone : s.calls t ≠ [] → s.Undone t → s'.Undone t := by
    intro hne hdone
    rcases hstep.undone hdone with hdone' | ⟨id, change, rfl⟩
    · exact hdone'
    · -- A transaction in a call accesses no page.
      generalize hkind : Step.access (some t) id change = kind at hstep
      cases hstep with
      | accessed hclient _ =>
        cases hkind
        exact absurd (hidle hclient) hne
      | stayed => exact hdone
      | quiet _ hstill => rw [Undone, hstill.transactions]; exact hdone
      | locked hlock => exact hdone
      | _ => cases hkind
  -- A step that is no piece of a call of the transaction says nothing about its end.
  have hrecorded : step ≠ .resume t → ∀ type, type = .commit ∨ type = .abort → s'.Recorded type t → s.Recorded type t := by
    intro hne type htype hrec
    obtain ⟨new, hrecords, hlogs⟩ := hstep.logs hw.inv.db
    exact (recorded_append hrecords hlogs htype hrec).resolve_right fun hpiece => hne hpiece.1
  have hkeep : step ≠ .resume t → s'.db.state t = s.db.state t → Phase s' t (s.calls t) := fun hne hstate =>
    (h t).keep (hrecorded hne) hstate hpages hundone
  -- A call that a transaction enters from outside.
  have houtside : s.idle t = true → (s.Recorded .commit t → s.db.state t = .committed) ∧
      (s.Recorded .abort t → s.db.state t = .aborted) := by
    intro hidle'
    have hphase := h t
    rw [hidle hidle'] at hphase
    exact phase_nil.mp hphase
  have hopen : s.idle t = true → LockSystem.isTerminal (s.db.state t) = false →
      ¬ s.Recorded .commit t ∧ ¬ s.Recorded .abort t := by
    intro hidle' hrunning
    obtain ⟨hcommit, habort⟩ := houtside hidle'
    refine ⟨fun hrec => ?_, fun hrec => ?_⟩
    · rw [hcommit hrec] at hrunning
      cases hrunning
    · rw [habort hrec] at hrunning
      cases hrunning
  cases hstep with
  | stayed => exact h t
  | began _ | notBegan _ _ => exact hkeep (by simp) rfl
  | accessed _ haccess =>
    apply hkeep (by simp)
    cases haccess with
    | failed _ _ h | read _ _ _ h | wrote _ _ _ _ _ h | captured _ _ _ _ _ _ _ _ _ h | spoiled _ _ _ _ _ _ _ _ h =>
      exact congrFun (congrArg LockSystem.state h.locking) t
  | @grown client pages calls hclient hgrown hcalls =>
    rcases hcalls with rfl | ⟨owner, rfl, rfl, hreserved⟩
    · exact hkeep (by simp) rfl
    · by_cases ht : t = owner
      · subst ht
        obtain ⟨hcommit, habort⟩ := houtside hclient
        change Phase _ t (Function.update s.calls t _ t)
        rw [Function.update_self]
        refine .outside List.suffix_rfl (fun _ => ?_) hcommit habort
        rw [PageManager.index_ofIndex_of_le hreserved.room.le]
        change _ < pages.pageCount
        rw [hreserved.pageCount]
        exact Nat.lt_succ_self _
      · change Phase _ t (Function.update s.calls owner _ t)
        rw [Function.update_of_ne ht]
        exact hkeep (by simp) rfl
  | @committing owner hclient hrunning =>
    change Phase _ t (Function.update s.calls owner _ t)
    by_cases ht : t = owner
    · subst ht
      rw [Function.update_self]
      exact .committing hrunning (hopen hclient hrunning).1 (hopen hclient hrunning).2
    · rw [Function.update_of_ne ht]
      exact hkeep (by simp) rfl
  | @aborting owner hclient hrunning =>
    change Phase _ t (Function.update s.calls owner _ t)
    by_cases ht : t = owner
    · subst ht
      rw [Function.update_self]
      exact .aborting (fun _ => mem_rollbackCall) hrunning (hopen hclient hrunning).1 (hopen hclient hrunning).2
    · rw [Function.update_of_ne ht]
      exact hkeep (by simp) rfl
  | @resumed owner action rest result hcall hpiece =>
    change Phase _ t (Function.update s.calls owner _ t)
    by_cases ht : t = owner
    · subst ht
      rw [Function.update_self]
      exact (hcall ▸ h t : Phase s t (action :: rest)).performed hw hcall hpiece
    · rw [Function.update_of_ne ht]
      apply hkeep (by simpa using Ne.symm ht)
      -- Only the transaction whose call ends changes its state.
      have hother : ∀ {state : TransactionState} {locking : LockSystem}, s.db.locking.Left locking owner state →
          locking.state t = s.db.locking.state t := by
        intro state locking hleft
        rw [hleft.2.1, Function.update_of_ne ht]
      cases hpiece with
      | undone _ _ _ _ _ _ _ h | notUndone _ h | torn _ _ _ _ h => exact congrFun (congrArg LockSystem.state h.locking) t
      | aborted _ =>
        rcases LockSystem.step_cases s.db.locking (.abort owner) with
          hkept | ⟨_, ha, -⟩ | ⟨_, _, ha, -⟩ | ⟨_, ha, -⟩ | ⟨_, ha, hleft⟩
        · exact congrFun hkept.1 t
        · cases ha
        · cases ha
        · cases ha
        · cases ha
          exact hother hleft
      | committed _ =>
        rcases LockSystem.step_cases s.db.locking (.commit owner) with
          hkept | ⟨_, ha, -⟩ | ⟨_, _, ha, -⟩ | ⟨_, ha, hleft⟩ | ⟨_, ha, -⟩
        · exact congrFun hkept.1 t
        · cases ha
        · cases ha
        · cases ha
          exact hother hleft
        · cases ha
      | _ => rfl
  | @locked _ lockStep hlock =>
    have hlog : ∀ type, type = .commit ∨ type = .abort →
        System.Recorded { s with db := s.db.withLocking (s.db.locking.step lockStep) } type t → s.Recorded type t :=
      fun _ _ hrec => hrec
    -- The transaction whose state changes was running; if it is at its end now, it was in no call.
    have hleft : ∀ {owner : TransactionId} {state : TransactionState},
        s.db.locking.Left (s.db.locking.step lockStep) owner state →
        (LockSystem.isTerminal state = true → s.idle owner = true ∧ state = .aborted) →
        Phase { s with db := s.db.withLocking (s.db.locking.step lockStep) } t (s.calls t) := by
      intro owner state hleft hend
      by_cases ht : t = owner
      · subst ht
        refine (h t).locked rfl rfl rfl ?_ hleft.1 fun hterminal => ⟨hidle (hend hterminal).1, (hend hterminal).2⟩
        exact (congrFun hleft.2.1 t).trans (Function.update_self _ _ _)
      · exact (h t).keep hlog ((congrFun hleft.2.1 t).trans (Function.update_of_ne ht _ _)) le_rfl fun _ hdone => hdone
    rcases LockSystem.step_cases s.db.locking lockStep with
      hkept | ⟨request, rfl, -, hdied⟩ | ⟨owner, resource, rfl, hunlocked⟩ | ⟨owner, rfl, -⟩ | ⟨owner, rfl, -⟩
    · exact (h t).keep hlog (congrFun hkept.1 t) le_rfl fun _ hdone => hdone
    · apply hleft hdied
      rcases hlock with ⟨_, -, ha, hclient⟩ | ⟨_, -, ha⟩ | ⟨_, _, -, ha⟩
      · cases ha
        exact fun _ => ⟨hclient, rfl⟩
      · cases ha
      · cases ha
    · exact hleft hunlocked fun hterminal => Bool.noConfusion hterminal
    · rcases hlock with ⟨_, -, ha, -⟩ | ⟨_, -, ha⟩ | ⟨_, _, -, ha⟩ <;> cases ha
    · rcases hlock with ⟨_, -, ha, -⟩ | ⟨_, -, ha⟩ | ⟨_, _, -, ha⟩ <;> cases ha
  | quiet _ hstill =>
    refine (h t).keep (fun _ _ hrec => hrec.of_records (by rw [hstill.log])) ?_ hpages hundone
    exact congrFun (congrArg LockSystem.state hstill.locking) t
  | synced _ _ => exact hkeep (by simp) rfl

/-! ## Records that can be read -/

/-- The record can be decoded, and the page it names is in the file. -/
def Readable (pageCount : Nat) (record : WalRecord) : Prop :=
  match record.type with
  | .begin | .commit | .abort => record.payload = []
  | .pageAllocate => ∃ page, LogManager.decodePageAllocate record.payload = .ok page ∧ page.index < pageCount
  | .physicalMutation =>
    ∃ mutation, LogManager.decodePhysicalMutation record.payload = .ok mutation ∧ mutation.pageId.index < pageCount

def WellLogged (s : System) : Prop := ∀ record ∈ s.db.log.records, Readable s.db.pages.pageCount record

theorem Readable.mono {n m : Nat} {record : WalRecord} (h : Readable n record) (hle : n ≤ m) : Readable m record := by
  unfold Readable at h ⊢
  split
  · simpa only [*] using h
  · simpa only [*] using h
  · simpa only [*] using h
  · rename_i htype
    simp only [htype] at h
    obtain ⟨page, hdecode, hpage⟩ := h
    exact ⟨page, hdecode, Nat.lt_of_lt_of_le hpage hle⟩
  · rename_i htype
    simp only [htype] at h
    obtain ⟨mutation, hdecode, hpage⟩ := h
    exact ⟨mutation, hdecode, Nat.lt_of_lt_of_le hpage hle⟩

/-- The page of an allocation in progress is in the file. -/
theorem Phases.index_of_logAllocate (h : s.Phases) {page : PageId} {rest : List Action}
    (hcall : s.calls t = .logAllocate page :: rest) : page.index < s.db.pages.pageCount := by
  have hphase := h t
  rw [hcall] at hphase
  generalize hlist : Action.logAllocate page :: rest = call at hphase
  cases hphase with
  | @outside other _ hsuffix hpage _ _ =>
    have hmem := hsuffix.subset (hlist ▸ List.mem_cons_self)
    simp only [Database.allocateCall, List.mem_cons, Action.logAllocate.injEq, List.not_mem_nil, or_false] at hmem
    obtain rfl : page = other := by simpa using hmem
    exact hpage (by rw [← hlist]; simp)
  | committing _ _ _ => cases hlist
  | committed hshape _ _ => rcases hshape with rfl | rfl <;> cases hlist
  | @aborting undoing hundoing _ _ _ =>
    cases undoing with
    | nil => cases hlist
    | cons first undoing =>
      obtain ⟨rfl, -⟩ := List.cons.inj hlist
      have hrecord := (hundoing _ List.mem_cons_self).1
      cases hrecord
  | aborted hshape _ _ _ => rcases hshape with rfl | rfl <;> cases hlist

theorem wellLogged_step (hinv : s.db.Inv) (hphases : s.Phases) (h : s.WellLogged) (step : Step) : (s.step step).WellLogged := by
  obtain ⟨new, hrecords, hlogs⟩ := (step_cases hinv step).1.logs hinv
  have hpages := pageCount_step hinv step
  intro record hmem
  rw [hrecords, List.mem_append] at hmem
  rcases hmem with hmem | hmem
  · exact (h record hmem).mono hpages
  refine Readable.mono ?_ hpages
  cases hlogs with
  | nothing => cases hmem
  | begin =>
    obtain rfl := List.mem_singleton.mp hmem
    rfl
  | @mutation _ _ _ mutation _ hencode hindex =>
    obtain rfl := List.mem_singleton.mp hmem
    exact ⟨_, (LogManager.decodePhysicalMutation_encode hencode).1, hindex⟩
  | @piece owner action _ _ _ hcall htype hready =>
    obtain rfl := List.mem_singleton.mp hmem
    cases action with
    | logAbort | logCommit =>
      obtain rfl := Option.some.inj htype
      exact hready.2
    | logAllocate page =>
      obtain rfl := Option.some.inj htype
      exact ⟨page, (LogManager.decodePageAllocate_encode hready).1, hphases.index_of_logAllocate hcall⟩
    | _ => cases htype

/-! ## Starting on an empty log -/

/-- Files that work, an empty log, and no PageLSN. -/
structure Launch (s : System) : Prop where
  initial : s.Initial
  synced : s.db.pages.Synced
  healthy : s.db.log.Healthy
  records : s.db.log.records = []
  lsn : ∀ p page, s.db.pages.slot p = some page → page.lsn = 0

theorem launch_new (capacity : Nat) : (new capacity).Launch where
  initial := initial_new capacity
  synced := PageManager.synced_empty
  healthy := LogManager.healthy_empty
  records := rfl
  lsn := by
    intro p page hslot
    cases (PageManager.slot_eq_some hslot).1

theorem Launch.working (h : s.Launch) : s.Working := by
  refine ⟨h.initial.sound, h.synced, h.healthy, ?_, ?_⟩
  · obtain ⟨pages, capacity, log, rfl, -, -⟩ := h.initial
    exact fun _ => rfl
  · obtain ⟨pages, capacity, log, rfl, -, -⟩ := h.initial
    intro p f hf
    cases hf

theorem Launch.phases (h : s.Launch) : s.Phases := by
  have hnone : ∀ type t, ¬ s.Recorded type t := by
    rintro type t ⟨record, hmem, -⟩
    rw [h.records] at hmem
    cases hmem
  intro t
  have hcalls : s.calls t = [] := by
    obtain ⟨pages, capacity, log, rfl, -, -⟩ := h.initial
    rfl
  rw [hcalls]
  exact phase_nil.mpr ⟨fun hrec => absurd hrec (hnone _ t), fun hrec => absurd hrec (hnone _ t)⟩

theorem Launch.wellLogged (h : s.Launch) : s.WellLogged := by
  intro record hmem
  rw [h.records] at hmem
  cases hmem

end System

end Ddb.Concurrency
