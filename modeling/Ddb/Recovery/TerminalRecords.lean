import Ddb.Concurrency.Terminal
import Ddb.Recovery.Analysis

/-!
# The ends of transactions in the log

A commit is a record, a flush of the log and a change of state, and so is an abort. When the flush fails, the record is in the
log and the transaction goes on, and its caller decides what comes next. Here the files may fail at every step. If the caller
of a transaction with the record of one end never asks for the other end, no transaction has both records, and the analysis
accepts the log, whole or cut off.
-/

namespace Ddb.Concurrency.System

open Ddb.Lib Ddb.Storage Ddb.Buffer Ddb.Recovery

variable {s s' : System} {t : TransactionId} {step : Step}

/-- `commit` is not asked for after an ABORT record, nor `abort` after a COMMIT record. -/
def EndsOnce (s : System) : Step → Prop
  | .commit t => ¬ s.Recorded .abort t
  | .abort t => ¬ s.Recorded .commit t
  | _ => True

/-- A step shortens the call of a transaction, or the transaction enters a call. -/
theorem Stepped.calls (h : Stepped s step s') (t : TransactionId) : s'.calls t <:+ s.calls t ∨
    (step = .commit t ∧ s'.calls t = Database.commitCall) ∨
    (step = .abort t ∧ s'.calls t = Database.abortCall (s.db.transactions t)) ∨
    ∃ page, s'.calls t = Database.allocateCall page := by
  have henter : ∀ (owner : TransactionId) (call : List Action), Function.update s.calls owner call t = s.calls t ∨
      owner = t ∧ Function.update s.calls owner call t = call := by
    intro owner call
    by_cases ht : t = owner
    · subst ht
      exact Or.inr ⟨rfl, Function.update_self _ _ _⟩
    · exact Or.inl (Function.update_of_ne ht _ _)
  cases h with
  | grown _ _ hcalls =>
    rcases hcalls with rfl | ⟨owner, -, rfl, -⟩
    · exact Or.inl List.suffix_rfl
    · rcases henter owner (Database.allocateCall (PageId.ofIndex s.db.pages.pageCount)) with hsame | ⟨-, hcall⟩
      · exact Or.inl (hsame ▸ List.suffix_rfl)
      · exact Or.inr (Or.inr (Or.inr ⟨_, hcall⟩))
  | @committing owner _ _ =>
    rcases henter owner Database.commitCall with hsame | ⟨rfl, hcall⟩
    · exact Or.inl (hsame ▸ List.suffix_rfl)
    · exact Or.inr (Or.inl ⟨rfl, hcall⟩)
  | @aborting owner _ _ =>
    rcases henter owner (Database.abortCall (s.db.transactions owner)) with hsame | ⟨rfl, hcall⟩
    · exact Or.inl (hsame ▸ List.suffix_rfl)
    · exact Or.inr (Or.inr (Or.inl ⟨rfl, hcall⟩))
  | @resumed owner action rest result hcall _ =>
    refine Or.inl ?_
    change Function.update s.calls owner (afterPiece result.1 rest) t <:+ s.calls t
    rcases henter owner (afterPiece result.1 rest) with hsame | ⟨rfl, hafter⟩
    · exact hsame ▸ List.suffix_rfl
    · rw [hafter, hcall]
      cases result.1 with
      | ok _ => exact List.suffix_cons action rest
      | error _ => exact List.nil_suffix
  | _ => exact Or.inl List.suffix_rfl

/-! ## One end for each transaction -/

/-- The log has at most one end of the transaction, and the call it is in adds no other. -/
structure OneEnd (s : System) (t : TransactionId) : Prop where
  records : ¬ (s.Recorded .commit t ∧ s.Recorded .abort t)
  committing : .logCommit ∈ s.calls t → ¬ s.Recorded .abort t ∧ .logAbort ∉ s.calls t
  aborting : .logAbort ∈ s.calls t → ¬ s.Recorded .commit t

theorem logCommit_not_mem_abortCall (tx : Transaction) : .logCommit ∉ Database.abortCall tx := by
  simp [Database.abortCall, Database.rollbackCall]

/-- The piece that writes the record of an end. -/
theorem recordOf_terminal {action : Action} :
    (Database.recordOf action = some .commit → action = .logCommit) ∧
      (Database.recordOf action = some .abort → action = .logAbort) := by
  cases action <;> simp [Database.recordOf]

theorem oneEnd_step (hinv : s.db.Inv) (h : s.OneEnd t) (hends : s.EndsOnce step) : (s.step step).OneEnd t := by
  have hstep := (step_cases hinv step).1
  generalize s.step step = s' at hstep
  obtain ⟨new, hrecords, hlogs⟩ := hstep.logs hinv
  -- A new record of an end is written by the call the transaction is in.
  have hcommit : s'.Recorded .commit t → s.Recorded .commit t ∨ (step = .resume t ∧ .logCommit ∈ s.calls t) := by
    intro hrec
    rcases recorded_append hrecords hlogs (Or.inl rfl) hrec with hold | ⟨hresume, action, rest, hcall, hwritten⟩
    · exact Or.inl hold
    · exact Or.inr ⟨hresume, by rw [hcall, recordOf_terminal.1 hwritten]; exact List.mem_cons_self⟩
  have habort : s'.Recorded .abort t → s.Recorded .abort t ∨ (step = .resume t ∧ .logAbort ∈ s.calls t) := by
    intro hrec
    rcases recorded_append hrecords hlogs (Or.inr rfl) hrec with hold | ⟨hresume, action, rest, hcall, hwritten⟩
    · exact Or.inl hold
    · exact Or.inr ⟨hresume, by rw [hcall, recordOf_terminal.2 hwritten]; exact List.mem_cons_self⟩
  -- So a call that will write one end finds no record of the other after the step either.
  have hcommitting : .logCommit ∈ s.calls t → ¬ s'.Recorded .abort t := fun hmem hrec =>
    (habort hrec).elim (h.committing hmem).1 fun hpiece => (h.committing hmem).2 hpiece.2
  have haborting : .logAbort ∈ s.calls t → ¬ s'.Recorded .commit t := fun hmem hrec =>
    (hcommit hrec).elim (h.aborting hmem) fun hpiece => (h.committing hpiece.2).2 hmem
  have hrecords' : ¬ (s'.Recorded .commit t ∧ s'.Recorded .abort t) := by
    rintro ⟨hrec, hrec'⟩
    rcases hcommit hrec with hold | ⟨-, hmem⟩
    · rcases habort hrec' with hold' | ⟨-, hmem⟩
      · exact h.records ⟨hold, hold'⟩
      · exact haborting hmem hrec
    · exact hcommitting hmem hrec'
  rcases hstep.calls t with hsuffix | ⟨rfl, hcall⟩ | ⟨rfl, hcall⟩ | ⟨page, hcall⟩
  · refine ⟨hrecords', fun hmem => ⟨hcommitting (hsuffix.subset hmem), fun hmem' => ?_⟩,
      fun hmem => haborting (hsuffix.subset hmem)⟩
    exact (h.committing (hsuffix.subset hmem)).2 (hsuffix.subset hmem')
  · have hnone : ¬ s'.Recorded .abort t := fun hrec => (habort hrec).elim hends fun hpiece => nomatch hpiece.1
    refine ⟨hrecords', fun _ => ⟨hnone, ?_⟩, fun hmem => ?_⟩
    · rw [hcall]
      decide
    · rw [hcall] at hmem
      exact absurd hmem (by decide)
  · have hnone : ¬ s'.Recorded .commit t := fun hrec => (hcommit hrec).elim hends fun hpiece => nomatch hpiece.1
    refine ⟨hrecords', fun hmem => ?_, fun _ => hnone⟩
    rw [hcall] at hmem
    exact absurd hmem (logCommit_not_mem_abortCall _)
  · refine ⟨hrecords', fun hmem => ?_, fun hmem => ?_⟩
    · simp [hcall, Database.allocateCall] at hmem
    · simp [hcall, Database.allocateCall] at hmem

/-! ## Records that can be decoded -/

theorem decodable_step (hinv : s.db.Inv) (h : ∀ record ∈ s.db.log.records, Decodable record) (step : Step) :
    ∀ record ∈ (s.step step).db.log.records, Decodable record := by
  obtain ⟨new, hrecords, hlogs⟩ := (step_cases hinv step).1.logs hinv
  intro record hmem
  rw [hrecords, List.mem_append] at hmem
  rcases hmem with hmem | hmem
  · exact h record hmem
  cases hlogs with
  | nothing => cases hmem
  | begin =>
    obtain rfl := List.mem_singleton.mp hmem
    rfl
  | mutation hencode _ =>
    obtain rfl := List.mem_singleton.mp hmem
    exact ⟨_, (LogManager.decodePhysicalMutation_encode hencode).1⟩
  | @piece _ action _ _ _ _ htype hready =>
    obtain rfl := List.mem_singleton.mp hmem
    cases action with
    | logAbort | logCommit =>
      obtain rfl := Option.some.inj htype
      exact hready.2
    | logAllocate page =>
      obtain rfl := Option.some.inj htype
      exact ⟨page, (LogManager.decodePageAllocate_encode hready).1⟩
    | _ => cases htype

/-! ## Whole runs -/

/-- What the analysis asks of a log. -/
structure Acceptable (s : System) : Prop where
  decodable : ∀ record ∈ s.db.log.records, Decodable record
  oneEnd : ∀ t, s.OneEnd t

theorem has_iff_recorded {type : WalRecordType} : has type s.db.log.records t = true ↔ s.Recorded type t := by
  simp [has, Recorded]

theorem Initial.acceptable (hinit : s.Initial) (h : ∃ state, RecoveryAnalyzer.analyze s.db.log.records = .ok state) :
    s.Acceptable := by
  obtain ⟨hdecodable, hends⟩ := analyze_succeeds_iff.mp h
  refine ⟨hdecodable, fun t => ?_⟩
  have hcalls : s.calls t = [] := by
    obtain ⟨pages, capacity, log, rfl, -, -⟩ := hinit
    rfl
  refine ⟨fun hboth => hends t ⟨has_iff_recorded.mpr hboth.1, has_iff_recorded.mpr hboth.2⟩, fun hmem => ?_, fun hmem => ?_⟩
  · simp [hcalls] at hmem
  · simp [hcalls] at hmem

theorem acceptable_step (hinv : s.db.Inv) (h : s.Acceptable) (hends : s.EndsOnce step) : (s.step step).Acceptable :=
  ⟨decodable_step hinv h.decodable step, fun t => oneEnd_step hinv (h.oneEnd t) hends⟩

/-- An acceptable log is accepted, and so is every beginning of it. -/
theorem Acceptable.analyze (h : s.Acceptable) {surviving : List WalRecord} (hbeginning : surviving <+: s.db.log.records) :
    ∃ state, RecoveryAnalyzer.analyze surviving = .ok state := by
  refine analyze_succeeds (fun record hmem => h.decodable record (hbeginning.subset hmem)) fun id hboth => ?_
  have hhas : ∀ {type : WalRecordType}, has type surviving id = true → s.Recorded type id := by
    intro type hhas
    obtain ⟨record, hmem, hrecord⟩ := List.any_eq_true.mp hhas
    exact ⟨record, hbeginning.subset hmem, of_decide_eq_true hrecord⟩
  exact (h.oneEnd id).records ⟨hhas hboth.1, hhas hboth.2⟩

/-- An empty log whose first flush fails. -/
def failing : System := .start .empty 1 { LogManager.empty with flushFaults := [true] }

theorem initial_failing : failing.Initial := by
  refine ⟨.empty, 1, _, rfl, PageManager.wellFormed_empty, Nat.one_pos, ?_, ?_, List.Pairwise.nil, Nat.one_pos⟩
  · simp [LogManager.empty]
  · simp [LogManager.empty]

/-- The flush of a commit fails, and the caller asks for the commit again. -/
def retriedRun : List Step :=
  [.begin, .commit 1, .resume 1, .resume 1, .commit 1, .resume 1, .resume 1, .resume 1]

/-- The flush of a commit fails, and the caller aborts the transaction. -/
def abandonedRun : List Step :=
  [.begin, .commit 1, .resume 1, .resume 1, .abort 1, .resume 1, .resume 1, .resume 1, .resume 1]

end Ddb.Concurrency.System
