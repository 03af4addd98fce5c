import Ddb.Concurrency.Steps
import Ddb.Concurrency.WaitDie

/-!
# Aborted means undone

A transaction is to be `Aborted` only after its mutations have been undone, and its locks are to be released only then.
The coordinator keeps to that: `endAbort` looks at the mutations before it turns to the lock manager. The lock manager
itself does not. A request that dies under WAIT-DIE releases every lock of its transaction and makes it `Aborted` there and
then, and the coordinator's `abort` has nothing to do for a transaction in a terminal state; nor does anything keep a client
from capturing a mutation in a transaction that is `Aborted` already.
-/

namespace Ddb.Concurrency

open Ddb.Lib Ddb.Storage Ddb.Buffer

namespace LockSystem

variable {s : LockSystem} {t : TransactionId}

def Holds (s : LockSystem) (t : TransactionId) (r : ResourceId) : Prop :=
  ∃ holder ∈ s.locks.holders r, holder.transactionId = t

/-- The request loses a conflict against an older holder. -/
def Dies (s : LockSystem) (request : LockRequest) : Prop :=
  s.state request.transactionId = .growing ∧
    s.locks.dies request.transactionId request.resource request.mode = true

/-- Nothing was taken from anybody. -/
def Kept (s s' : LockSystem) : Prop := s'.state = s.state ∧ ∀ t r, s.Holds t r → s'.Holds t r

/-- One transaction, which was running, changed its state, and only its locks may be gone. -/
def Left (s s' : LockSystem) (t : TransactionId) (state : TransactionState) : Prop :=
  isTerminal (s.state t) = false ∧ s'.state = Function.update s.state t state ∧
    ∀ other r, other ≠ t → s.Holds other r → s'.Holds other r

theorem lockSection_cases (s : LockSystem) (request : LockRequest) (hgrowing : s.state request.transactionId = .growing) :
    s.Kept (s.lockSection request) ∨
      (s.Dies request ∧ s.Left (s.lockSection request) request.transactionId .aborted) := by
  rcases LockManager.lockPass_cases s.locks request.transactionId request.resource request.mode with
    ⟨locks, answer, hpass, -, hholders⟩ | ⟨locks, hpass, -, -, -, hkept⟩ | ⟨locks, hpass, -, -, hdies, hkept⟩ |
    ⟨locks, hpass, -, hholders, -⟩
  · refine Or.inl ⟨by simp only [lockSection, hpass], fun t r h => ?_⟩
    simpa only [lockSection, hpass, Holds, hholders] using h
  · refine Or.inl ⟨by simp only [lockSection, hpass], ?_⟩
    rintro t r ⟨holder, hmem, rfl⟩
    obtain ⟨kept, hmem', hkeeps⟩ := hkept r holder hmem
    simp only [lockSection, hpass]
    exact ⟨kept, hmem', hkeeps.1⟩
  · refine Or.inr ⟨⟨hgrowing, hdies⟩, by rw [hgrowing]; rfl, by simp only [lockSection, hpass]; rfl, ?_⟩
    rintro other r hne ⟨holder, hmem, rfl⟩
    simp only [lockSection, hpass]
    exact ⟨holder, hkept r holder hmem hne, rfl⟩
  · refine Or.inl ⟨by simp only [lockSection, hpass], fun t r h => ?_⟩
    simpa only [lockSection, hpass, Holds, hholders] using h

/-- A request that has slept until it is compatible does not die. -/
theorem not_dies_of_compatible {request : LockRequest}
    (h : s.locks.compatible request.transactionId request.resource request.mode = true) : ¬ s.Dies request := by
  rintro ⟨-, hdies⟩
  rw [LockManager.dies, Bool.and_eq_true] at hdies
  have hyoung := hdies.2
  simp only [LockManager.compatible, LockManager.requesterIsYoungerThanConflict] at h hyoung
  cases htable : s.locks.table request.resource with
  | none => simp [htable] at hyoung
  | some holders =>
    simp only [htable, Bool.not_eq_true', List.any_eq_false, List.any_eq_true] at h hyoung
    obtain ⟨holder, hmem, hconflict⟩ := hyoung
    rw [Bool.and_eq_true] at hconflict
    exact h holder hmem hconflict.1

/-- What a mutex section takes, and from whom. -/
theorem step_cases (s : LockSystem) (a : LockStep) : s.Kept (s.step a) ∨
    (∃ request, a = .lock request ∧ s.Dies request ∧ s.Left (s.step a) request.transactionId .aborted) ∨
    (∃ t resource, a = .unlock t resource ∧ s.Left (s.step a) t .shrinking) ∨
    (∃ t, a = .commit t ∧ s.Left (s.step a) t .committed) ∨ (∃ t, a = .abort t ∧ s.Left (s.step a) t .aborted) := by
  have hsame : s.Kept s := ⟨rfl, fun _ _ h => h⟩
  have hrelease : ∀ t state, isTerminal (s.state t) = false →
      s.Left (({ s with locks := s.locks.releaseAll t } : LockSystem).setState t state) t state := by
    intro t state hrunning
    refine ⟨hrunning, rfl, ?_⟩
    rintro other r hne ⟨holder, hmem, rfl⟩
    exact ⟨holder, LockManager.mem_releaseAll_of_ne hne hmem, rfl⟩
  cases a with
  | lock request =>
    rw [step]
    split
    · rename_i hgrowing
      rcases lockSection_cases s request hgrowing with hkept | ⟨hdies, hleft⟩
      · exact Or.inl hkept
      · exact Or.inr (Or.inl ⟨request, rfl, hdies, hleft⟩)
    · exact Or.inl hsame
  | wake request =>
    rw [step]
    split
    · rename_i hwake
      dsimp only
      split
      · rename_i hgrowing
        refine Or.inl ?_
        rcases lockSection_cases { s with waiters := s.waiters.erase request } request hgrowing with hkept | ⟨hdies, -⟩
        · exact hkept
        · have hover := hwake.2
          rw [waitOver, hgrowing] at hover
          exact absurd hdies (not_dies_of_compatible (by simpa using hover))
      · exact Or.inl hsame
    · exact Or.inl hsame
  | unlock t resource =>
    rw [step]
    split
    · rename_i hrunning
      cases hunlock : s.locks.unlockEntry t resource with
      | none => exact Or.inl hsame
      | some locks =>
        refine Or.inr (Or.inr (Or.inl ⟨t, resource, rfl, ?_, rfl, ?_⟩))
        · rcases hrunning with h | h <;> rw [h] <;> rfl
        · rintro other r hne ⟨holder, hmem, rfl⟩
          exact ⟨holder, LockManager.mem_unlockEntry_of_ne hunlock hne hmem, rfl⟩
    · exact Or.inl hsame
  | commit t =>
    rw [step]
    split
    · exact Or.inl hsame
    · rename_i hrunning
      exact Or.inr (Or.inr (Or.inr (Or.inl ⟨t, rfl, hrelease t .committed (Bool.eq_false_iff.mpr hrunning)⟩)))
  | abort t =>
    rw [step]
    split
    · exact Or.inl hsame
    · rename_i hrunning
      exact Or.inr (Or.inr (Or.inr (Or.inr ⟨t, rfl, hrelease t .aborted (Bool.eq_false_iff.mpr hrunning)⟩)))

end LockSystem

namespace System

variable {s s' : System} {step : Step} {t : TransactionId}

def Undone (s : System) (t : TransactionId) : Prop := (s.db.transactions t).hasUnresolvedMutationsForAbort = false

/-- Every `Aborted` transaction has been undone, whether a call of it is still in progress or not. -/
def AbortedAreUndone (s : System) : Prop := ∀ t, s.db.state t = .aborted → s.Undone t

/-- In this run, a transaction that ends up `Aborted` had been undone whenever a lock was taken from it. -/
def UndoneBeforeRelease (s : System) (run : List Step) : Prop :=
  ∀ done step rest, run = done ++ step :: rest → ∀ t r, (exec System.step s done).db.locking.Holds t r →
    ¬ ((exec System.step s done).step step).db.locking.Holds t r → (exec System.step s run).db.state t = .aborted →
      (exec System.step s done).Undone t

/-- The condition on a step: a request does not die on a transaction with mutations that are not undone, and nothing is
captured in a transaction that is `Aborted`. -/
def AbortsSafely (s : System) : Step → Prop
  | .lock request => s.db.locking.Dies request → s.Undone request.transactionId
  | .access (some t) _ _ => s.db.state t ≠ .aborted
  | _ => True

/-- What a step takes, and from whom: a request dies, a lock is given back, or a transaction ends, and one that ends
`Aborted` has been undone. -/
inductive Took (s : System) (step : Step) (s' : System) : Prop where
  | nothing (hkept : s.db.locking.Kept s'.db.locking)
  | dying (request : LockRequest) (hstep : step = .lock request) (hdies : s.db.locking.Dies request)
      (hleft : s.db.locking.Left s'.db.locking request.transactionId .aborted)
  | unlocking (t : TransactionId) (resource : ResourceId) (hstep : step = .unlock t resource)
      (hleft : s.db.locking.Left s'.db.locking t .shrinking)
  | committing (t : TransactionId) (hcall : .endCommit ∈ s.calls t)
      (hleft : s.db.locking.Left s'.db.locking t .committed)
  | aborting (t : TransactionId) (hcall : .endAbort ∈ s.calls t) (hundone : s.Undone t) (hundone' : s'.Undone t)
      (hleft : s.db.locking.Left s'.db.locking t .aborted)

theorem Took.of_locking (h : s'.db.locking = s.db.locking) : Took s step s' :=
  .nothing ⟨by rw [h], fun t r hholds => by rwa [h]⟩

theorem Stepped.took (h : Stepped s step s') : Took s step s' := by
  cases h with
  | accessed hidle haccess =>
    cases haccess with
    | failed _ _ h | read _ _ _ h | wrote _ _ _ _ _ h | captured _ _ _ _ _ _ _ _ _ h | spoiled _ _ _ _ _ _ _ _ h =>
      exact .of_locking h.locking
  | @resumed t _ _ _ hcall hpiece =>
    cases hpiece with
    | undone _ _ _ _ _ _ _ h | notUndone _ h | torn _ _ _ _ h => exact .of_locking h.locking
    | aborted hresolved =>
      rcases LockSystem.step_cases s.db.locking (.abort t) with
        hkept | ⟨_, ha, -⟩ | ⟨_, _, ha, -⟩ | ⟨_, ha, -⟩ | ⟨_, ha, hleft⟩
      · exact .nothing hkept
      · cases ha
      · cases ha
      · cases ha
      · cases ha
        exact .aborting t (by rw [hcall]; exact List.mem_cons_self) hresolved hresolved hleft
    | committed hfinal =>
      rcases LockSystem.step_cases s.db.locking (.commit t) with
        hkept | ⟨_, ha, -⟩ | ⟨_, _, ha, -⟩ | ⟨_, ha, hleft⟩ | ⟨_, ha, -⟩
      · exact .nothing hkept
      · cases ha
      · cases ha
      · cases ha
        exact .committing t (by rw [hcall]; exact List.mem_cons_self) hleft
      · cases ha
    | _ => exact .of_locking rfl
  | @locked _ a hstep =>
    rcases LockSystem.step_cases s.db.locking a with
      hkept | ⟨request, rfl, hdies, hleft⟩ | ⟨t, resource, rfl, hleft⟩ | ⟨t, rfl, -⟩ | ⟨t, rfl, -⟩
    · exact .nothing hkept
    · rcases hstep with ⟨_, rfl, ha, -⟩ | ⟨_, -, ha⟩ | ⟨_, _, -, ha⟩
      · cases ha
        exact .dying request rfl hdies hleft
      · cases ha
      · cases ha
    · rcases hstep with ⟨_, -, ha, -⟩ | ⟨_, -, ha⟩ | ⟨_, _, rfl, ha⟩
      · cases ha
      · cases ha
      · cases ha
        exact .unlocking t resource rfl hleft
    · rcases hstep with ⟨_, -, ha, -⟩ | ⟨_, -, ha⟩ | ⟨_, _, -, ha⟩ <;> cases ha
    · rcases hstep with ⟨_, -, ha, -⟩ | ⟨_, -, ha⟩ | ⟨_, _, -, ha⟩ <;> cases ha
  | quiet _ hstill => exact .of_locking hstill.locking
  | _ => exact .of_locking rfl

theorem unresolved_resolvedAt {tx : Transaction} (h : tx.hasUnresolvedMutationsForAbort = false) (index : Nat) :
    (Database.resolvedAt index tx).hasUnresolvedMutationsForAbort = false := by
  rw [Transaction.hasUnresolvedMutationsForAbort, Bool.or_eq_false_iff, List.any_eq_false] at h ⊢
  refine ⟨h.1, fun resolved hmem => ?_⟩
  rcases List.mem_or_eq_of_mem_set hmem with hmem | rfl
  · exact h.2 resolved hmem
  · simp

/-- Only a page access of its own leaves a transaction with something to undo. -/
theorem Stepped.undone (h : Stepped s step s') (hundone : s.Undone t) :
    s'.Undone t ∨ ∃ id change, step = .access (some t) id change := by
  -- The transaction is another one, or the one that moved.
  have hupdate : ∀ {db : Database} {owner : TransactionId} {tx : Transaction},
      db.transactions = Function.update s.db.transactions owner tx →
      ((s.db.transactions owner).hasUnresolvedMutationsForAbort = false → tx.hasUnresolvedMutationsForAbort = false) →
      (db.transactions t).hasUnresolvedMutationsForAbort = false := by
    intro db owner tx htx hkeep
    rw [htx, Function.update_apply]
    split
    · rename_i heq
      exact hkeep (heq ▸ hundone)
    · exact hundone
  cases h with
  | began hlog => exact Or.inl (hupdate rfl fun _ => rfl)
  | @accessed client id change result hidle haccess =>
    cases haccess with
    | failed _ _ hstill | read _ _ _ hstill | wrote _ _ _ _ _ hstill =>
      exact Or.inl (by rw [Undone, hstill.transactions]; exact hundone)
    | @captured owner _ _ _ _ _ _ hclient _ _ _ _ _ _ _ _ hrest
    | @spoiled owner _ _ _ _ _ _ hclient _ _ _ _ _ _ _ hrest =>
      by_cases heq : t = owner
      · exact Or.inr ⟨id, change, by rw [hclient, heq]⟩
      · refine Or.inl ?_
        rw [Undone, hrest.transactions, Function.update_of_ne heq]
        exact hundone
  | resumed hcall hpiece =>
    refine Or.inl ?_
    cases hpiece with
    | undone _ _ _ _ _ _ _ hrest => exact hupdate hrest.transactions fun h => unresolved_resolvedAt h _
    | notUndone _ hstill | torn _ _ _ _ hstill => rw [Undone]; exact hstill.transactions ▸ hundone
    | activated _ _ => exact hupdate rfl fun h => h
    | _ => exact hundone
  | quiet _ hstill => exact Or.inl (by rw [Undone, hstill.transactions]; exact hundone)
  | _ => exact Or.inl hundone

theorem abortedAreUndone_step (hinv : s.db.Inv) (h : s.AbortedAreUndone) (hsafe : s.AbortsSafely step) :
    (s.step step).AbortedAreUndone := by
  intro t haborted
  have hstep := (step_cases hinv step).1
  have hold : s.db.state t = .aborted → (s.step step).Undone t := by
    intro hstate
    rcases hstep.undone (h t hstate) with hdone | ⟨id, change, rfl⟩
    · exact hdone
    · exact absurd hstate hsafe
  -- A transaction that has just become `Aborted`, or one that was.
  have hupdate : ∀ {owner : TransactionId} {state : TransactionState},
      s.db.locking.Left (s.step step).db.locking owner state → (owner = t → state = .aborted → (s.step step).Undone t) →
      (s.step step).Undone t := by
    intro owner state hleft hnew
    rw [Database.state, hleft.2.1, Function.update_apply] at haborted
    split at haborted
    · rename_i heq
      exact hnew heq.symm haborted
    · exact hold haborted
  cases hstep.took with
  | nothing hkept => exact hold (by rwa [Database.state, hkept.1] at haborted)
  | dying request heq hdies hleft =>
    refine hupdate hleft fun howner _ => ?_
    subst heq howner
    rcases hstep.undone (hsafe hdies) with hdone | ⟨id, change, hne⟩
    · exact hdone
    · cases hne
  | unlocking owner resource heq hleft | committing owner hcall hleft => exact hupdate hleft fun _ hne => by cases hne
  | aborting owner hcall hundone hundone' hleft => exact hupdate hleft fun howner _ => howner ▸ hundone'

/-- A lock is lost by dying, by unlocking, or at the end of its transaction. -/
theorem released_step (hinv : s.db.Inv) (hsafe : s.AbortsSafely step) (hunlock : ∀ t r, step ≠ .unlock t r) {r : ResourceId}
    (hholds : s.db.locking.Holds t r) (hlost : ¬ (s.step step).db.locking.Holds t r) :
    s.Undone t ∨ (s.step step).db.state t = .committed := by
  have howner : ∀ {owner : TransactionId} {state : TransactionState},
      s.db.locking.Left (s.step step).db.locking owner state → t = owner := by
    intro owner state hleft
    by_contra hne
    exact hlost (hleft.2.2 t r hne hholds)
  cases (step_cases hinv step).1.took with
  | nothing hkept => exact absurd (hkept.2 t r hholds) hlost
  | dying request heq hdies hleft =>
    subst heq
    rw [howner hleft]
    exact Or.inl (hsafe hdies)
  | unlocking owner resource heq hleft => exact absurd heq (hunlock owner resource)
  | committing owner hcall hleft =>
    obtain rfl := howner hleft
    refine Or.inr ?_
    rw [Database.state, hleft.2.1, Function.update_self]
  | aborting owner hcall hundone hundone' hleft =>
    obtain rfl := howner hleft
    exact Or.inl hundone

theorem committed_step (hinv : s.db.Inv) (h : s.db.state t = .committed) : (s.step step).db.state t = .committed := by
  have hother : ∀ {owner : TransactionId} {state : TransactionState},
      s.db.locking.Left (s.step step).db.locking owner state → (s.step step).db.state t = .committed := by
    intro owner state hleft
    have hne : t ≠ owner := by
      rintro rfl
      have hrunning := hleft.1
      rw [show s.db.locking.state t = .committed from h] at hrunning
      cases hrunning
    rw [Database.state, hleft.2.1, Function.update_of_ne hne]
    exact h
  cases (step_cases hinv step).1.took with
  | nothing hkept => rwa [Database.state, hkept.1]
  | dying request heq hdies hleft | unlocking owner resource heq hleft | committing owner hcall hleft => exact hother hleft
  | aborting owner hcall hundone hundone' hleft => exact hother hleft

/-- In every run of transactions that give up no lock before they end, all `Aborted` transactions have been undone, and had
been when their locks were released, as long as no request dies on a transaction with mutations that are not undone and
nothing is captured in an `Aborted` transaction. -/
theorem aborted_undone_before_release (hinit : s.Initial) (run : List Step) (hunlock : ∀ t r, Step.unlock t r ∉ run)
    (hsafe : EachStep System.step AbortsSafely s run) :
    Always System.step AbortedAreUndone s run ∧ s.UndoneBeforeRelease run := by
  have hstart : s.AbortedAreUndone := by
    obtain ⟨pages, capacity, log, rfl, -, -⟩ := hinit
    intro t haborted
    cases haborted
  constructor
  · have hall := always_of_eachStep (P := fun s : System => s.db.Inv ∧ s.AbortedAreUndone)
      (fun s step h hc => ⟨inv_step h.1 step, abortedAreUndone_step h.1 h.2 hc⟩) ⟨hinit.inv, hstart⟩ hsafe
    exact hall.mono fun _ h => h.2
  · rintro done step rest rfl t r hholds hlost haborted
    have hinv : (exec System.step s done).db.Inv := exec_keeps (P := fun s : System => s.db.Inv) (fun _ a h => inv_step h a) hinit.inv
    have hnot : ∀ t r, step ≠ .unlock t r := fun t r heq => hunlock t r (by simp [heq])
    rcases released_step hinv hsafe.at_split hnot hholds hlost with hundone | hcommitted
    · exact hundone
    · -- A committed transaction never becomes `Aborted`.
      have hlast : ((exec System.step s (done ++ step :: rest)).db.Inv ∧
          (exec System.step s (done ++ step :: rest)).db.state t = .committed) := by
        rw [exec_append, exec_cons]
        exact exec_keeps (P := fun s : System => s.db.Inv ∧ s.db.state t = .committed)
          (fun _ a h => ⟨inv_step h.1 a, committed_step h.1 h.2⟩) ⟨inv_step hinv step, hcommitted⟩
      rw [hlast.2] at haborted
      cases haborted

/-- A transaction takes a lock, captures a mutation and is aborted, the five pieces of the call one after the other. -/
def abortedRun : List Step :=
  [.allocate none, .begin, .lock ⟨1, ⟨0⟩, .exclusive⟩, .access (some 1) (.ofIndex 0) (fun _ => some (.filled 1)),
    .abort 1, .resume 1, .resume 1, .resume 1, .resume 1, .resume 1]

theorem abortedRun_undone : (exec System.step (new 1) abortedRun).db.state 1 = .aborted ∧
    Always System.step AbortedAreUndone (new 1) abortedRun ∧ (new 1).UndoneBeforeRelease abortedRun := by
  refine ⟨by decide +kernel, aborted_undone_before_release (initial_new 1) abortedRun (by simp [abortedRun]) ?_⟩
  refine ⟨trivial, trivial, fun _ => rfl, ?_, trivial, trivial, trivial, trivial, trivial, trivial, trivial⟩
  change LockSystem.state _ _ ≠ _
  decide +kernel

/-- Transaction 1 holds a lock; transaction 2 captures a mutation, asks for the lock, and is aborted. -/
def dyingRun : List Step :=
  [.allocate none, .begin, .begin, .lock ⟨1, ⟨0⟩, .exclusive⟩,
    .access (some 2) (.ofIndex 0) (fun _ => some (.filled 1)), .lock ⟨2, ⟨0⟩, .exclusive⟩, .abort 2]

/-- Transaction 2 has died with its mutation in place, and the coordinator's `abort` returns at once. -/
theorem dyingRun_not_undone : (exec System.step (new 1) dyingRun).db.state 2 = .aborted ∧
    (exec System.step (new 1) dyingRun).calls 2 = [] ∧ ¬ (exec System.step (new 1) dyingRun).Undone 2 := by
  unfold Undone
  decide +kernel

end System

end Ddb.Concurrency
