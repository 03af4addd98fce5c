import Ddb.Concurrency.AbortSafety
import Ddb.Concurrency.LockTable

/-!
# Two-phase locking

A transaction takes locks while it is growing and loses none of them. So when a lock is granted that conflicts with one that
somebody else has held before, that other transaction has left its growing phase, and the requester has not: conflicts go
from the transactions that stopped growing first to those that stopped later, and never in a circle.
-/

namespace Ddb.Concurrency.LockSystem

open Ddb.Lib LockManager

variable {s : LockSystem} {t : TransactionId}

/-- The request that a mutex section grants: its call returns `true`. -/
def granted (s : LockSystem) : LockStep → Option LockRequest
  | .lock request =>
    if s.state request.transactionId = .growing ∧
      (s.locks.lockPass request.transactionId request.resource request.mode).2 = .returned true then some request else none
  | .wake request =>
    if (request ∈ s.waiters ∧ s.waitOver request) ∧ s.state request.transactionId = .growing ∧
      (s.locks.lockPass request.transactionId request.resource request.mode).2 = .returned true then some request else none
  | .unlock _ _ | .commit _ | .abort _ => none

/-- `a` held a lock on a resource, and later in the run `b` was granted one on it that conflicts. -/
def Precedes (run : List LockStep) (a b : TransactionId) : Prop :=
  ∃ before between step after request mode, run = before ++ between ++ step :: after ∧
    ⟨a, mode⟩ ∈ (exec LockSystem.step initial before).locks.holders request.resource ∧
    (exec LockSystem.step initial (before ++ between)).granted step = some request ∧ request.transactionId = b ∧ a ≠ b ∧
    conflicts request.mode mode = true

/-! ## Growing -/

/-- What a growing transaction had before, it has still, and it was growing before. -/
structure Grows (s s' : LockSystem) (t : TransactionId) : Prop where
  growing : s.state t = .growing
  keeps : ∀ r, ∀ holder ∈ s.locks.holders r, holder.transactionId = t → ∃ kept ∈ s'.locks.holders r, Keeps kept holder

theorem Grows.of_mem {s' : LockSystem} (hgrowing : s.state t = .growing)
    (h : ∀ r, ∀ holder ∈ s.locks.holders r, holder.transactionId = t → holder ∈ s'.locks.holders r) : Grows s s' t :=
  ⟨hgrowing, fun r holder hmem hid => ⟨holder, h r holder hmem hid, keeps_refl holder⟩⟩

/-- A transaction that changes its state is not growing any more; the others keep their locks. -/
theorem grows_leave {locks : LockManager} {tx : TransactionId} {state : TransactionState} (hstate : state ≠ .growing)
    (hkept : ∀ r, ∀ holder ∈ s.locks.holders r, holder.transactionId ≠ tx → holder ∈ locks.holders r)
    (h : (({ s with locks := locks } : LockSystem).setState tx state).state t = .growing) :
    Grows s (({ s with locks := locks } : LockSystem).setState tx state) t := by
  have hstates : Function.update s.state tx state t = .growing := h
  have hne : t ≠ tx := by
    rintro rfl
    exact hstate ((Function.update_self t state s.state).symm.trans hstates)
  exact .of_mem ((Function.update_of_ne hne _ _).symm.trans hstates) fun r holder hmem hid => hkept r holder hmem (hid ▸ hne)

theorem grows_lockSection {request : LockRequest} (h : (s.lockSection request).state t = .growing) :
    Grows s (s.lockSection request) t := by
  rcases lockPass_cases s.locks request.transactionId request.resource request.mode with
    ⟨locks, answer, hpass, -, hholders⟩ | ⟨locks, hpass, -, -, -, hkept⟩ | ⟨locks, hpass, -, -, -, hkept⟩ |
    ⟨locks, hpass, -, hholders, -⟩
  all_goals rw [lockSection, hpass] at h ⊢
  · exact .of_mem h fun r holder hmem _ => (hholders r).symm ▸ hmem
  · exact ⟨h, fun r holder hmem _ => hkept r holder hmem⟩
  · exact grows_leave (by decide) (fun r holder hmem hne => hkept r holder hmem hne) h
  · exact .of_mem h fun r holder hmem _ => (hholders r).symm ▸ hmem

theorem grows_step (step : LockStep) : (s.step step).state t = .growing → Grows s (s.step step) t := by
  have hsame : s.state t = .growing → Grows s s t := fun hgrowing => .of_mem hgrowing fun _ _ hmem _ => hmem
  cases step with
  | lock request =>
    rw [LockSystem.step]
    split
    · exact grows_lockSection
    · exact hsame
  | wake request =>
    rw [LockSystem.step]
    split
    · dsimp only
      split
      · intro h
        exact ⟨(grows_lockSection h).growing, (grows_lockSection h).keeps⟩
      · exact fun h => ⟨h, (hsame h).keeps⟩
    · exact hsame
  | unlock tx resource =>
    rw [LockSystem.step]
    split
    · cases hunlock : s.locks.unlockEntry tx resource with
      | none => exact hsame
      | some locks => exact grows_leave (by decide) fun r holder hmem hne => mem_unlockEntry_of_ne hunlock hne hmem
    · exact hsame
  | commit tx | abort tx =>
    rw [LockSystem.step]
    split
    · exact hsame
    · exact grows_leave (by decide) fun r holder hmem hne => mem_releaseAll_of_ne hne hmem

theorem keeps_trans {a b c : Holder} (hab : Keeps a b) (hbc : Keeps b c) : Keeps a c := by
  obtain ⟨hid, hmode⟩ := hbc
  refine ⟨hab.1.trans hid, ?_⟩
  rcases hab.2 with hsame | hexclusive
  · rw [hsame]
    exact hmode
  · exact .inr hexclusive

/-- The same over a run. -/
theorem grows_exec (run : List LockStep) (h : (exec LockSystem.step s run).state t = .growing) :
    Grows s (exec LockSystem.step s run) t := by
  induction run generalizing s with
  | nil => exact .of_mem h fun _ _ hmem _ => hmem
  | cons step rest ih =>
    have hrest := ih h
    have hstep := grows_step step hrest.growing
    refine ⟨hstep.growing, fun r holder hmem hid => ?_⟩
    obtain ⟨between, hbetween, hkeeps⟩ := hstep.keeps r holder hmem hid
    obtain ⟨kept, hkept, hkeeps'⟩ := hrest.keeps r between hbetween (hkeeps.1.trans hid)
    exact ⟨kept, hkept, keeps_trans hkeeps' hkeeps⟩

/-! ## Grants -/

theorem conflicts_of_keeps {kept holder : Holder} {mode : LockMode} (hkeeps : Keeps kept holder)
    (h : conflicts mode holder.mode = true) : conflicts mode kept.mode = true := by
  rcases hkeeps.2 with hsame | hexclusive
  · rwa [hsame]
  · simp [conflicts, hexclusive]

theorem exclusive_of_conflicts {requested held : LockMode} (h : conflicts requested held = true) :
    requested = .exclusive ∨ held = .exclusive := by
  simpa [conflicts] using h

/-- The own entry of a transaction that is told it has the lock. -/
theorem exists_own_of_ownReturn {lm : LockManager} {tx : TransactionId} {resource : ResourceId} {mode : LockMode}
    (h : ownReturn (lm.ownEntry tx resource) mode = some true) :
    ∃ own ∈ lm.holders resource, own.transactionId = tx ∧ own.mode = mode := by
  cases hown : lm.ownEntry tx resource with
  | none =>
    rw [hown] at h
    cases h
  | some own =>
    rw [hown, ownReturn] at h
    refine ⟨own, List.mem_of_find?_eq_some hown, by simpa using List.find?_some hown, ?_⟩
    by_contra hmode
    rw [if_neg hmode] at h
    split at h <;> cases h

/-- A lock is granted to a growing transaction, and never beside one that conflicts with it. -/
theorem granted_cases (hsound : s.Sound) {step : LockStep} {request : LockRequest} (h : s.granted step = some request) :
    s.state request.transactionId = .growing ∧ ∀ holder ∈ s.locks.holders request.resource,
      holder.transactionId ≠ request.transactionId → conflicts request.mode holder.mode = false := by
  obtain ⟨hgrowing, hpass⟩ : s.state request.transactionId = .growing ∧
      (s.locks.lockPass request.transactionId request.resource request.mode).2 = .returned true := by
    cases step with
    | lock request' =>
      rw [granted] at h
      split at h
      · rename_i hcond
        obtain rfl := Option.some.inj h
        exact hcond
      · cases h
    | wake request' =>
      rw [granted] at h
      split at h
      · rename_i hcond
        obtain rfl := Option.some.inj h
        exact hcond.2
      · cases h
    | unlock tx resource => cases h
    | commit tx => cases h
    | abort tx => cases h
  refine ⟨hgrowing, fun holder hmem hne => ?_⟩
  rw [lockPass_eq, turn] at hpass
  cases hreturn : ownReturn (s.locks.ownEntry request.transactionId request.resource) request.mode with
  | none =>
    rw [hreturn] at hpass
    dsimp only at hpass
    split at hpass
    · rename_i hcompatible
      exact compatible_iff.mp hcompatible holder hmem hne
    · split at hpass <;> cases hpass
  | some answer =>
    -- The transaction has the lock already, and nobody has one beside it that conflicts.
    rw [hreturn] at hpass
    obtain rfl : answer = true := LockPass.returned.inj hpass
    obtain ⟨own, hown, hid, hmode⟩ := exists_own_of_ownReturn hreturn
    rw [Bool.eq_false_iff]
    intro hconflict
    have hsame : holder = own := by
      rcases exclusive_of_conflicts hconflict with hexclusive | hexclusive
      · have hone := hsound.tables.exclusive _ own hown (hmode.trans hexclusive)
        exact List.mem_singleton.mp (hone ▸ hmem)
      · have hone := hsound.tables.exclusive _ holder hmem hexclusive
        exact (List.mem_singleton.mp (hone ▸ hown)).symm
    exact hne (hsame ▸ hid)

/-- What a conflict says of the two transactions at the moment of the grant. -/
theorem Precedes.phases {run : List LockStep} {a b : TransactionId} (h : Precedes run a b) :
    ∃ done, done <+: run ∧ ¬ (exec LockSystem.step initial done).state a = .growing ∧
      (exec LockSystem.step initial done).state b = .growing := by
  obtain ⟨before, between, step, after, request, mode, rfl, hheld, hgranted, rfl, hne, hconflict⟩ := h
  have hsound : (exec LockSystem.step initial (before ++ between)).Sound :=
    exec_keeps (fun _ step h => h.step step) sound_initial
  obtain ⟨hgrowing, hfree⟩ := granted_cases hsound hgranted
  refine ⟨before ++ between, ⟨step :: after, rfl⟩, fun hstill => ?_, hgrowing⟩
  rw [exec_append] at hstill hfree
  obtain ⟨kept, hkept, hkeeps⟩ := (grows_exec between hstill).keeps request.resource ⟨a, mode⟩ hheld rfl
  have hnone := hfree kept hkept (fun heq => hne (hkeeps.1.symm.trans heq))
  rw [conflicts_of_keeps hkeeps hconflict] at hnone
  cases hnone

/-- **Two-phase locking.** In every run of the lock manager the conflicts between transactions have no cycle. -/
theorem precedes_acyclic (run : List LockStep) (t : TransactionId) : ¬ Relation.TransGen (Precedes run) t t :=
  @acyclic_of_phases _ _ LockSystem.step initial run _ (fun s t => s.state t = .growing) (Precedes run)
    (fun _ step _ h => (grows_step step h).growing) (fun _ _ h => h.phases) t

example : Precedes [.lock ⟨1, ⟨7⟩, .exclusive⟩, .unlock 1 ⟨7⟩, .lock ⟨2, ⟨7⟩, .shared⟩] 1 2 :=
  ⟨[.lock ⟨1, ⟨7⟩, .exclusive⟩], [.unlock 1 ⟨7⟩], .lock ⟨2, ⟨7⟩, .shared⟩, [], ⟨2, ⟨7⟩, .shared⟩, .exclusive, rfl, by decide,
    by decide, rfl, by decide, rfl⟩

end Ddb.Concurrency.LockSystem
