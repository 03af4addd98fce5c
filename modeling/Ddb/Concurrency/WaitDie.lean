import Mathlib.Logic.Relation
import Ddb.Lib.Run
import Ddb.Concurrency.LockManager

/-!
# WAIT-DIE and the wait-for relation

WAIT-DIE is meant to let a transaction sleep only behind younger ones, so that the wait-for relation follows the ids and
has no cycle. The age test runs once, when the request first meets a conflicting holder. A lock granted to somebody else
while the request sleeps is not tested against it: a shared lock is granted past a sleeping exclusive request, and among
several sleepers any whose predicate holds may wake first. So the promise is kept by exactly those runs in which no lock
is granted to a transaction older than a sleeper it conflicts with.
-/

namespace Ddb.Concurrency

open Ddb.Lib

namespace LockManager

variable {lm : LockManager} {tx : TransactionId} {resource : ResourceId} {mode : LockMode} {holder : Holder} {r : ResourceId}

theorem mem_dropHolder {entry : Option (List Holder)} (h : holder ∈ (dropHolder tx entry).getD []) :
    holder ∈ entry.getD [] := by
  cases entry with
  | none => simp [dropHolder] at h
  | some holders =>
    simp only [dropHolder] at h
    split at h
    · simp at h
    · exact (List.mem_filter.mp h).1

theorem mem_holders_releaseAll (h : holder ∈ (lm.releaseAll tx).holders r) : holder ∈ lm.holders r := by
  simp only [holders, releaseAll] at h ⊢
  cases hheld : lm.held tx with
  | none => simpa only [hheld] using h
  | some resources =>
    simp only [hheld] at h
    split at h
    · exact mem_dropHolder h
    · exact h

theorem mem_holders_unlockEntry {next : LockManager} (hunlock : lm.unlockEntry tx resource = some next)
    (h : holder ∈ next.holders r) : holder ∈ lm.holders r := by
  simp only [unlockEntry] at hunlock
  split at hunlock
  · simp at hunlock
  · rename_i entries hentries
    split at hunlock
    · obtain rfl := Option.some.inj hunlock
      by_cases hr : r = resource
      · subst hr
        simp only [holders, Function.update_self, hentries, Option.getD_some] at h ⊢
        split at h
        · simp at h
        · exact List.eraseP_subset h
      · simpa only [holders, Function.update_of_ne hr] using h
    · simp at hunlock

theorem mem_upgrade {entries : List Holder} (h : holder ∈ upgrade tx entries) :
    holder ∈ entries ∨ holder = ⟨tx, .exclusive⟩ := by
  induction entries with
  | nil => simp [upgrade] at h
  | cons first rest ih =>
    simp only [upgrade] at h
    split at h
    · rename_i hfirst
      rcases List.mem_cons.mp h with rfl | h
      · right
        simp only [beq_iff_eq] at hfirst
        simp [hfirst]
      · exact Or.inl (List.mem_cons_of_mem _ h)
    · rcases List.mem_cons.mp h with rfl | h
      · exact Or.inl List.mem_cons_self
      · exact (ih h).imp_left (List.mem_cons_of_mem _)

theorem exclusive_mem_upgrade {entries : List Holder} (h : ∃ holder ∈ entries, holder.transactionId = tx) :
    ⟨tx, .exclusive⟩ ∈ upgrade tx entries := by
  induction entries with
  | nil => simp at h
  | cons first rest ih =>
    simp only [upgrade]
    split
    · rename_i hfirst
      simp only [beq_iff_eq] at hfirst
      simp [hfirst]
    · rename_i hfirst
      obtain ⟨holder, hmem, htx⟩ := h
      rcases List.mem_cons.mp hmem with rfl | hmem
      · simp [htx] at hfirst
      · exact List.mem_cons_of_mem _ (ih ⟨holder, hmem, htx⟩)

/-- Whether a turn of the lock loop ends in the grant branch. -/
def grants (lm : LockManager) (tx : TransactionId) (resource : ResourceId) (mode : LockMode) : Bool :=
  (ownReturn (lm.ownEntry tx resource) mode).isNone && lm.compatible tx resource mode

/-- Whether the section dies. -/
def dies (lm : LockManager) (tx : TransactionId) (resource : ResourceId) (mode : LockMode) : Bool :=
  (ownReturn (lm.ownEntry tx resource) mode).isNone && lm.requesterIsYoungerThanConflict tx resource mode

/-- A conflicting holder of somebody else. -/
def Conflicting (tx : TransactionId) (mode : LockMode) (holder : Holder) : Prop :=
  holder.transactionId ≠ tx ∧ conflicts mode holder.mode = true

theorem lt_of_not_younger (hyoung : lm.requesterIsYoungerThanConflict tx resource mode = false)
    (hmem : holder ∈ lm.holders resource) (hconf : Conflicting tx mode holder) : tx < holder.transactionId := by
  simp only [holders] at hmem
  simp only [requesterIsYoungerThanConflict] at hyoung
  cases htable : lm.table resource with
  | none => simp [htable] at hmem
  | some entries =>
    simp only [htable, Option.getD_some] at hmem
    simp only [htable, List.any_eq_false, Bool.and_eq_true, bne_iff_ne, decide_eq_true_eq] at hyoung
    have hle : tx ≤ holder.transactionId :=
      Nat.le_of_not_lt fun hlt => hyoung holder hmem ⟨⟨hconf.1, hconf.2⟩, hlt⟩
    exact Nat.lt_of_le_of_ne hle (Ne.symm hconf.1)

/-- The entry that `table_[resource]` creates changes no list of holders. -/
theorem holders_touch (r : ResourceId) :
    ({ lm with table := Function.update lm.table resource (some (lm.holders resource)) } : LockManager).holders r =
      lm.holders r := by
  by_cases hr : r = resource
  · subst hr
    simp [holders]
  · simp [holders, Function.update_of_ne hr]

theorem mem_grant (hown : ∀ own, lm.ownEntry tx resource = some own → mode = .exclusive)
    (h : holder ∈ (lm.grant tx resource mode).holders r) : holder ∈ lm.holders r ∨ r = resource ∧ holder = ⟨tx, mode⟩ := by
  by_cases hr : r = resource
  · subst hr
    simp only [grant] at h
    split at h
    · rename_i own howneq
      obtain rfl := hown own howneq
      simp only [holders, Function.update_self, Option.getD_some] at h
      exact (mem_upgrade h).imp id fun he => ⟨rfl, he⟩
    · simp only [holders, Function.update_self, Option.getD_some, List.mem_append, List.mem_singleton] at h
      exact h.imp id fun he => ⟨rfl, he⟩
  · left
    simp only [grant] at h
    split at h <;> simpa only [holders, Function.update_of_ne hr] using h

theorem mem_grant_self (hown : ∀ own, lm.ownEntry tx resource = some own → mode = .exclusive) :
    ⟨tx, mode⟩ ∈ (lm.grant tx resource mode).holders resource := by
  simp only [grant]
  split
  · rename_i own howneq
    obtain rfl := hown own howneq
    simp only [holders, Function.update_self, Option.getD_some]
    refine exclusive_mem_upgrade ⟨own, List.mem_of_find?_eq_some howneq, ?_⟩
    simpa using List.find?_some howneq
  · simp [holders]

/-! A lock is only ever taken from its owner. -/

theorem mem_releaseAll_of_ne (hne : holder.transactionId ≠ tx) (h : holder ∈ lm.holders r) :
    holder ∈ (lm.releaseAll tx).holders r := by
  simp only [holders, releaseAll] at h ⊢
  cases hheld : lm.held tx with
  | none => exact h
  | some resources =>
    simp only
    split
    · cases htable : lm.table r with
      | none => simp [htable] at h
      | some entries =>
        rw [htable, Option.getD_some] at h
        have hkept : holder ∈ entries.filter fun other => other.transactionId != tx :=
          List.mem_filter.mpr ⟨h, by simpa using hne⟩
        have hfull : (entries.filter fun other => other.transactionId != tx).isEmpty = false := by
          rw [List.isEmpty_eq_false_iff]
          exact List.ne_nil_of_mem hkept
        simpa [dropHolder, hfull] using hkept
    · exact h

/-- The same transaction's lock, and no weaker one. -/
def Keeps (kept holder : Holder) : Prop :=
  kept.transactionId = holder.transactionId ∧ (kept.mode = holder.mode ∨ kept.mode = .exclusive)

theorem keeps_refl (holder : Holder) : Keeps holder holder := ⟨rfl, .inl rfl⟩

theorem keeps_upgrade {entries : List Holder} (h : holder ∈ entries) : ∃ kept ∈ upgrade tx entries, Keeps kept holder := by
  induction entries with
  | nil => simp at h
  | cons first rest ih =>
    rw [upgrade]
    split
    · rcases List.mem_cons.mp h with rfl | hrest
      · exact ⟨_, List.mem_cons_self, rfl, .inr rfl⟩
      · exact ⟨holder, List.mem_cons_of_mem _ hrest, keeps_refl holder⟩
    · rcases List.mem_cons.mp h with rfl | hrest
      · exact ⟨_, List.mem_cons_self, keeps_refl _⟩
      · obtain ⟨kept, hkept, howner⟩ := ih hrest
        exact ⟨kept, List.mem_cons_of_mem _ hkept, howner⟩

theorem keeps_grant (h : holder ∈ lm.holders r) : ∃ kept ∈ (lm.grant tx resource mode).holders r, Keeps kept holder := by
  rw [grant]
  split
  · by_cases hr : r = resource
    · subst hr
      simp only [holders, Function.update_self, Option.getD_some]
      exact keeps_upgrade h
    · exact ⟨holder, by simpa only [holders, Function.update_of_ne hr] using h, keeps_refl holder⟩
  · by_cases hr : r = resource
    · subst hr
      simp only [holders, Function.update_self, Option.getD_some]
      exact ⟨holder, List.mem_append_left _ h, keeps_refl holder⟩
    · exact ⟨holder, by simpa only [holders, Function.update_of_ne hr] using h, keeps_refl holder⟩

theorem mem_unlockEntry_of_ne {next : LockManager} (hunlock : lm.unlockEntry tx resource = some next)
    (hne : holder.transactionId ≠ tx) (h : holder ∈ lm.holders r) : holder ∈ next.holders r := by
  rw [unlockEntry] at hunlock
  split at hunlock
  · simp at hunlock
  · rename_i entries hentries
    split at hunlock
    · obtain rfl := Option.some.inj hunlock
      by_cases hr : r = resource
      · subst hr
        rw [holders, hentries, Option.getD_some] at h
        have hkept : holder ∈ entries.eraseP fun other => other.transactionId == tx :=
          (List.mem_eraseP_of_neg (by simpa using hne)).mpr h
        have hfull : (entries.eraseP fun other => other.transactionId == tx).isEmpty = false := by
          rw [List.isEmpty_eq_false_iff]
          exact List.ne_nil_of_mem hkept
        simpa [holders, hfull] using hkept
      · simpa only [holders, Function.update_of_ne hr] using h
    · simp at hunlock

/-- Only an upgrade reaches the grant branch with an own entry. -/
theorem mode_of_ownReturn_none {own : Holder} (h : ownReturn (some own) mode = none) : mode = .exclusive := by
  cases hmode : mode <;> cases hown : own.mode <;> simp [ownReturn, hmode, hown] at h ⊢

/-- What a turn of the lock loop can do: return without touching a holder, grant, die, or go to sleep behind conflicting
holders that are all younger. -/
theorem lockPass_cases (lm : LockManager) (tx : TransactionId) (resource : ResourceId) (mode : LockMode) :
    (∃ next answer, lm.lockPass tx resource mode = (next, .returned answer) ∧ lm.grants tx resource mode = false ∧
      ∀ r, next.holders r = lm.holders r) ∨
    (∃ next, lm.lockPass tx resource mode = (next, .returned true) ∧ lm.grants tx resource mode = true ∧
      ⟨tx, mode⟩ ∈ next.holders resource ∧
      (∀ r holder, holder ∈ next.holders r → holder ∈ lm.holders r ∨ r = resource ∧ holder = ⟨tx, mode⟩) ∧
      ∀ r holder, holder ∈ lm.holders r → ∃ kept ∈ next.holders r, Keeps kept holder) ∨
    (∃ next, lm.lockPass tx resource mode = (next, .died) ∧ lm.grants tx resource mode = false ∧
      (∀ r holder, holder ∈ next.holders r → holder ∈ lm.holders r) ∧ lm.dies tx resource mode = true ∧
      ∀ r holder, holder ∈ lm.holders r → holder.transactionId ≠ tx → holder ∈ next.holders r) ∨
    (∃ next, lm.lockPass tx resource mode = (next, .blocked) ∧ lm.grants tx resource mode = false ∧
      (∀ r, next.holders r = lm.holders r) ∧
      ∀ holder ∈ lm.holders resource, Conflicting tx mode holder → tx < holder.transactionId) := by
  let touched : LockManager := { lm with table := Function.update lm.table resource (some (lm.holders resource)) }
  have htouch : ∀ r, touched.holders r = lm.holders r := fun r => holders_touch r
  have hownEntry : touched.ownEntry tx resource = lm.ownEntry tx resource := by simp only [ownEntry, htouch]
  have hcompat : touched.compatible tx resource mode = lm.compatible tx resource mode := by
    cases htable : lm.table resource <;> simp [touched, compatible, holders, htable]
  have hgrants : lm.grants tx resource mode =
      ((ownReturn (touched.ownEntry tx resource) mode).isNone && touched.compatible tx resource mode) := by
    rw [hownEntry, hcompat]
    rfl
  cases hreturn : ownReturn (touched.ownEntry tx resource) mode with
  | some answer =>
    refine Or.inl ⟨touched, answer, ?_, by simp [hgrants, hreturn], htouch⟩
    rw [lockPass, hreturn]
  | none =>
    have hpass : lm.lockPass tx resource mode =
        if touched.compatible tx resource mode then (touched.grant tx resource mode, .returned true)
        else if touched.requesterIsYoungerThanConflict tx resource mode then (touched.releaseAll tx, .died)
        else (touched, .blocked) := by
      rw [lockPass, hreturn]
    have hmode : ∀ own, touched.ownEntry tx resource = some own → mode = .exclusive := fun own hown =>
      @mode_of_ownReturn_none mode own (by rw [← hown, hreturn])
    rw [hpass]
    by_cases hc : touched.compatible tx resource mode = true
    · refine Or.inr (Or.inl ⟨touched.grant tx resource mode, by rw [if_pos hc], by simp [hgrants, hreturn, hc],
        mem_grant_self hmode, fun r holder h => ?_, fun r holder h => ?_⟩)
      · rw [← htouch]
        exact mem_grant hmode h
      · rw [← htouch] at h
        exact keeps_grant h
    · have hfalse : lm.grants tx resource mode = false := by simp [hgrants, hreturn, hc]
      rw [if_neg hc]
      by_cases hy : touched.requesterIsYoungerThanConflict tx resource mode = true
      · have hyoung : touched.requesterIsYoungerThanConflict tx resource mode =
            lm.requesterIsYoungerThanConflict tx resource mode := by
          cases htable : lm.table resource <;> simp [touched, requesterIsYoungerThanConflict, holders, htable]
        refine Or.inr (Or.inr (Or.inl ⟨touched.releaseAll tx, by rw [if_pos hy], hfalse, fun r holder h => ?_, ?_,
          fun r holder h hne => ?_⟩))
        · rw [← htouch]
          exact mem_holders_releaseAll h
        · rw [dies, ← hownEntry, hreturn, ← hyoung, hy]
          rfl
        · rw [← htouch] at h
          exact mem_releaseAll_of_ne hne h
      · refine Or.inr (Or.inr (Or.inr ⟨touched, by rw [if_neg hy], hfalse, htouch, fun holder hmem hconf => ?_⟩))
        rw [← htouch] at hmem
        exact lt_of_not_younger (Bool.eq_false_iff.mpr hy) hmem hconf

end LockManager

namespace LockSystem

open LockManager

/-- `a` sleeps on a resource where `b` holds a conflicting lock. A request whose transaction has been aborted under it no
longer waits: its wait predicate holds. -/
def WaitsFor (s : LockSystem) (a b : TransactionId) : Prop :=
  ∃ request ∈ s.waiters, request.transactionId = a ∧ s.state a ≠ .aborted ∧
    ∃ holder ∈ s.locks.holders request.resource, Conflicting a request.mode holder ∧ holder.transactionId = b

def WaitForAcyclic (s : LockSystem) : Prop := ∀ tx, ¬ Relation.TransGen s.WaitsFor tx tx

/-- What WAIT-DIE demands: a waiter is older than every conflicting holder it waits for. -/
def WaitersAreOlder (s : LockSystem) : Prop := ∀ a b, s.WaitsFor a b → a < b

theorem WaitersAreOlder.acyclic {s : LockSystem} (h : s.WaitersAreOlder) : s.WaitForAcyclic := by
  have hlt : ∀ a b, Relation.TransGen s.WaitsFor a b → a < b := by
    intro a b hab
    induction hab with
    | single hstep => exact h _ _ hstep
    | tail _ hstep ih => exact Nat.lt_trans ih (h _ _ hstep)
  exact fun tx hcycle => Nat.lt_irrefl tx (hlt tx tx hcycle)

/-- A lock is granted to the request only over the heads of older sleepers. -/
def OvertakesOlderOnly (s : LockSystem) (request : LockRequest) : Prop :=
  s.locks.grants request.transactionId request.resource request.mode = true →
    ∀ waiter ∈ s.waiters, waiter.resource = request.resource → waiter.transactionId ≠ request.transactionId →
      s.state waiter.transactionId ≠ .aborted → conflicts waiter.mode request.mode = true →
        waiter.transactionId < request.transactionId

/-- The condition on one mutex section: if it grants a lock, it overtakes older sleepers only. -/
def GrantsInOrder (s : LockSystem) : LockStep → Prop
  | .lock request => s.state request.transactionId = .growing → s.OvertakesOlderOnly request
  | .wake request =>
    request ∈ s.waiters → s.waitOver request = true → s.state request.transactionId = .growing →
      s.OvertakesOlderOnly request
  | _ => True

variable {s next : LockSystem} {request : LockRequest}

theorem WaitersAreOlder.of_subset (h : s.WaitersAreOlder) (hwaiters : ∀ w ∈ next.waiters, w ∈ s.waiters)
    (hstate : ∀ tx, s.state tx = .aborted → next.state tx = .aborted)
    (hholders : ∀ r holder, holder ∈ next.locks.holders r → holder ∈ s.locks.holders r) : next.WaitersAreOlder := by
  rintro a b ⟨waiter, hmem, htx, halive, holder, hholder, hconf, hb⟩
  exact h a b ⟨waiter, hwaiters waiter hmem, htx, fun hab => halive (hstate a hab), holder,
    hholders _ _ hholder, hconf, hb⟩

/-- A grant keeps the waiters older exactly when it overtakes older sleepers only. -/
theorem waitersAreOlder_grant_iff (h : s.WaitersAreOlder) {locks : LockManager}
    (hgrants : s.locks.grants request.transactionId request.resource request.mode = true)
    (hnew : ⟨request.transactionId, request.mode⟩ ∈ locks.holders request.resource)
    (hholders : ∀ r holder, holder ∈ locks.holders r → holder ∈ s.locks.holders r ∨
      r = request.resource ∧ holder = ⟨request.transactionId, request.mode⟩) :
    ({ s with locks := locks } : LockSystem).WaitersAreOlder ↔ s.OvertakesOlderOnly request := by
  constructor
  · intro hnext _ waiter hmem hresource hne halive hconf
    refine hnext _ _ ⟨waiter, hmem, rfl, halive, ⟨request.transactionId, request.mode⟩, ?_, ⟨Ne.symm hne, hconf⟩, rfl⟩
    rw [hresource]
    exact hnew
  · rintro hover a b ⟨waiter, hmem, rfl, halive, holder, hholder, hconf, rfl⟩
    rcases hholders _ _ hholder with hold | ⟨hresource, rfl⟩
    · exact h _ _ ⟨waiter, hmem, rfl, halive, holder, hold, hconf, rfl⟩
    · exact hover hgrants waiter hmem hresource (Ne.symm hconf.1) halive hconf.2

theorem waitersAreOlder_lockSection_iff (h : s.WaitersAreOlder) :
    (s.lockSection request).WaitersAreOlder ↔ s.OvertakesOlderOnly request := by
  have hskip : s.locks.grants request.transactionId request.resource request.mode = false →
      s.OvertakesOlderOnly request := fun hfalse htrue => by simp [hfalse] at htrue
  rcases lockPass_cases s.locks request.transactionId request.resource request.mode with
    ⟨locks, answer, hpass, hgrants, hholders⟩ | ⟨locks, hpass, hgrants, hnew, hholders, -⟩ |
    ⟨locks, hpass, hgrants, hholders, -, -⟩ | ⟨locks, hpass, hgrants, hholders, holder⟩
  · simp only [lockSection, hpass]
    refine iff_of_true (h.of_subset (fun _ hw => hw) (fun _ ht => ht) fun r holder hmem => ?_) (hskip hgrants)
    rwa [← hholders r]
  · simp only [lockSection, hpass]
    exact waitersAreOlder_grant_iff h hgrants hnew hholders
  · simp only [lockSection, hpass]
    refine iff_of_true (h.of_subset (fun _ hw => hw) (fun tx htx => ?_) hholders) (hskip hgrants)
    by_cases heq : tx = request.transactionId
    · simp [setState, heq]
    · simpa [setState, Function.update_of_ne heq] using htx
  · simp only [lockSection, hpass]
    refine iff_of_true ?_ (hskip hgrants)
    -- the new sleeper passed the age test against the very holders it now waits for
    rintro a b ⟨waiter, hmem, rfl, halive, other, hother, hconf, rfl⟩
    rw [hholders] at hother
    rcases List.mem_append.mp hmem with hold | hself
    · exact h _ _ ⟨waiter, hold, rfl, halive, other, hother, hconf, rfl⟩
    · obtain rfl := List.mem_singleton.mp hself
      exact holder other hother hconf

theorem overtakesOlderOnly_erase :
    ({ s with waiters := s.waiters.erase request } : LockSystem).OvertakesOlderOnly request ↔
      s.OvertakesOlderOnly request := by
  constructor
  · intro h hgrants waiter hmem hresource hne
    have hkeep : waiter ≠ request := fun heq => hne (congrArg LockRequest.transactionId heq)
    exact h hgrants waiter ((List.mem_erase_of_ne hkeep).mpr hmem) hresource hne
  · intro h hgrants waiter hmem
    exact h hgrants waiter (List.mem_of_mem_erase hmem)

theorem waitersAreOlder_setState (h : s.WaitersAreOlder) {locks : LockManager} {tx : TransactionId}
    {state : TransactionState} (halive : s.state tx ≠ .aborted)
    (hholders : ∀ r holder, holder ∈ locks.holders r → holder ∈ s.locks.holders r) :
    (({ s with locks := locks } : LockSystem).setState tx state).WaitersAreOlder := by
  refine h.of_subset (fun _ hw => hw) (fun other hother => ?_) hholders
  have hne : other ≠ tx := fun heq => halive (heq ▸ hother)
  simpa [setState, Function.update_of_ne hne] using hother

/-- One mutex section keeps every waiter older than the holders it waits for exactly when it grants in order. -/
theorem waitersAreOlder_step_iff (s : LockSystem) (a : LockStep) (h : s.WaitersAreOlder) :
    (s.step a).WaitersAreOlder ↔ s.GrantsInOrder a := by
  cases a with
  | lock request =>
    simp only [step, GrantsInOrder]
    split
    · rename_i hgrowing
      rw [waitersAreOlder_lockSection_iff h]
      exact ⟨fun hover _ => hover, fun hover => hover hgrowing⟩
    · rename_i hnot
      exact iff_of_true h fun hgrowing => absurd hgrowing hnot
  | wake request =>
    simp only [step, GrantsInOrder]
    split
    · rename_i hready
      have herase : ({ s with waiters := s.waiters.erase request } : LockSystem).WaitersAreOlder :=
        h.of_subset (fun _ hw => List.mem_of_mem_erase hw) (fun _ ht => ht) fun _ _ hm => hm
      split
      · rename_i hgrowing
        rw [waitersAreOlder_lockSection_iff herase, overtakesOlderOnly_erase]
        exact ⟨fun hover _ _ _ => hover, fun hover => hover hready.1 hready.2 hgrowing⟩
      · rename_i hnot
        exact iff_of_true herase fun _ _ hgrowing => absurd hgrowing hnot
    · rename_i hnot
      exact iff_of_true h fun hmem hover => absurd ⟨hmem, hover⟩ hnot
  | unlock tx resource =>
    simp only [step, GrantsInOrder, iff_true]
    split
    · rename_i hstate
      cases hunlock : s.locks.unlockEntry tx resource with
      | none => exact h
      | some locks =>
        refine waitersAreOlder_setState h (fun haborted => ?_) fun r holder => mem_holders_unlockEntry hunlock
        simp [haborted] at hstate
    · exact h
  | commit tx | abort tx =>
    simp only [step, GrantsInOrder, iff_true]
    split
    · exact h
    · rename_i hlive
      exact waitersAreOlder_setState h (fun ha => hlive (by simp [isTerminal, ha])) fun _ _ => mem_holders_releaseAll

theorem waitersAreOlder_initial : initial.WaitersAreOlder := by
  rintro a b ⟨waiter, hmem, -⟩
  simp [initial] at hmem

/-- In every run of the lock manager, all waits go from older to younger and the wait-for relation has no cycle exactly
when every lock is granted over the heads of older sleepers only. -/
theorem waitFor_acyclic_iff_grantsInOrder (run : List LockStep) :
    Always step (fun s => s.WaitForAcyclic ∧ s.WaitersAreOlder) initial run ↔
      EachStep step GrantsInOrder initial run := by
  rw [← always_iff_eachStep waitersAreOlder_step_iff waitersAreOlder_initial]
  exact ⟨Always.mono fun _ h => h.2, Always.mono fun _ h => ⟨h.acyclic, h⟩⟩

/-- Transaction 3 sleeps for the exclusive lock behind 5; the shared lock of 1 is granted past it; then 1 sleeps behind
3, on the resource 3 holds. -/
def overtakenRun : List LockStep :=
  [.lock ⟨3, ⟨2⟩, .exclusive⟩, .lock ⟨5, ⟨1⟩, .shared⟩, .lock ⟨3, ⟨1⟩, .exclusive⟩, .lock ⟨1, ⟨1⟩, .shared⟩,
    .lock ⟨1, ⟨2⟩, .exclusive⟩]

theorem overtakenRun_deadlocks : ¬ (exec step initial overtakenRun).WaitForAcyclic := by
  intro h
  have hleft : (exec step initial overtakenRun).WaitsFor 1 3 :=
    ⟨⟨1, ⟨2⟩, .exclusive⟩, by decide, rfl, by decide, ⟨3, .exclusive⟩, by decide, ⟨by decide, by decide⟩, rfl⟩
  have hright : (exec step initial overtakenRun).WaitsFor 3 1 :=
    ⟨⟨3, ⟨1⟩, .exclusive⟩, by decide, rfl, by decide, ⟨1, .shared⟩, by decide, ⟨by decide, by decide⟩, rfl⟩
  exact h 1 (Relation.TransGen.tail (Relation.TransGen.single hleft) hright)

end LockSystem

end Ddb.Concurrency
