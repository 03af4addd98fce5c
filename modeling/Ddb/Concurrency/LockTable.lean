import Ddb.Concurrency.WaitDie

/-!
# The two tables of the lock manager

`table_` has the holders of a resource, `held_` the resources of a transaction. The two say the same, from either side, after
every mutex section: a transaction has one entry at most with a resource, an exclusive holder is alone, no entry of either
table is empty, and a transaction at its end is in neither.

With tables that agree, what each call does to the holders is simple: `release_all` and `unlock` filter the holders of the
transaction out, and a grant makes the requester the only holder or adds a shared one to shared ones.
-/

namespace Ddb.Concurrency

open Ddb.Lib

namespace LockManager

variable {lm next : LockManager} {tx t : TransactionId} {resource r : ResourceId} {mode : LockMode}

/-- What the transaction holds, by `held_`. -/
def heldBy (lm : LockManager) (t : TransactionId) : Finset ResourceId := (lm.held t).getD ∅

structure Consistent (lm : LockManager) : Prop where
  /-- At most one entry for each transaction. -/
  single : ∀ r, ((lm.holders r).map Holder.transactionId).Nodup
  exclusive : ∀ r, ∀ holder ∈ lm.holders r, holder.mode = .exclusive → lm.holders r = [holder]
  mirror : ∀ t r, r ∈ lm.heldBy t ↔ ∃ holder ∈ lm.holders r, holder.transactionId = t
  table : ∀ r, lm.table r ≠ some []
  held : ∀ t, lm.held t ≠ some ∅

theorem consistent_empty : empty.Consistent where
  single := fun _ => List.nodup_nil
  exclusive := fun _ _ hmem => nomatch hmem
  mirror := by simp [heldBy, holders, empty]
  table := fun _ => nofun
  held := fun _ => nofun

/-! ## Taking locks away -/

/-- The holders that are not this transaction. -/
def others (tx : TransactionId) (holders : List Holder) : List Holder :=
  holders.filter fun holder => holder.transactionId != tx

theorem mem_others {holders : List Holder} {holder : Holder} :
    holder ∈ others tx holders ↔ holder ∈ holders ∧ holder.transactionId ≠ tx := by
  simp [others]

/-- Some holders have lost their lock, all of them the same transaction's. -/
theorem Consistent.of_others (h : lm.Consistent) (tx : TransactionId) (lost : ResourceId → Prop)
    (hlost : ∀ r, lost r → next.holders r = others tx (lm.holders r)) (hkept : ∀ r, ¬ lost r → next.holders r = lm.holders r)
    (hheld : ∀ t r, r ∈ next.heldBy t ↔ r ∈ lm.heldBy t ∧ ¬ (t = tx ∧ lost r))
    (htable : ∀ r, next.table r ≠ some []) (hempty : ∀ t, next.held t ≠ some ∅) : next.Consistent := by
  have hsub : ∀ r, (next.holders r).Sublist (lm.holders r) := by
    intro r
    by_cases hr : lost r
    · rw [hlost r hr]
      exact List.filter_sublist
    · rw [hkept r hr]
  refine ⟨fun r => (h.single r).sublist ((hsub r).map _), fun r holder hmem hmode => ?_, fun t r => ?_, htable, hempty⟩
  · have hone := h.exclusive r holder ((hsub r).subset hmem) hmode
    have hsub' := hsub r
    rw [hone] at hsub'
    rcases List.sublist_singleton.mp hsub' with hnil | hsame
    · rw [hnil] at hmem
      cases hmem
    · exact hsame
  · rw [hheld, h.mirror]
    by_cases hr : lost r
    · rw [hlost r hr]
      constructor
      · rintro ⟨⟨holder, hmem, rfl⟩, hne⟩
        exact ⟨holder, mem_others.mpr ⟨hmem, fun heq => hne ⟨heq, hr⟩⟩, rfl⟩
      · rintro ⟨holder, hmem, rfl⟩
        obtain ⟨hmem, hne⟩ := mem_others.mp hmem
        exact ⟨⟨holder, hmem, rfl⟩, fun hboth => hne hboth.1⟩
    · rw [hkept r hr]
      exact ⟨fun hboth => hboth.1, fun hmem => ⟨hmem, fun hboth => hr hboth.2⟩⟩

theorem holders_dropHolder (entry : Option (List Holder)) : (dropHolder tx entry).getD [] = others tx (entry.getD []) := by
  cases entry with
  | none => rfl
  | some holders =>
    simp only [dropHolder]
    split
    · rename_i hempty
      exact (List.isEmpty_iff.mp hempty).symm
    · rfl

theorem dropHolder_ne (entry : Option (List Holder)) : dropHolder tx entry ≠ some [] := by
  cases entry with
  | none => simp [dropHolder]
  | some holders =>
    simp only [dropHolder]
    split
    · simp
    · rename_i hfull
      exact fun heq => hfull (by rw [Option.some.inj heq]; rfl)

theorem Consistent.releaseAll (h : lm.Consistent) (tx : TransactionId) : (lm.releaseAll tx).Consistent := by
  rw [LockManager.releaseAll]
  split
  · exact h
  · rename_i resources hresources
    have hheldBy : lm.heldBy tx = resources := by rw [heldBy, hresources, Option.getD_some]
    refine h.of_others tx (fun r => r ∈ resources) ?_ ?_ ?_ ?_ ?_
    · intro r hr
      simp only [holders, if_pos hr]
      exact holders_dropHolder _
    · intro r hr
      simp only [holders, if_neg hr]
    · intro t r
      by_cases ht : t = tx
      · subst ht
        simp [heldBy, hresources]
      · simp [heldBy, ht]
    · intro r
      dsimp only
      split
      · exact dropHolder_ne _
      · exact h.table r
    · intro t
      by_cases ht : t = tx
      · subst ht
        simp
      · simp only [Function.update_of_ne ht]
        exact h.held t

/-- The transaction is in neither table. -/
theorem held_releaseAll (lm : LockManager) (tx : TransactionId) : (lm.releaseAll tx).held tx = none := by
  rw [releaseAll]
  split
  · assumption
  · exact Function.update_self _ _ _

theorem held_releaseAll_of_ne (ht : t ≠ tx) : (lm.releaseAll tx).held t = lm.held t := by
  rw [releaseAll]
  split
  · rfl
  · exact Function.update_of_ne ht _ _

theorem held_unlockEntry_of_ne (hunlock : lm.unlockEntry tx resource = some next) (ht : t ≠ tx) : next.held t = lm.held t := by
  rw [unlockEntry] at hunlock
  split at hunlock
  · cases hunlock
  · split at hunlock
    · obtain rfl := Option.some.inj hunlock
      dsimp only
      split
      · rfl
      · exact Function.update_of_ne ht _ _
    · cases hunlock

theorem eraseP_eq_others (tx : TransactionId) {entries : List Holder} (h : (entries.map Holder.transactionId).Nodup) :
    entries.eraseP (fun holder => holder.transactionId == tx) = others tx entries := by
  induction entries with
  | nil => rfl
  | cons first rest ih =>
    obtain ⟨hfirst, hrest⟩ := List.nodup_cons.mp h
    by_cases hid : first.transactionId = tx
    · have hnone : ∀ holder ∈ rest, (holder.transactionId != tx) = true := by
        intro holder hmem
        rw [bne_iff_ne]
        rintro rfl
        exact hfirst (List.mem_map.mpr ⟨holder, hmem, hid.symm⟩)
      rw [List.eraseP_cons_of_pos (by simpa using hid), others, List.filter_cons_of_neg (by simpa using hid),
        List.filter_eq_self.mpr hnone]
    · rw [List.eraseP_cons_of_neg (by simpa using hid), others, List.filter_cons_of_pos (by simpa using hid), ih hrest]
      rfl

theorem Consistent.unlockEntry (h : lm.Consistent) (hunlock : lm.unlockEntry tx resource = some next) : next.Consistent := by
  rw [LockManager.unlockEntry] at hunlock
  split at hunlock
  · cases hunlock
  rename_i entries hentries
  have hholders : lm.holders resource = entries := by rw [holders, hentries, Option.getD_some]
  split at hunlock
  · rename_i hany
    obtain ⟨own, hown, hid⟩ := List.any_eq_true.mp hany
    -- There is one entry, so erasing the first one erases them all.
    have hrest := eraseP_eq_others tx (hholders ▸ h.single resource)
    have hmine : resource ∈ lm.heldBy tx := (h.mirror tx resource).mpr ⟨own, hholders ▸ hown, by simpa using hid⟩
    obtain ⟨resources, hresources⟩ : ∃ resources, lm.held tx = some resources := by
      cases hheld : lm.held tx with
      | none =>
        rw [heldBy, hheld] at hmine
        simp at hmine
      | some resources => exact ⟨resources, rfl⟩
    rw [hresources, hrest] at hunlock
    obtain rfl := Option.some.inj hunlock
    refine h.of_others tx (fun r => r = resource) ?_ ?_ ?_ ?_ ?_
    · rintro r rfl
      rw [hholders]
      simp only [holders, Function.update_self]
      split
      · rename_i hempty
        exact (List.isEmpty_iff.mp hempty).symm
      · rfl
    · intro r hr
      simp only [holders, Function.update_of_ne hr]
    · intro t r
      by_cases ht : t = tx
      · subst ht
        simp only [heldBy, Function.update_self, hresources, Option.getD_some]
        split
        · rename_i hempty
          have hnone : r ∉ resources.erase resource := by rw [hempty]; exact Finset.notMem_empty r
          rw [Finset.mem_erase] at hnone
          simp only [Option.getD_none, Finset.notMem_empty, false_iff, true_and]
          exact fun hboth => hnone ⟨hboth.2, hboth.1⟩
        · rw [Option.getD_some, Finset.mem_erase]
          exact ⟨fun hboth => ⟨hboth.2, fun hlost => hboth.1 hlost.2⟩, fun hboth => ⟨fun heq => hboth.2 ⟨trivial, heq⟩, hboth.1⟩⟩
      · simp [heldBy, ht]
    · intro r
      by_cases hr : r = resource
      · subst hr
        simp only [Function.update_self]
        split
        · simp
        · rename_i hfull
          exact fun heq => hfull (by rw [Option.some.inj heq]; rfl)
      · simp only [Function.update_of_ne hr]
        exact h.table r
    · intro t
      by_cases ht : t = tx
      · subst ht
        simp only [Function.update_self]
        split
        · simp
        · rename_i hfull
          exact fun heq => hfull (Option.some.inj heq)
      · simp only [Function.update_of_ne ht]
        exact h.held t
  · cases hunlock

/-! ## Giving locks -/

/-- `table_[resource]`. -/
def touch (lm : LockManager) (resource : ResourceId) : LockManager :=
  { lm with table := Function.update lm.table resource (some (lm.holders resource)) }

/-- An entry that is there is not created. -/
theorem touch_eq_self (hsome : lm.holders resource ≠ []) : lm.touch resource = lm := by
  have hentry : lm.table resource = some (lm.holders resource) := by
    cases htable : lm.table resource with
    | none =>
      rw [holders, htable] at hsome
      exact absurd rfl hsome
    | some entries => rw [holders, htable, Option.getD_some]
  rw [touch, ← hentry, Function.update_eq_self]

theorem compatible_iff : lm.compatible tx resource mode = true ↔
    ∀ holder ∈ lm.holders resource, holder.transactionId ≠ tx → conflicts mode holder.mode = false := by
  rw [compatible, holders]
  cases lm.table resource with
  | none => simp
  | some entries => simp

/-- An upgrade: the requester is the only holder. -/
theorem Consistent.grant_own (h : lm.Consistent) {own : Holder} (hown : lm.ownEntry tx resource = some own)
    (hcompatible : lm.compatible tx resource .exclusive = true) : (lm.grant tx resource .exclusive).Consistent := by
  have hmem := List.mem_of_find?_eq_some hown
  have hid : own.transactionId = tx := by simpa using List.find?_some hown
  have hall : ∀ holder ∈ lm.holders resource, holder.transactionId = tx := by
    intro holder hmem'
    by_contra hne
    have hnone := compatible_iff.mp hcompatible holder hmem' hne
    simp [conflicts] at hnone
  -- One entry for each transaction, and all of this one's.
  obtain ⟨only, honly⟩ : ∃ only, lm.holders resource = [only] := by
    have hsingle := h.single resource
    generalize lm.holders resource = entries at hmem hall hsingle
    match entries, hmem with
    | [only], _ => exact ⟨only, rfl⟩
    | first :: second :: rest, _ =>
      simp [hall first (by simp), hall second (by simp)] at hsingle
  have honlyid : only.transactionId = tx := hall only (by simp [honly])
  have hholders : ∀ r, (lm.grant tx resource .exclusive).holders r =
      if r = resource then [⟨tx, .exclusive⟩] else lm.holders r := by
    intro r
    rw [grant, hown]
    by_cases hr : r = resource
    · subst hr
      simp [holders, upgrade, show (lm.table r).getD [] = [only] from honly, honlyid]
    · simp [holders, hr]
  refine ⟨fun r => ?_, fun r holder hmem' hmode => ?_, fun t r => ?_, fun r => ?_, fun t => ?_⟩
  · rw [hholders]
    split
    · exact List.nodup_singleton _
    · exact h.single r
  · rw [hholders] at hmem' ⊢
    split at hmem'
    · rename_i hr
      rw [if_pos hr, List.mem_singleton.mp hmem']
    · rename_i hr
      rw [if_neg hr]
      exact h.exclusive r holder hmem' hmode
  · have hheld : (lm.grant tx resource .exclusive).heldBy t = lm.heldBy t := by rw [grant, hown]; rfl
    rw [hheld, hholders, h.mirror]
    split
    · rename_i hr
      subst hr
      rw [honly]
      simp [honlyid]
    · rfl
  · rw [grant, hown]
    by_cases hr : r = resource
    · subst hr
      simp [honly, upgrade, honlyid]
    · simp only [Function.update_of_ne hr]
      exact h.table r
  · rw [grant, hown]
    exact h.held t

/-- A new holder: the first, or a shared one beside shared ones. -/
theorem Consistent.grant_new (h : lm.Consistent) (hown : lm.ownEntry tx resource = none)
    (hcompatible : lm.compatible tx resource mode = true) : (lm.grant tx resource mode).Consistent := by
  have hnot : ∀ holder ∈ lm.holders resource, holder.transactionId ≠ tx := by
    intro holder hmem
    simpa using List.find?_eq_none.mp hown holder hmem
  have hholders : ∀ r, (lm.grant tx resource mode).holders r =
      if r = resource then lm.holders resource ++ [⟨tx, mode⟩] else lm.holders r := by
    intro r
    rw [grant, hown]
    by_cases hr : r = resource
    · subst hr
      simp [holders]
    · simp [holders, hr]
  refine ⟨fun r => ?_, fun r holder hmem hmode => ?_, fun t r => ?_, fun r => ?_, fun t => ?_⟩
  · rw [hholders]
    split
    · rw [List.map_append, List.map_singleton]
      refine List.nodup_append.mpr ⟨h.single resource, List.nodup_singleton _, ?_⟩
      rintro id hid _ hmem rfl
      obtain ⟨holder, hholder, rfl⟩ := List.mem_map.mp hid
      exact hnot holder hholder (List.mem_singleton.mp hmem)
    · exact h.single r
  · rw [hholders] at hmem ⊢
    split at hmem
    · rename_i hr
      rw [if_pos hr]
      rcases List.mem_append.mp hmem with hold | hnew
      · -- An exclusive holder is in conflict with every request.
        have hnone := compatible_iff.mp hcompatible holder hold (hnot holder hold)
        simp [conflicts, hmode] at hnone
      · obtain rfl := List.mem_singleton.mp hnew
        obtain rfl : mode = .exclusive := hmode
        have hempty : lm.holders resource = [] := by
          by_contra hne
          obtain ⟨other, hother⟩ := List.exists_mem_of_ne_nil _ hne
          have hnone := compatible_iff.mp hcompatible other hother (hnot other hother)
          simp [conflicts] at hnone
        rw [hempty, List.nil_append]
    · rename_i hr
      rw [if_neg hr]
      exact h.exclusive r holder hmem hmode
  · have hheld : r ∈ (lm.grant tx resource mode).heldBy t ↔ r ∈ lm.heldBy t ∨ (t = tx ∧ r = resource) := by
      rw [grant, hown]
      by_cases ht : t = tx
      · subst ht
        simp [heldBy, Finset.mem_insert, or_comm]
      · simp [heldBy, ht]
    rw [hheld, h.mirror, hholders]
    split
    · rename_i hr
      subst hr
      simp [or_and_right, exists_or, eq_comm]
    · rename_i hr
      simp [hr]
  · rw [grant, hown]
    by_cases hr : r = resource
    · subst hr
      simp
    · simp only [Function.update_of_ne hr]
      exact h.table r
  · rw [grant, hown]
    by_cases ht : t = tx
    · subst ht
      simp
    · simp only [Function.update_of_ne ht]
      exact h.held t

theorem grant_touch : (lm.touch resource).grant tx resource mode = lm.grant tx resource mode := by
  have hholders : (lm.touch resource).holders resource = lm.holders resource := holders_touch resource
  rw [grant, grant, ownEntry, ownEntry, hholders]
  split <;> simp [touch]

/-- A turn of the lock loop after `table_[resource]`. -/
def turn (lm : LockManager) (tx : TransactionId) (resource : ResourceId) (mode : LockMode) : LockManager × LockPass :=
  match ownReturn (lm.ownEntry tx resource) mode with
  | some answer => (lm, .returned answer)
  | none =>
    if lm.compatible tx resource mode then (lm.grant tx resource mode, .returned true)
    else if lm.requesterIsYoungerThanConflict tx resource mode then (lm.releaseAll tx, .died)
    else (lm, .blocked)

theorem turn_of_free (hown : lm.ownEntry tx resource = none) (hcompatible : lm.compatible tx resource mode = true) :
    lm.turn tx resource mode = (lm.grant tx resource mode, .returned true) := by
  simp [turn, hown, ownReturn, hcompatible]

/-- The entry that `table_[resource]` creates does not stay empty. -/
theorem lockPass_eq (lm : LockManager) (tx : TransactionId) (resource : ResourceId) (mode : LockMode) :
    lm.lockPass tx resource mode = lm.turn tx resource mode := by
  change (lm.touch resource).turn tx resource mode = _
  by_cases hempty : lm.holders resource = []
  · have htouch : (lm.touch resource).holders resource = [] := (holders_touch resource).trans hempty
    rw [turn_of_free, turn_of_free, grant_touch]
    · rw [ownEntry, hempty]
      rfl
    · exact compatible_iff.mpr (by simp [hempty])
    · rw [ownEntry, htouch]
      rfl
    · exact compatible_iff.mpr (by simp [htouch])
  · rw [touch_eq_self hempty]

/-- Everything one turn can leave behind. -/
theorem Consistent.lockPass (h : lm.Consistent) (tx : TransactionId) (resource : ResourceId) (mode : LockMode) :
    (lm.lockPass tx resource mode).1.Consistent ∧
    ((lm.lockPass tx resource mode).2 = .died → (lm.lockPass tx resource mode).1.held tx = none) ∧
    ∀ t, t ≠ tx → (lm.lockPass tx resource mode).1.held t = lm.held t := by
  rw [lockPass_eq, turn]
  cases hreturn : ownReturn (lm.ownEntry tx resource) mode with
  | some answer => exact ⟨h, by simp, fun _ _ => rfl⟩
  | none =>
    dsimp only
    split
    · rename_i hcompatible
      refine ⟨?_, by simp, fun t ht => ?_⟩
      · cases hown : lm.ownEntry tx resource with
        | none => exact h.grant_new hown hcompatible
        | some own =>
          rw [hown] at hreturn
          obtain rfl := mode_of_ownReturn_none hreturn
          exact h.grant_own hown hcompatible
      · rw [grant]
        split
        · rfl
        · exact Function.update_of_ne ht _ _
    · split
      · refine ⟨h.releaseAll tx, fun _ => held_releaseAll lm tx, fun t ht => ?_⟩
        exact held_releaseAll_of_ne ht
      · exact ⟨h, by simp, fun _ _ => rfl⟩

end LockManager

/-! ## Every run of the lock manager -/

namespace LockSystem

open LockManager

variable {s : LockSystem}

/-- The tables agree, and a transaction at its end holds nothing. -/
structure Sound (s : LockSystem) : Prop where
  tables : s.locks.Consistent
  ended : ∀ t, isTerminal (s.state t) = true → s.locks.held t = none ∧ ∀ r, ∀ holder ∈ s.locks.holders r, holder.transactionId ≠ t

/-- It is enough to look at one of the tables. -/
theorem sound_of_held (htables : s.locks.Consistent) (hended : ∀ t, isTerminal (s.state t) = true → s.locks.held t = none) :
    s.Sound := by
  refine ⟨htables, fun t ht => ⟨hended t ht, fun r holder hmem hid => ?_⟩⟩
  have hmine := (htables.mirror t r).mpr ⟨holder, hmem, hid⟩
  rw [heldBy, hended t ht] at hmine
  simp at hmine

theorem sound_initial : initial.Sound := sound_of_held consistent_empty fun _ _ => rfl

/-- One transaction has changed its state; if it is at its end now, it holds nothing. -/
theorem Sound.leave (h : s.Sound) {locks : LockManager} {tx : TransactionId} {state : TransactionState}
    (htables : locks.Consistent) (hown : isTerminal state = true → locks.held tx = none)
    (hother : ∀ t, t ≠ tx → locks.held t = s.locks.held t) : ({ s with locks := locks }.setState tx state).Sound := by
  refine sound_of_held htables fun t ht => ?_
  by_cases htx : t = tx
  · subst htx
    have hstate : ({ s with locks := locks }.setState t state).state t = state := Function.update_self _ _ _
    rw [hstate] at ht
    exact hown ht
  · have hstate : ({ s with locks := locks }.setState tx state).state t = s.state t := Function.update_of_ne htx _ _
    rw [hstate] at ht
    exact (hother t htx).trans (h.ended t ht).1

theorem Sound.lockSection (h : s.Sound) {request : LockRequest} (hgrowing : s.state request.transactionId = .growing) :
    (s.lockSection request).Sound := by
  obtain ⟨htables, hdied, hother⟩ := h.tables.lockPass request.transactionId request.resource request.mode
  -- A request that lives on leaves every transaction in its state.
  have hlives : ∀ locks : LockManager, locks.Consistent → (∀ t, t ≠ request.transactionId → locks.held t = s.locks.held t) →
      ∀ waiters, Sound { s with locks := locks, waiters := waiters } := by
    intro locks htables hother waiters
    refine sound_of_held htables fun t ht => ?_
    have hne : t ≠ request.transactionId := by
      rintro rfl
      rw [hgrowing] at ht
      cases ht
    exact (hother t hne).trans (h.ended t ht).1
  rw [LockSystem.lockSection]
  generalize s.locks.lockPass request.transactionId request.resource request.mode = pass at *
  obtain ⟨locks, outcome⟩ := pass
  cases outcome with
  | returned granted => exact hlives locks htables hother s.waiters
  | died => exact h.leave htables (fun _ => hdied rfl) hother
  | blocked => exact hlives locks htables hother _

theorem Sound.step (h : s.Sound) (step : LockStep) : (s.step step).Sound := by
  cases step with
  | lock request =>
    rw [LockSystem.step]
    split
    · rename_i hgrowing
      exact h.lockSection hgrowing
    · exact h
  | wake request =>
    rw [LockSystem.step]
    split
    · have hwoken : Sound { s with waiters := s.waiters.erase request } := ⟨h.tables, h.ended⟩
      dsimp only
      split
      · rename_i hgrowing
        exact hwoken.lockSection hgrowing
      · exact hwoken
    · exact h
  | unlock tx resource =>
    rw [LockSystem.step]
    split
    · cases hunlock : s.locks.unlockEntry tx resource with
      | none => exact h
      | some locks => exact h.leave (h.tables.unlockEntry hunlock) (fun hend => Bool.noConfusion hend) fun t ht => held_unlockEntry_of_ne hunlock ht
    · exact h
  | commit tx | abort tx =>
    rw [LockSystem.step]
    split
    · exact h
    · exact h.leave (h.tables.releaseAll tx) (fun _ => held_releaseAll _ tx) fun t ht => held_releaseAll_of_ne ht

/-- The tables of the lock manager agree after every mutex section, whatever the callers do and in whatever order sleepers
wake. -/
theorem lock_tables_sound (run : List LockStep) : Always LockSystem.step Sound initial run :=
  always_iff_forall.mpr fun _ _ => exec_keeps (fun _ step h => Sound.step h step) sound_initial

end LockSystem

end Ddb.Concurrency
