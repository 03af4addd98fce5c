import Ddb.Concurrency.Steps

/-!
# A runtime abort restores the pages

Whatever a transaction has done to a page, its first mutation of the page that is not undone yet carries the image and the
PageLSN the page had before the transaction touched it. That is so after every step of a run in which nobody else writes the
page, also when an abort has failed half way, and it is all that is left of the page once every mutation is undone. The pool
may evict and reload the page in between as it likes.

A capture that was left open is the exception, and then the abort does not return.
-/

namespace Ddb.Concurrency

open Ddb.Lib Ddb.Storage Ddb.Buffer

/-! ## The first mutation that is not undone -/

/-- The first mutation of a page whose mark says that it is not undone. -/
def firstUnresolved (p : PageId) : List PhysicalMutation → List Bool → Option PhysicalMutation
  | mutation :: mutations, resolved :: marks =>
    if mutation.pageId = p ∧ resolved = false then some mutation else firstUnresolved p mutations marks
  | _, _ => none

section FirstUnresolved

variable {p : PageId} {mutations : List PhysicalMutation} {marks : List Bool} {mutation : PhysicalMutation} {index : Nat}

theorem firstUnresolved_append (hlength : marks.length = mutations.length) :
    firstUnresolved p (mutations ++ [mutation]) (marks ++ [false]) =
      (firstUnresolved p mutations marks).or (if mutation.pageId = p then some mutation else none) := by
  induction mutations generalizing marks with
  | nil =>
    obtain rfl := List.length_eq_zero_iff.mp hlength
    simp [firstUnresolved]
  | cons first mutations ih =>
    obtain ⟨mark, marks, rfl⟩ := List.exists_cons_of_length_eq_add_one hlength
    simp only [List.cons_append, firstUnresolved]
    split
    · rfl
    · exact ih (Nat.succ.inj hlength)

theorem firstUnresolved_set_of_ne (hmutation : mutations[index]? = some mutation) (hne : mutation.pageId ≠ p) :
    firstUnresolved p mutations (marks.set index true) = firstUnresolved p mutations marks := by
  induction mutations generalizing marks index with
  | nil => simp at hmutation
  | cons first mutations ih =>
    cases marks with
    | nil => rfl
    | cons mark marks =>
      cases index with
      | zero =>
        obtain rfl : first = mutation := by simpa using hmutation
        simp [firstUnresolved, hne]
      | succ index =>
        simp only [List.set_cons_succ, firstUnresolved]
        rw [ih (by simpa using hmutation)]

theorem firstUnresolved_of_resolved (h : ∀ resolved ∈ marks, resolved = true) : firstUnresolved p mutations marks = none := by
  induction mutations generalizing marks with
  | nil => rfl
  | cons first mutations ih =>
    cases marks with
    | nil => rfl
    | cons mark marks =>
      obtain ⟨hmark, hmarks⟩ := List.forall_mem_cons.mp h
      rw [firstUnresolved, if_neg (by simp [hmark]), ih hmarks]

/-- Undoing the last mutation that is not undone: either it is the first one of its page as well, or the first stays. -/
theorem firstUnresolved_eq_of_set (hmutation : mutations[index]? = some mutation) (hpage : mutation.pageId = p)
    (hmark : marks[index]? = some false) (hlater : ∀ resolved ∈ marks.drop (index + 1), resolved = true) :
    firstUnresolved p mutations marks = some ((firstUnresolved p mutations (marks.set index true)).getD mutation) := by
  induction mutations generalizing marks index with
  | nil => simp at hmutation
  | cons first mutations ih =>
    cases marks with
    | nil => simp at hmark
    | cons mark marks =>
      cases index with
      | zero =>
        obtain rfl : first = mutation := by simpa using hmutation
        obtain rfl : mark = false := by simpa using hmark
        have hrest : firstUnresolved p mutations marks = none := firstUnresolved_of_resolved (by simpa using hlater)
        simp [firstUnresolved, hpage, hrest]
      | succ index =>
        simp only [List.set_cons_succ, firstUnresolved]
        split
        · rfl
        · exact ih (by simpa using hmutation) (by simpa using hmark) (by simpa using hlater)

end FirstUnresolved

namespace Transaction

variable {tx : Transaction} {p : PageId} {mutation : PhysicalMutation}

/-- The page once the mutations of the transaction are undone, when it looks like this now. -/
def rewound (tx : Transaction) (p : PageId) (view : Option Page) : Option Page :=
  match firstUnresolved p tx.pendingMutations tx.undoResolved with
  | some mutation => some ⟨p, mutation.previousPageLsn, mutation.beforeImage⟩
  | none => view

theorem Inv.mark_of_unresolved (h : tx.Inv) {index : Nat} (hmutation : tx.pendingMutations[index]? = some mutation)
    (hresolved : tx.resolved index = false) : tx.undoResolved[index]? = some false := by
  have hlt : index < tx.undoResolved.length := by
    rw [h.length]
    exact (List.getElem?_eq_some_iff.mp hmutation).1
  rw [resolved, List.getD_eq_getElem _ _ hlt] at hresolved
  rw [List.getElem?_eq_getElem hlt, hresolved]

theorem forall_of_unresolvedAfter {index : Nat} (h : tx.unresolvedAfter index = false) :
    ∀ resolved ∈ tx.undoResolved.drop (index + 1), resolved = true := by
  simpa [unresolvedAfter] using h

/-- One more mutation, taken from the page as it is, does not change what the page goes back to. -/
theorem rewound_captured (h : tx.Inv) {view : Option Page}
    (hbefore : mutation.pageId = p → view = some ⟨p, mutation.previousPageLsn, mutation.beforeImage⟩) {view' : Option Page}
    (hview' : mutation.pageId ≠ p → view' = view) : (tx.captured mutation).rewound p view' = tx.rewound p view := by
  rw [rewound, rewound, captured, firstUnresolved_append h.length]
  cases firstUnresolved p tx.pendingMutations tx.undoResolved with
  | some first => rfl
  | none =>
    by_cases hpage : mutation.pageId = p
    · simp [hpage, hbefore hpage]
    · simp [hpage, hview' hpage]

/-- Nor does undoing the last mutation that is not undone. -/
theorem rewound_resolvedAt (h : tx.Inv) {index : Nat} (hmutation : tx.pendingMutations[index]? = some mutation)
    (hresolved : tx.resolved index = false) (hlater : tx.unresolvedAfter index = false) {view view' : Option Page}
    (hself : mutation.pageId = p → view' = some ⟨p, mutation.previousPageLsn, mutation.beforeImage⟩)
    (hother : mutation.pageId ≠ p → view' = view) : (Database.resolvedAt index tx).rewound p view' = tx.rewound p view := by
  rw [rewound, rewound, Database.resolvedAt]
  by_cases hpage : mutation.pageId = p
  · rw [firstUnresolved_eq_of_set hmutation hpage (h.mark_of_unresolved hmutation hresolved) (forall_of_unresolvedAfter hlater)]
    cases firstUnresolved p tx.pendingMutations (tx.undoResolved.set index true) with
    | some first => rfl
    | none => exact hself hpage
  · dsimp only
    rw [firstUnresolved_set_of_ne hmutation hpage, hother hpage]

theorem rewound_of_undone (h : tx.hasUnresolvedMutationsForAbort = false) (view : Option Page) : tx.rewound p view = view := by
  rw [hasUnresolvedMutationsForAbort, Bool.or_eq_false_iff, List.any_eq_false] at h
  rw [rewound, firstUnresolved_of_resolved (by simpa using h.2)]

end Transaction

namespace Database

variable {db db' : Database} {t owner : TransactionId} {p id : PageId} {old : Option Page}

/-! ## A page that is left alone -/

/-- The page is as it was, in the pool or on the disk; at most it was written back. -/
structure Keeps (db db' : Database) (p : PageId) : Prop where
  pageCount : db.pages.pageCount ≤ db'.pages.pageCount
  clean : db.cache.Clean p → db'.cache.Clean p
  view : p.index < db.pages.pageCount → db.cache.Clean p → db'.cache.view p = db.cache.view p
  disk : p.index < db.pages.pageCount → db.cache.Clean p → db'.pages.slot p = db.pages.slot p ∨
    ∃ page, db.cache.view p = some page ∧ db'.pages.slot p = some page ∧ Cache.LsnDurable db.cache.walDurability page.lsn

theorem Keeps.refl (db : Database) (p : PageId) : Keeps db db p := ⟨le_rfl, id, fun _ _ => rfl, fun _ _ => Or.inl rfl⟩

theorem Keeps.of_quiet (h : db.cache.Quiet db'.cache) (p : PageId) : Keeps db db' p :=
  ⟨h.pageCount.ge, h.clean p, fun _ => h.view p, fun _ => h.disk p⟩

theorem Keeps.of_moved (h : db.cache.Moved db'.cache id) (hne : p ≠ id) : Keeps db db' p :=
  ⟨h.pageCount.ge, h.clean p hne, fun _ => h.view p hne, fun _ => h.disk p hne⟩

/-- No frame has moved, and no slot of a page that was there. -/
theorem Keeps.of_pool (h : db.Inv) (p : PageId) (hpool : db'.pool = db.pool)
    (hcount : db.pages.pageCount ≤ db'.pages.pageCount)
    (hslot : ∀ id : PageId, id.index < db.pages.pageCount → db'.pages.slot id = db.pages.slot id) : Keeps db db' p := by
  refine ⟨hcount, ?_, ?_, fun hindex _ => Or.inl (hslot p hindex)⟩
  · intro hclean f hf hdirty
    change db'.pool.pageTable p = some f at hf
    change (db'.pool.frames f).dirty = false at hdirty
    change db'.pages.slot p = some (db'.pool.frames f).page
    rw [hpool] at hf hdirty ⊢
    rw [hslot p (h.cache.resident p f hf)]
    exact hclean f hf hdirty
  · intro hindex _
    simp only [Cache.view, Database.cache, hpool, hslot p hindex]

theorem Keeps.of_bitSet (h : db.Inv) {value : Bool} (hbit : db.pages.BitSet db'.pages id value) (p : PageId)
    (hpool : db'.pool = db.pool) : Keeps db db' p :=
  .of_pool h p hpool hbit.pageCount.ge fun other _ => hbit.slot other

/-! ## What the page goes back to -/

/-- Undoing the transaction puts the page back to `old`, unless a capture was left open. -/
def Rewindable (db : Database) (t : TransactionId) (p : PageId) (old : Option Page) : Prop :=
  (db.transactions t).hasUnfinishedCapture = true ∨
    (p.index < db.pages.pageCount ∧ db.cache.Clean p ∧ (db.transactions t).rewound p (db.cache.view p) = old)

theorem Rewindable.keep (h : db.Rewindable t p old) (hkeep : Keeps db db' p)
    (hopen : (db'.transactions t).hasUnfinishedCapture = (db.transactions t).hasUnfinishedCapture)
    (htx : ∀ view, (db'.transactions t).rewound p view = (db.transactions t).rewound p view) : db'.Rewindable t p old := by
  rcases h with hleft | ⟨hindex, hclean, hrewound⟩
  · exact Or.inl (hopen.trans hleft)
  · refine Or.inr ⟨Nat.lt_of_lt_of_le hindex hkeep.pageCount, hkeep.clean hclean, ?_⟩
    rw [htx, hkeep.view hindex hclean, hrewound]

theorem Rewindable.still (h : db.Rewindable t p old) (hkeep : Keeps db db' p) (hstill : Still db db') :
    db'.Rewindable t p old :=
  h.keep hkeep (by rw [hstill.transactions]) fun view => by rw [hstill.transactions]

theorem Rewindable.apart (h : db.Rewindable t p old) (hkeep : Keeps db db' p) {tx : Transaction}
    (hrest : Apart db db' owner tx) (hne : t ≠ owner) : db'.Rewindable t p old := by
  have htx : db'.transactions t = db.transactions t := by rw [hrest.transactions, Function.update_of_ne hne]
  exact h.keep hkeep (by rw [htx]) fun view => by rw [htx]

/-- A page access that is not somebody else's write of the page. -/
theorem Rewindable.accessed {α : Type} (hinv : db.Inv) (h : db.Rewindable t p old) {client : Option TransactionId}
    {f : Payload → Option Payload × α} {result : Except Err (Option α) × Database} (haccess : Accessed db client id f result)
    (hspares : client = some t ∨ id ≠ p ∨ ∀ page, db.cache.view p = some page → (f page.payload).1 = none) :
    result.2.Rewindable t p old := by
  -- Somebody else's write is one of another page.
  have hother : ∀ {page : Page} {after : Payload} {a : α}, client ≠ some t → db.cache.view id = some page →
      f page.payload = (some after, a) → p ≠ id := by
    rintro page after a hclient hview hf rfl
    rcases hspares with heq | hne | hnone
    · exact hclient heq
    · exact hne rfl
    · simpa [hf] using hnone page hview
  cases haccess with
  | failed _ hquiet hstill | read _ _ hquiet hstill => exact h.still (.of_quiet hquiet p) hstill
  | @wrote page after _ _ hview hf hsame halloc hwrote hstill =>
    by_cases hp : p = id
    · subst hp
      have hclient : client = some t := by
        by_contra hne
        exact hother hne hview hf rfl
      obtain rfl := hsame (by rw [hclient]; rfl)
      rcases h with hleft | ⟨hindex, hclean, hrewound⟩
      · exact Or.inl (by rw [hstill.transactions]; exact hleft)
      · refine Or.inr ⟨hwrote.pageCount ▸ hindex, hwrote.clean_self, ?_⟩
        rw [hstill.transactions, hwrote.self, ← hrewound, hview]
        rfl
    · exact h.still (.of_moved hwrote.toMoved hp) hstill
  | @captured owner page after _ mutation _ _ hclient hview hf hchanged halloc hmutation hencode hwrote hlog hrest =>
    by_cases howner : t = owner
    · subst howner
      have htx : (Database.transactions _ t) = _ := (congrFun hrest.transactions t).trans (Function.update_self _ _ _)
      rcases h with hleft | ⟨hindex, hclean, hrewound⟩
      · exact Or.inl (by rw [htx]; exact hleft)
      have hpage : mutation.pageId = id := by rw [hmutation]
      refine Or.inr ⟨hwrote.pageCount ▸ hindex, ?_, ?_⟩
      · by_cases hp : p = id
        · exact hp ▸ hwrote.clean_self
        · exact hwrote.clean p hp hclean
      · rw [htx, ← hrewound]
        refine Transaction.rewound_captured (hinv.transactions t) ?_ ?_
        · intro hp
          obtain rfl : id = p := hpage.symm.trans hp
          rw [hview, hmutation, ← (view_id hinv hview).1]
        · intro hne
          exact hwrote.view p (fun hp => hne (hpage.trans hp.symm)) hclean
    · have hne : client ≠ some t := by
        rw [hclient]
        exact fun heq => howner (Option.some.inj heq).symm
      exact h.apart (.of_moved hwrote.toMoved (hother hne hview hf)) hrest howner
  | @spoiled owner _ _ _ _ _ _ hclient hview hf halloc hmoved hlog hreason hopen hrest =>
    by_cases howner : t = owner
    · subst howner
      refine Or.inl ?_
      rw [hrest.transactions, Function.update_self]
      exact hopen
    · have hne : client ≠ some t := by
        rw [hclient]
        exact fun heq => howner (Option.some.inj heq).symm
      exact h.apart (.of_moved hmoved (hother hne hview hf)) hrest howner

/-- A piece of a call that neither undoes somebody else's mutation of the page nor undoes in the wrong order. -/
theorem Rewindable.performed (hinv : db.Inv) (h : db.Rewindable t p old) {action : Action}
    {result : Except Err Unit × Database} (hpiece : Performed db owner action result)
    (hspares : owner = t ∨ ∀ index mutation, action = .undo index →
      (db.transactions owner).pendingMutations[index]? = some mutation → mutation.pageId ≠ p)
    (horder : owner = t → ∀ index, action = .undo index → result.1 ≠ .ok () →
      (db.transactions t).unresolvedAfter index = false ∧ (db.transactions t).hasUnfinishedCapture = false) :
    result.2.Rewindable t p old := by
  cases hpiece with
  | @undone index mutation _ _ hmutation hresolved hlater hview halloc hwrote hlog hrest =>
    by_cases howner : owner = t
    · subst howner
      have htx : (Database.transactions _ owner) = _ := (congrFun hrest.transactions owner).trans (Function.update_self _ _ _)
      rcases h with hleft | ⟨hindex, hclean, hrewound⟩
      · exact Or.inl (by rw [htx]; exact hleft)
      refine Or.inr ⟨hwrote.pageCount ▸ hindex, ?_, ?_⟩
      · by_cases hp : p = mutation.pageId
        · exact hp ▸ hwrote.clean_self
        · exact hwrote.clean p hp hclean
      · rw [htx, ← hrewound]
        refine Transaction.rewound_resolvedAt (hinv.transactions owner) hmutation hresolved hlater ?_ ?_
        · rintro rfl
          exact hwrote.self
        · exact fun hne => hwrote.view p (Ne.symm hne) hclean
    · have hne : mutation.pageId ≠ p := (hspares.resolve_left howner) index mutation rfl hmutation
      exact h.apart (.of_moved hwrote.toMoved hne.symm) hrest (Ne.symm howner)
  | notUndone hquiet hstill => exact h.still (.of_quiet hquiet p) hstill
  | @torn index _ mutation _ hmutation hreason halloc hmoved hstill =>
    by_cases howner : owner = t
    · subst howner
      obtain ⟨hlater, hclosed⟩ := horder rfl index rfl (by simp)
      simp [hlater, hclosed] at hreason
    · have hne : mutation.pageId ≠ p := (hspares.resolve_left howner) index mutation rfl hmutation
      exact h.still (.of_moved hmoved hne.symm) hstill
  | released _ hset _ => exact h.still (.of_bitSet hinv hset p (by rfl)) ⟨rfl, rfl, rfl, rfl⟩
  | @activated page pages _ hset =>
    have hkeep : Keeps db (({ db with pages := pages } : Database).setTransaction owner
        (allocatedTo page (db.transactions owner))) p := .of_bitSet hinv hset p rfl
    by_cases howner : t = owner
    · subst howner
      apply h.keep hkeep <;> simp [allocatedTo, Transaction.hasUnfinishedCapture, Transaction.rewound]
    · exact h.apart hkeep ⟨rfl, rfl, rfl⟩ howner
  | notActivated hpages =>
    rcases hpages with rfl | hset
    · exact h
    · exact h.still (.of_bitSet hinv hset p (by rfl)) ⟨rfl, rfl, rfl, rfl⟩
  | _ => exact h.keep (.of_pool hinv p (by rfl) (by rfl) fun _ _ => rfl) rfl fun _ => rfl

/-! ## A call that returns -/

/-- The pieces of a call of the transaction, each of which returned. -/
inductive Performs (t : TransactionId) : Database → List Action → Database → Prop where
  | nil (db : Database) : Performs t db [] db
  | cons {db db₁ db' : Database} {action : Action} {rest : List Action} (hinv : db.Inv)
      (hpiece : Performed db t action (.ok (), db₁)) (hrest : Performs t db₁ rest db') : Performs t db (action :: rest) db'

theorem performs_of_run (hinv : db.Inv) {call : List Action} (hrun : (call.forM (perform t)).run db = (.ok (), db')) :
    Performs t db call db' := by
  induction call generalizing db with
  | nil =>
    obtain rfl : db = db' := (Prod.mk.inj hrun).2
    exact .nil db
  | cons action rest ih =>
    rw [List.forM_eq_forM, List.forM_cons] at hrun
    obtain ⟨hpiece, hinv'⟩ := perform_cases hinv t action
    cases hfirst : (perform t action).run db with
    | mk outcome db₁ =>
      rw [hfirst] at hpiece hinv'
      cases outcome with
      | error e =>
        rw [Op.bind_error hfirst] at hrun
        cases (Prod.mk.inj hrun).1
      | ok _ =>
        rw [Op.bind_ok hfirst] at hrun
        exact .cons hinv hpiece (ih hinv' hrun)

theorem Performs.split {first second : List Action} (h : Performs t db (first ++ second) db') :
    ∃ between, Performs t db first between ∧ Performs t between second db' := by
  induction first generalizing db with
  | nil => exact ⟨db, .nil db, h⟩
  | cons action rest ih =>
    cases h with
    | cons hinv hpiece hrest =>
      obtain ⟨between, hfirst, hsecond⟩ := ih hrest
      exact ⟨between, .cons hinv hpiece hfirst, hsecond⟩

theorem Rewindable.performs (h : db.Rewindable t p old) {call : List Action} (hcall : Performs t db call db') :
    db'.Rewindable t p old := by
  induction hcall with
  | nil => exact h
  | cons hinv hpiece hrest ih => exact ih (h.performed hinv hpiece (Or.inl rfl) fun _ _ _ herror => absurd rfl herror)

/-- A rollback clears the bits it is told to, and touches no other. -/
theorem Performs.allocated {call : List Action} (h : Performs t db call db') (hactivate : ∀ page, .activate page ∉ call)
    (p : PageId) :
    db'.pages.isPageAllocated p = if .release p ∈ call then false else db.pages.isPageAllocated p := by
  induction h with
  | nil db => simp
  | @cons db db₁ db' action rest hinv hpiece hrest ih =>
    have hone : db₁.pages.isPageAllocated p = if action = .release p then false else db.pages.isPageAllocated p := by
      generalize hresult : ((.ok (), db₁) : Except Err Unit × Database) = result at hpiece
      cases hpiece with
      | undone _ _ _ _ _ hwrote _ _ =>
        obtain rfl := (Prod.mk.inj hresult).2
        rw [if_neg (by simp)]
        exact hwrote.allocated p
      | @unallocated page halloc =>
        obtain rfl := (Prod.mk.inj hresult).2
        split
        · rename_i heq
          rwa [← Action.release.inj heq]
        · rfl
      | @released page _ _ halloc hbit hworks =>
        obtain rfl := (Prod.mk.inj hresult).2
        rw [hbit.bit p]
        simp only [Action.release.injEq, eq_comm]
      | activated _ _ => exact absurd List.mem_cons_self (hactivate _)
      | logged htype _ _ =>
        obtain rfl := (Prod.mk.inj hresult).2
        rw [if_neg (by rintro rfl; cases htype)]
        rfl
      | flushed _ _ | aborted _ | committed _ =>
        obtain rfl := (Prod.mk.inj hresult).2
        rw [if_neg (by simp)]
        rfl
      | skipped _ | checked _ =>
        obtain rfl := (Prod.mk.inj hresult).2
        rw [if_neg (by simp)]
      | _ => cases (Prod.mk.inj hresult).1
    rw [ih fun page hmem => hactivate page (List.mem_cons_of_mem _ hmem), hone]
    by_cases hlast : Action.release p ∈ rest
    · simp [hlast]
    · by_cases hfirst : action = .release p
      · simp [hfirst]
      · simp [hlast, hfirst, Ne.symm hfirst]

/-- The end of an abort: everything is undone, and the record is the last of the log and durable. -/
theorem Performs.ended (h : Performs t db [.logAbort, .flushLog, .endAbort] db') :
    (db'.transactions t).hasUnresolvedMutationsForAbort = false ∧
      ∃ lsn, db'.log.records.getLast? = some ⟨lsn, t, .abort, []⟩ ∧ lsn ≤ db'.log.durableLsn := by
  obtain _ | ⟨-, hlogged, h⟩ := h
  obtain _ | ⟨-, hflushed, h⟩ := h
  obtain _ | ⟨-, hended, h⟩ := h
  cases h
  cases hended with
  | logged htype _ _ => cases htype
  | aborted hresolved =>
    cases hflushed with
    | logged htype _ _ => cases htype
    | @flushed log₂ hflush hdurable =>
      cases hlogged with
      | @logged _ _ _ log₁ htype hready hlog =>
        obtain rfl := Option.some.inj htype
        obtain ⟨-, rfl⟩ := hready
        refine ⟨hresolved, db.log.nextLsn, ?_, ?_⟩
        · change log₂.records.getLast? = _
          rw [hflush.records]
          change log₁.records.getLast? = _
          rw [hlog.records, List.getLast?_concat]
        · change _ ≤ log₂.durableLsn
          rw [hdurable]
          change _ ≤ log₁.nextLsn - 1
          rw [hlog.nextLsn, Nat.add_sub_cancel]

theorem performs_abort (hinv : db.Inv) (hrunning : LockSystem.isTerminal (db.state t) = false)
    (habort : (abort t).run db = (.ok (), db')) : Performs t db (abortCall (db.transactions t)) db' := by
  rw [abort_eq, hrunning] at habort
  exact performs_of_run hinv habort

end Database

namespace System

variable {s s' : System} {t : TransactionId} {p : PageId}

/-- The transaction has mutated the page. -/
def Mutated (s : System) (t : TransactionId) (p : PageId) : Prop :=
  ∃ mutation ∈ (s.db.transactions t).pendingMutations, mutation.pageId = p

/-- The step is not a write of the page by anybody but the transaction: neither an access of another client that changes it,
nor the undoing of another transaction's mutation of it. -/
def OthersSpare (t : TransactionId) (p : PageId) (s : System) : Step → Prop
  | .access client id change =>
    client = some t ∨ id ≠ p ∨ ∀ page, s.db.cache.view p = some page → change page.payload = none
  | .resume other => other = t ∨ ∀ index rest mutation, s.calls other = .undo index :: rest →
      (s.db.transactions other).pendingMutations[index]? = some mutation → mutation.pageId ≠ p
  | _ => True

theorem rewindable_step (hinv : s.Inv) {step : Step} (hspare : OthersSpare t p s step) {old : Option Page}
    (h : s.db.Rewindable t p old) : (s.step step).db.Rewindable t p old := by
  have hstep := (step_cases hinv.db step).1
  generalize s.step step = s' at hstep
  cases hstep with
  | stayed => exact h
  | @began log hlog =>
    have hkeep : Database.Keeps s.db (({ s.db with nextId := s.db.nextId + 1, log := log } : Database).setTransaction
        s.db.nextId (.fresh true)) p := .of_pool hinv.db p rfl le_rfl fun _ _ => rfl
    by_cases ht : t = s.db.nextId
    · subst ht
      have htx := (hinv.fresh s.db.nextId le_rfl).1
      apply h.keep hkeep <;> simp [htx]
    · have htx : Function.update s.db.transactions s.db.nextId (.fresh true) t = s.db.transactions t :=
        Function.update_of_ne ht _ _
      exact h.keep hkeep (by simp only [Database.setTransaction, htx]) fun _ => by simp only [Database.setTransaction, htx]
  | notBegan hlog hsick => exact h.keep (.of_pool hinv.db p (by rfl) (by rfl) fun _ _ => rfl) rfl fun _ => rfl
  | accessed hidle haccess => exact h.accessed hinv.db haccess hspare
  | grown hidle hpages hcalls =>
    exact h.keep (.of_pool hinv.db p (by rfl) hpages.pageCount hpages.slot) rfl fun _ => rfl
  | committing hidle hstate => exact h
  | aborting hidle hstate => exact h
  | @resumed owner action rest result hcall hpiece =>
    refine h.performed hinv.db hpiece (hspare.imp_right ?_) ?_
    · rintro hother index mutation rfl hmutation
      exact hother index rest mutation hcall hmutation
    · rintro rfl index rfl -
      have hordered := hinv.ordered owner
      rw [hcall] at hordered
      exact ⟨hordered.undo_next.2.2, hordered.undo_next.2.1⟩
  | locked hlock => exact h.keep (.of_pool hinv.db p (by rfl) (by rfl) fun _ _ => rfl) rfl fun _ => rfl
  | quiet hquiet hstill => exact h.still (.of_quiet hquiet p) hstill
  | synced hlog hdurable => exact h.keep (.of_pool hinv.db p (by rfl) (by rfl) fun _ _ => rfl) rfl fun _ => rfl

theorem firstUnresolved_of_not_mutated (h : ¬ s.Mutated t p) (marks : List Bool) :
    firstUnresolved p (s.db.transactions t).pendingMutations marks = none := by
  have hall : ∀ mutation ∈ (s.db.transactions t).pendingMutations, mutation.pageId ≠ p := fun mutation hmem heq =>
    h ⟨mutation, hmem, heq⟩
  generalize (s.db.transactions t).pendingMutations = mutations at hall
  induction mutations generalizing marks with
  | nil => rfl
  | cons mutation rest ih =>
    obtain ⟨hfirst, hrest⟩ := List.forall_mem_cons.mp hall
    cases marks with
    | nil => rfl
    | cons mark marks => rw [firstUnresolved, if_neg (by simp [hfirst]), ih marks hrest]

/-- The step with the first mutation of the page: it goes back to what it was before that step. -/
theorem rewindable_first (hinv : s.Inv) {step : Step} (hbefore : ¬ s.Mutated t p) (hafter : (s.step step).Mutated t p) :
    (s.step step).db.Rewindable t p (s.db.cache.view p) := by
  have hstep := (step_cases hinv.db step).1
  generalize s.step step = s' at hstep hafter
  -- A step after which the transaction has the same mutations is not the one.
  have hsame : (s'.db.transactions t).pendingMutations = (s.db.transactions t).pendingMutations → False := by
    intro heq
    rw [Mutated, heq] at hafter
    exact hbefore hafter
  cases hstep with
  | began hlog =>
    refine absurd ?_ hsame
    by_cases ht : t = s.db.nextId
    · subst ht
      simp [(hinv.fresh s.db.nextId le_rfl).1]
    · simp [Database.setTransaction, Function.update_of_ne ht]
  | @accessed client id change result hidle haccess =>
    cases haccess with
    | failed _ _ hstill | read _ _ _ hstill | wrote _ _ _ _ _ hstill => exact absurd (by rw [hstill.transactions]) hsame
    | @captured owner page after _ mutation _ db' hclient hview hf hchanged halloc hmutation hencode hwrote hlog hrest =>
      by_cases ht : t = owner
      · subst ht
        have htx : db'.transactions t = (s.db.transactions t).captured mutation := by
          rw [hrest.transactions, Function.update_self]
        have hpage : mutation.pageId = p := by
          obtain ⟨last, hmem, hlast⟩ := hafter
          rw [htx, Transaction.captured, List.mem_append, List.mem_singleton] at hmem
          rcases hmem with hmem | rfl
          · exact absurd ⟨last, hmem, hlast⟩ hbefore
          · exact hlast
        obtain rfl : id = p := (show mutation.pageId = id by rw [hmutation]).symm.trans hpage
        obtain ⟨hid, hindex⟩ := Database.view_id hinv.db hview
        refine Or.inr ⟨hwrote.pageCount ▸ hindex, hwrote.clean_self, ?_⟩
        have hrewound : ∀ view, ((s.db.transactions t).captured mutation).rewound id view =
            (s.db.transactions t).rewound id (some page) := by
          intro view
          apply Transaction.rewound_captured (hinv.db.transactions t)
          · intro _
            rw [hmutation, ← hid]
          · exact fun hne => absurd hpage hne
        rw [htx, hrewound, Transaction.rewound, firstUnresolved_of_not_mutated hbefore, hview]
      · exact absurd (by rw [hrest.transactions, Function.update_of_ne ht]) hsame
    | @spoiled owner _ _ _ _ _ _ hclient _ _ _ _ _ _ hopen hrest =>
      by_cases ht : t = owner
      · subst ht
        refine Or.inl ?_
        rw [hrest.transactions, Function.update_self]
        exact hopen
      · exact absurd (by rw [hrest.transactions, Function.update_of_ne ht]) hsame
  | @resumed owner action rest result hcall hpiece =>
    refine absurd ?_ hsame
    change (result.2.transactions t).pendingMutations = _
    by_cases ht : t = owner
    · subst ht
      cases hpiece with
      | undone _ _ _ _ _ _ _ hrest =>
        rw [hrest.transactions, Function.update_self]
        rfl
      | notUndone _ hstill | torn _ _ _ _ hstill => rw [hstill.transactions]
      | activated _ _ => simp [Database.setTransaction, Database.allocatedTo]
      | _ => rfl
    · rw [hpiece.transactions_of_ne ht]
  | quiet _ hstill => exact absurd (by rw [hstill.transactions]) hsame
  | _ => exact absurd rfl hsame

/-- A transaction has run, in any company, and is still running when the coordinator's `abort` returns for it. Then every
page it mutated, and that nobody else wrote since, is what it was before the transaction's first mutation of it, PageLSN
included; of the allocation bits the abort has cleared those of the transaction's pages and no other; and the log ends
with the abort record, durable. -/
theorem abort_restores_pages (hinit : s.Initial) (run : List Step) (t : TransactionId)
    (hrunning : LockSystem.isTerminal ((exec System.step s run).db.state t) = false) {db' : Database}
    (habort : (Database.abort t).run (exec System.step s run).db = (.ok (), db')) :
    (∀ p done step rest, run = done ++ step :: rest → ¬ (exec System.step s done).Mutated t p →
      (exec System.step s (done ++ [step])).Mutated t p →
      EachStep System.step (OthersSpare t p) (exec System.step s (done ++ [step])) rest →
      db'.cache.view p = (exec System.step s done).db.cache.view p) ∧
    (∀ p ∈ ((exec System.step s run).db.transactions t).allocatedPages, db'.pages.isPageAllocated p = false) ∧
    (∀ p ∉ ((exec System.step s run).db.transactions t).allocatedPages,
      db'.pages.isPageAllocated p = (exec System.step s run).db.pages.isPageAllocated p) ∧
    ∃ lsn, db'.log.records.getLast? = some ⟨lsn, t, .abort, []⟩ ∧ lsn ≤ db'.log.durableLsn := by
  have hinv := hinit.sound.exec run
  have hcall := Database.performs_abort hinv.db hrunning habort
  obtain ⟨between, -, hlast⟩ := hcall.split
  obtain ⟨hundone, hlog⟩ := hlast.ended
  have hbits := hcall.allocated (by simp [Database.abortCall, Database.rollbackCall])
  have hreleased : ∀ p : PageId, .release p ∈ Database.abortCall ((exec System.step s run).db.transactions t) ↔
      p ∈ ((exec System.step s run).db.transactions t).allocatedPages := by
    simp [Database.abortCall, Database.rollbackCall]
  refine ⟨?_, ?_, ?_, hlog⟩
  · rintro p done step rest rfl hbefore hafter hspare
    have hsound := hinit.sound.exec done
    have hfirst : exec System.step s (done ++ [step]) = (exec System.step s done).step step := exec_append done [step]
    rw [hfirst] at hafter hspare
    have hrewind := (always_of_eachStep
      (P := fun s' : System => s'.Inv ∧ s'.db.Rewindable t p ((exec System.step s done).db.cache.view p))
      (fun _ step h hspare => ⟨h.1.step step, rewindable_step h.1 hspare h.2⟩)
      ⟨hsound.step step, rewindable_first hsound hbefore hafter⟩ hspare).last
    rw [← exec_cons, ← exec_append] at hrewind
    rcases hrewind.2.performs hcall with hopen | ⟨-, -, hrewound⟩
    · rw [Transaction.hasUnresolvedMutationsForAbort, hopen] at hundone
      cases hundone
    · rwa [Transaction.rewound_of_undone hundone] at hrewound
  · intro p hmem
    rw [hbits, if_pos ((hreleased p).mpr hmem)]
  · intro p hmem
    rw [hbits, if_neg fun hrelease => hmem ((hreleased p).mp hrelease)]

/-- In a pool of one frame, a transaction writes page 0 twice, allocates page 1, and writes it, which evicts page 0. -/
def mutatingRun : List Step :=
  [.allocate none, .begin, .access (some 1) (.ofIndex 0) (fun _ => some (.filled 1)),
    .access (some 1) (.ofIndex 0) (fun _ => some (.filled 2)), .allocate (some 1), .resume 1, .resume 1, .resume 1,
    .access (some 1) (.ofIndex 1) (fun _ => some (.filled 3))]

theorem mutatingRun_restored : ((Database.abort 1).run (exec System.step (new 1) mutatingRun).db).1 = .ok () ∧
    ((Database.abort 1).run (exec System.step (new 1) mutatingRun).db).2.cache.view (.ofIndex 0) =
      (exec System.step (new 1) (mutatingRun.take 2)).db.cache.view (.ofIndex 0) ∧
    ((Database.abort 1).run (exec System.step (new 1) mutatingRun).db).2.pages.isPageAllocated (.ofIndex 1) = false := by
  have hfacts : ((Database.abort 1).run (exec System.step (new 1) mutatingRun).db).1 = .ok () ∧
      LockSystem.isTerminal ((exec System.step (new 1) mutatingRun).db.state 1) = false ∧
      PageId.ofIndex 1 ∈ ((exec System.step (new 1) mutatingRun).db.transactions 1).allocatedPages ∧
      (exec System.step (new 1) (mutatingRun.take 3)).Mutated 1 (.ofIndex 0) := by
    unfold Mutated
    decide +kernel
  obtain ⟨hok, hrunning, hpage, hmutated⟩ := hfacts
  have habort : (Database.abort 1).run (exec System.step (new 1) mutatingRun).db =
      (.ok (), ((Database.abort 1).run (exec System.step (new 1) mutatingRun).db).2) := by
    rw [← hok]
  obtain ⟨hpages, hreleased, -, -⟩ := abort_restores_pages (initial_new 1) mutatingRun 1 hrunning habort
  refine ⟨hok, hpages (.ofIndex 0) (mutatingRun.take 2) _ (mutatingRun.drop 3) rfl ?_ ?_ ?_, hreleased _ hpage⟩
  · unfold Mutated
    decide +kernel
  · exact hmutated
  · exact ⟨Or.inl rfl, trivial, Or.inl rfl, Or.inl rfl, Or.inl rfl, Or.inl rfl, trivial⟩

end System

end Ddb.Concurrency
