import Mathlib.Algebra.BigOperators.Group.Finset.Basic
import Ddb.Buffer.PendingGates
import Ddb.Concurrency.Effects

/-!
# Whose gate it is

Without a log sink a captured mutation waits for its LSN: it holds a gate of its page until `finalize_next_mutation` gives it
the LSN or `resolve_mutation_for_undo` reports that it was undone. The gates of a page are a plain number, and each transaction
keeps its own account of which of its mutations still have one: the finalized ones are a beginning of its list, the undone ones
are marked.

The two accounts agree until a transaction finalizes a mutation it has undone before. Its gate is gone by then, and the one
that is released instead is another transaction's, or another mutation's.
-/

namespace Ddb.Concurrency

open Ddb.Lib Ddb.Storage Ddb.Buffer

variable {db db' : Database} {t : TransactionId} {tx tx' : Transaction} {p : PageId}

namespace Transaction

/-- The mutations of a page that are neither finalized nor undone, by their indexes. -/
def openAt (tx : Transaction) (p : PageId) : Finset Nat :=
  (Finset.range tx.pendingMutations.length).filter fun i =>
    (tx.pendingMutations[i]?).map PhysicalMutation.pageId = some p ∧ tx.finalizedMutations ≤ i ∧ tx.resolved i = false

/-- A transaction without a log sink, its lists in step. -/
structure Unlogged (tx : Transaction) : Prop where
  logSink : tx.logSink = false
  resolved_length : tx.undoResolved.length = tx.pendingMutations.length
  finalized_le : tx.finalizedMutations ≤ tx.pendingMutations.length

/-- The accounts of the mutations are the same; the open captures may differ. -/
structure SameBook (tx tx' : Transaction) : Prop where
  logSink : tx'.logSink = tx.logSink
  pendingMutations : tx'.pendingMutations = tx.pendingMutations
  undoResolved : tx'.undoResolved = tx.undoResolved
  finalizedMutations : tx'.finalizedMutations = tx.finalizedMutations

theorem SameBook.refl (tx : Transaction) : SameBook tx tx := ⟨rfl, rfl, rfl, rfl⟩

theorem SameBook.trans {tx₁ : Transaction} (h' : SameBook tx₁ tx') (h : SameBook tx tx₁) : SameBook tx tx' :=
  ⟨h'.logSink.trans h.logSink, h'.pendingMutations.trans h.pendingMutations, h'.undoResolved.trans h.undoResolved,
    h'.finalizedMutations.trans h.finalizedMutations⟩

theorem SameBook.unlogged (h : SameBook tx tx') (hun : tx.Unlogged) : tx'.Unlogged := by
  refine ⟨h.logSink.trans hun.logSink, ?_, ?_⟩
  · rw [h.undoResolved, h.pendingMutations, hun.resolved_length]
  · rw [h.finalizedMutations, h.pendingMutations]
    exact hun.finalized_le

theorem mem_openAt {i : Nat} : i ∈ tx.openAt p ↔ (∃ mutation, tx.pendingMutations[i]? = some mutation ∧ mutation.pageId = p) ∧
    tx.finalizedMutations ≤ i ∧ tx.resolved i = false := by
  rw [openAt, Finset.mem_filter, Finset.mem_range, Option.map_eq_some_iff]
  constructor
  · exact fun h => h.2
  · intro h
    obtain ⟨mutation, hmutation, -⟩ := h.1
    exact ⟨(List.getElem?_eq_some_iff.mp hmutation).1, h⟩

theorem SameBook.openAt (h : SameBook tx tx') (p : PageId) : tx'.openAt p = tx.openAt p := by
  ext i
  simp only [mem_openAt, resolved, h.pendingMutations, h.undoResolved, h.finalizedMutations]

theorem openAt_fresh (logSink : Bool) (p : PageId) : (fresh logSink).openAt p = ∅ := rfl

end Transaction

open Transaction

theorem Transaction.Unlogged.recorded (h : tx.Unlogged) (mutation : PhysicalMutation) :
    (Database.recorded mutation tx).Unlogged := by
  refine ⟨h.logSink, ?_, ?_⟩
  · simp [Database.recorded, h.resolved_length]
  · have hle := h.finalized_le
    simp only [Database.recorded, List.length_append, List.length_singleton]
    omega

theorem Transaction.Unlogged.finalized (h : tx.Unlogged) (hlt : tx.finalizedMutations < tx.pendingMutations.length) :
    (Database.finalized tx).Unlogged := ⟨h.logSink, h.resolved_length, hlt⟩

theorem Transaction.Unlogged.resolvedAt (h : tx.Unlogged) (i : Nat) : (Database.resolvedAt i tx).Unlogged :=
  ⟨h.logSink, List.length_set.trans h.resolved_length, h.finalized_le⟩

/-! ## The account of one transaction -/

/-- A captured mutation is open. -/
theorem openAt_recorded (h : tx.Unlogged) (mutation : PhysicalMutation) (p : PageId) :
    (Database.recorded mutation tx).openAt p =
      if mutation.pageId = p then insert tx.pendingMutations.length (tx.openAt p) else tx.openAt p := by
  have hold : ∀ i, i < tx.pendingMutations.length →
      (i ∈ (Database.recorded mutation tx).openAt p ↔ i ∈ tx.openAt p) := by
    intro i hi
    have hresolved : (Database.recorded mutation tx).resolved i = tx.resolved i := by
      simp only [Transaction.resolved, Database.recorded, List.getD_eq_getElem?_getD,
        List.getElem?_append_left (h.resolved_length ▸ hi)]
    rw [mem_openAt, mem_openAt, hresolved]
    simp only [Database.recorded, List.getElem?_append_left hi]
  have hnew : tx.pendingMutations.length ∈ (Database.recorded mutation tx).openAt p ↔ mutation.pageId = p := by
    have hresolved : (Database.recorded mutation tx).resolved tx.pendingMutations.length = false := by
      simp [Transaction.resolved, Database.recorded, ← h.resolved_length]
    rw [mem_openAt, hresolved]
    simp [Database.recorded, h.finalized_le]
  ext i
  rcases Nat.lt_trichotomy i tx.pendingMutations.length with hlt | rfl | hgt
  · rw [hold i hlt]
    split
    · rw [Finset.mem_insert]
      exact ⟨Or.inr, fun hmem => hmem.resolve_left hlt.ne⟩
    · rfl
  · rw [hnew]
    split
    · simp [*]
    · rename_i hp
      simp [hp, mem_openAt]
  · have hout : ∀ (tx' : Transaction), tx'.pendingMutations.length ≤ i → i ∉ tx'.openAt p := by
      intro tx' hle hmem
      obtain ⟨⟨_, hsome, -⟩, -⟩ := mem_openAt.mp hmem
      rw [List.getElem?_eq_none hle] at hsome
      cases hsome
    have hlength : (Database.recorded mutation tx).pendingMutations.length = tx.pendingMutations.length + 1 := by
      simp [Database.recorded]
    have hleft := hout (Database.recorded mutation tx) (by omega)
    have hright := hout tx hgt.le
    split
    · simp [hleft, hright, hgt.ne']
    · simp [hleft, hright]

theorem openAt_finalized (tx : Transaction) (p : PageId) :
    (Database.finalized tx).openAt p = (tx.openAt p).erase tx.finalizedMutations := by
  ext i
  have hsame : (Database.finalized tx).resolved i = tx.resolved i := rfl
  rw [Finset.mem_erase, mem_openAt, mem_openAt, hsame]
  simp only [Database.finalized]
  constructor
  · rintro ⟨hpage, hle, hopen⟩
    exact ⟨by omega, hpage, by omega, hopen⟩
  · rintro ⟨hne, hpage, hle, hopen⟩
    exact ⟨hpage, by omega, hopen⟩

theorem openAt_resolvedAt (h : tx.Unlogged) {i : Nat} (hi : i < tx.pendingMutations.length) (p : PageId) :
    (Database.resolvedAt i tx).openAt p = (tx.openAt p).erase i := by
  ext j
  rw [Finset.mem_erase, mem_openAt, mem_openAt]
  have hset : (Database.resolvedAt i tx).resolved j = if i = j then true else tx.resolved j := by
    simp only [Transaction.resolved, Database.resolvedAt, List.getD_eq_getElem?_getD, List.getElem?_set]
    rw [h.resolved_length]
    split
    · simp
    · rfl
  rw [hset]
  simp only [Database.resolvedAt]
  by_cases hij : i = j
  · simp [hij]
  · simp [hij, Ne.symm hij]

/-! ## The account of all -/

/-- The captured mutations of a page, over all transactions, that are neither finalized nor undone. -/
def Database.openMutations (db : Database) (p : PageId) : Nat :=
  ∑ t ∈ Finset.range db.nextId, ((db.transactions t).openAt p).card

/-- The gates of every page are those of its open mutations. -/
def Database.Accounted (db : Database) : Prop := ∀ p, db.pool.gates p = db.openMutations p

namespace Database

/-- Only one account has changed. -/
theorem openMutations_change (ht : t < db.nextId) (hnext : db'.nextId = db.nextId)
    (hothers : ∀ u, u ≠ t → SameBook (db.transactions u) (db'.transactions u)) (p : PageId) :
    db'.openMutations p + ((db.transactions t).openAt p).card = db.openMutations p + ((db'.transactions t).openAt p).card := by
  have hmem : t ∈ Finset.range db.nextId := Finset.mem_range.mpr ht
  have hold := Finset.add_sum_erase (Finset.range db.nextId) (fun u => ((db.transactions u).openAt p).card) hmem
  have hnew := Finset.add_sum_erase (Finset.range db.nextId) (fun u => ((db'.transactions u).openAt p).card) hmem
  have hrest := Finset.sum_congr (rfl : (Finset.range db.nextId).erase t = _) fun u hu =>
    congrArg Finset.card ((hothers u (Finset.ne_of_mem_erase hu)).openAt p)
  rw [openMutations, openMutations, hnext, ← hold, ← hnew, hrest]
  omega

/-! ## The calls -/

/-- `finalize_next_mutation`. Before the first capture there is no pool, and nothing to finalize. -/
def finalizeNextMutation (t : TransactionId) (lsn : Nat) : DbOp Unit := do
  let tx := (← get).transactions t
  match tx.pendingMutations[tx.finalizedMutations]? with
  | none => throw (.logic "no captured transaction mutation to finalize")
  | some mutation =>
    onCache (Cache.finalizePendingMutation mutation.pageId lsn)
    modifyTransaction t finalized

/-- `begin` of a transaction manager without a log sink. -/
def beginUnlogged : DbOp Unit :=
  modify fun db => { db.setTransaction db.nextId (.fresh false) with nextId := db.nextId + 1 }

/-- A call on a transaction that has begun. -/
def ofBegun (t : TransactionId) (x : DbOp Unit) : DbOp Unit := do
  if t < (← get).nextId then x else pure ()

/-- A call with a pointer to a resident page. -/
def ofResident (id : PageId) (x : FrameId → DbOp Unit) : DbOp Unit := do
  match (← get).pool.pageTable id with
  | some frameId => x frameId
  | none => pure ()

/-- The calls of any number of transactions on one pool. A capture is a `watch`, writes to the pinned page and a `finish`.
What the durability provider answers is up to others: it moves with `durable`. A pool without a provider is one whose
provider answers with more than any LSN that is given out. -/
inductive GateCall where
  | begin
  | fetchPage (id : PageId)
  | write (id : PageId) (payload : Payload)
  | unpinPage (id : PageId) (isDirty : Bool)
  | durable (lsn : Nat)
  | watch (t : TransactionId) (id : PageId)
  | finish (t : TransactionId) (id : PageId)
  | finalizeNextMutation (t : TransactionId) (lsn : Nat)
  | resolveMutationForUndo (t : TransactionId) (index restoredPageLsn : Nat)

namespace GateCall

def perform : GateCall → DbOp Unit
  | begin => beginUnlogged
  | fetchPage id => do let _ ← onCache (Cache.fetchPage id)
  | write id payload => ofResident id fun frameId => onCache (writePayload frameId payload)
  | unpinPage id isDirty => do let _ ← onCache (Cache.unpinPage id isDirty)
  | durable lsn => modify fun db => { db with log := { db.log with durableLsn := lsn } }
  | watch t id => ofBegun t (Database.watch t id)
  | finish t id => ofBegun t (ofResident id fun frameId => Database.finish t id frameId)
  | finalizeNextMutation t lsn => ofBegun t (Database.finalizeNextMutation t lsn)
  | resolveMutationForUndo t index restoredPageLsn => ofBegun t (Database.resolveMutationForUndo t index restoredPageLsn)

/-- The transaction that makes the call. -/
def owner : GateCall → Option TransactionId
  | watch t _ | finish t _ | finalizeNextMutation t _ | resolveMutationForUndo t _ _ => some t
  | begin | fetchPage _ | write _ _ | unpinPage _ _ | durable _ => none

end GateCall

def gateStep (db : Database) (call : GateCall) : Database := (call.perform.run db).2

def Returns (db : Database) (call : GateCall) : Prop := (call.perform.run db).1 = .ok ()

/-- A page is not given up for the last time without the dirty mark when a mutation of it is pending. -/
def MarksCaptured (db : Database) (call : GateCall) : Prop :=
  ∀ id, call = .unpinPage id false → ∀ f, db.pool.pageTable id = some f → (db.pool.frames f).pinCount = 1 →
    (db.pool.frames f).dirty = true ∨ (db.pool.frames f).pendingMutations = 0

/-- The next mutation to be finalized has not been undone. -/
def FinalizesOpen (db : Database) (call : GateCall) : Prop :=
  ∀ t lsn, call = .finalizeNextMutation t lsn → t < db.nextId →
    (db.transactions t).resolved (db.transactions t).finalizedMutations = false

instance (db : Database) (call : GateCall) : Decidable (db.Returns call) :=
  match h : (call.perform.run db).1 with
  | .ok () => .isTrue h
  | .error _ => .isFalse fun hok => nomatch h.symm.trans hok

instance (db : Database) : (call : GateCall) → Decidable (db.MarksCaptured call)
  | .unpinPage id false =>
    decidable_of_iff (∀ f ∈ db.pool.pageTable id, (db.pool.frames f).pinCount = 1 →
        (db.pool.frames f).dirty = true ∨ (db.pool.frames f).pendingMutations = 0) <| by
      constructor
      · rintro h _ ⟨⟩
        exact h
      · intro h
        exact h id rfl
  | .unpinPage _ true | .begin | .fetchPage _ | .write _ _ | .durable _ | .watch _ _ | .finish _ _
  | .finalizeNextMutation _ _ | .resolveMutationForUndo _ _ _ => .isTrue nofun

instance (db : Database) : (call : GateCall) → Decidable (db.FinalizesOpen call)
  | .finalizeNextMutation t lsn =>
    decidable_of_iff (t < db.nextId → (db.transactions t).resolved (db.transactions t).finalizedMutations = false) <| by
      constructor
      · rintro h _ _ ⟨⟩
        exact h
      · intro h
        exact h t lsn rfl
  | .begin | .fetchPage _ | .write _ _ | .unpinPage _ _ | .durable _ | .watch _ _ | .finish _ _
  | .resolveMutationForUndo _ _ _ => .isTrue nofun

/-! ## What a call does -/

/-- The account of a transaction and the gates of all pages after a call of the transaction that moved them. -/
inductive Moved (tx : Transaction) (gates : PageId → Nat) (t : TransactionId) (call : GateCall) :
    Transaction → (PageId → Nat) → Prop where
  | captured (mutation : PhysicalMutation) (hcall : ∀ t lsn, call ≠ .finalizeNextMutation t lsn) :
      Moved tx gates t call (recorded mutation tx) (Function.update gates mutation.pageId (gates mutation.pageId + 1))
  | finalized {lsn : Nat} {mutation : PhysicalMutation} (hcall : call = .finalizeNextMutation t lsn)
      (hmutation : tx.pendingMutations[tx.finalizedMutations]? = some mutation) (hpos : gates mutation.pageId ≠ 0) :
      Moved tx gates t call (finalized tx) (Function.update gates mutation.pageId (gates mutation.pageId - 1))
  | resolved {index : Nat} {mutation : PhysicalMutation} (hcall : ∀ t lsn, call ≠ .finalizeNextMutation t lsn)
      (hmutation : tx.pendingMutations[index]? = some mutation) (hopen : tx.resolved index = false)
      (hpos : tx.finalizedMutations ≤ index → gates mutation.pageId ≠ 0) :
      Moved tx gates t call (resolvedAt index tx)
        (if tx.finalizedMutations ≤ index then Function.update gates mutation.pageId (gates mutation.pageId - 1) else gates)

/-- One transaction has this account now, the others are as they were, and the gates are these. -/
structure Turned (db : Database) (t : TransactionId) (tx : Transaction) (gates : PageId → Nat) (db' : Database) : Prop where
  pool : db'.cache.HasGates gates
  book : SameBook tx (db'.transactions t)
  others : ∀ u, u ≠ t → SameBook (db.transactions u) (db'.transactions u)
  nextId : db'.nextId = db.nextId

/-- The gates and the accounts after a call that returned. -/
inductive Gated (db : Database) (call : GateCall) (db' : Database) : Prop where
  | kept (hgates : db'.cache.HasGates db.pool.gates) (hbooks : ∀ u, SameBook (db.transactions u) (db'.transactions u))
      (hnext : db'.nextId = db.nextId) (hcall : ∀ t lsn, call = .finalizeNextMutation t lsn → db.nextId ≤ t)
  | begun (hcall : call = .begin) (hgates : db'.cache.HasGates db.pool.gates)
      (hnew : db'.transactions = Function.update db.transactions db.nextId (.fresh false)) (hnext : db'.nextId = db.nextId + 1)
  | moved {t : TransactionId} {tx : Transaction} {gates : PageId → Nat} (ht : t < db.nextId) (howner : call.owner = some t)
      (hmoved : Moved (db.transactions t) db.pool.gates t call tx gates) (hturned : Turned db t tx gates db')

/-- The pool is in order, no gate can be lost by an eviction, and no transaction has a log sink. -/
structure GateInv (db : Database) : Prop where
  inv : db.cache.Inv none
  guarded : db.pool.Guarded
  unlogged : ∀ t, (db.transactions t).Unlogged

theorem GateInv.hasGates (h : db.GateInv) : db.cache.HasGates db.pool.gates := ⟨h.inv, h.guarded, rfl⟩

theorem hasGates_withCache {c : Cache} {gates : PageId → Nat} (h : c.HasGates gates) : (db.withCache c).cache.HasGates gates :=
  ⟨⟨h.inv.pages, h.inv.pool, h.inv.resident⟩, h.guarded, h.gates⟩

theorem sameBook_setTransaction {u : TransactionId} (hu : u ≠ t) (tx : Transaction) :
    SameBook (db.transactions u) ((db.setTransaction t tx).transactions u) := by
  rw [setTransaction]
  dsimp only
  rw [Function.update_of_ne hu]
  exact .refl _

theorem turned_setTransaction {c : Cache} {gates : PageId → Nat} (h : c.HasGates gates) (hbook : SameBook tx tx') :
    Turned db t tx gates ((db.withCache c).setTransaction t tx') where
  pool := hasGates_withCache h
  book := by rwa [setTransaction_self]
  others _ hu := @sameBook_setTransaction (db.withCache c) t _ hu tx'
  nextId := rfl

/-- Taking a sequence of a call on the pool and a note of the transaction apart. -/
theorem of_onCache_modify_ok {x : CacheOp Unit} {change : Transaction → Transaction} {db' : Database}
    (hrun : (do onCache x; modifyTransaction t change : DbOp Unit).run db = (.ok (), db')) :
    ∃ c, x.run db.cache = (.ok (), c) ∧ db' = (db.withCache c).setTransaction t (change (db.transactions t)) := by
  obtain ⟨_, db₁, hfirst, hsecond⟩ := Op.of_bind_ok hrun
  obtain ⟨houtcome, rfl⟩ := Prod.mk.inj hfirst
  obtain ⟨-, rfl⟩ := Prod.mk.inj hsecond
  exact ⟨_, Prod.ext houtcome rfl, rfl⟩

theorem watch_ok (h : db.GateInv) {id : PageId} (hrun : (watch t id).run db = (.ok (), db')) :
    Turned db t (db.transactions t) db.pool.gates db' := by
  rw [watch] at hrun
  obtain ⟨page, db₁, himage, hrest⟩ := Op.of_bind_ok (Op.of_throwIf_bind_ok hrun).2
  have hkeeps := h.hasGates.image id
  obtain ⟨-, rfl⟩ := Prod.mk.inj himage
  obtain ⟨-, rfl⟩ := Prod.mk.inj hrest
  exact turned_setTransaction hkeeps ⟨rfl, rfl, rfl, rfl⟩

theorem captureChange_unlogged (hsink : (db.transactions t).logSink = false) (mutation : PhysicalMutation) (f : FrameId) :
    (captureChange t f mutation).run db = (onCache (Cache.markMutationPending mutation.pageId)).run
      (db.setTransaction t (recorded mutation (movedBefore mutation.pageId (db.transactions t)))) := by
  have hpushed : (db.setTransaction t (movedBefore mutation.pageId (db.transactions t))).setTransaction t
      (recorded mutation ((db.setTransaction t (movedBefore mutation.pageId (db.transactions t))).transactions t)) =
      db.setTransaction t (recorded mutation (movedBefore mutation.pageId (db.transactions t))) := by
    rw [setTransaction_self, setTransaction_idem]
  have hsink' : ¬ ((db.setTransaction t (recorded mutation (movedBefore mutation.pageId (db.transactions t)))).transactions
      t).logSink = true := by
    rw [setTransaction_self]
    change ¬ (db.transactions t).logSink = true
    simp [hsink]
  simp only [captureChange, finalizeMutation, modifyTransaction, bind_assoc, Op.modify_bind, Op.get_bind, hpushed,
    if_neg hsink', pure_bind]

/-- A `finish` that returned has found nothing changed, or has captured the change behind a gate. -/
theorem finish_ok (h : db.GateInv) {id : PageId} {f : FrameId} (hrun : (finish t id f).run db = (.ok (), db')) :
    Turned db t (db.transactions t) db.pool.gates db' ∨ ∃ mutation : PhysicalMutation,
      Turned db t (recorded mutation (db.transactions t))
        (Function.update db.pool.gates mutation.pageId (db.pool.gates mutation.pageId + 1)) db' := by
  rw [finish, Op.get_bind] at hrun
  replace hrun := (Op.of_throwIf_bind_ok hrun).2
  rw [capture, Op.get_bind] at hrun
  dsimp only at hrun
  cases hfind : (db.transactions t).context.pending.find? fun entry => entry.id = id with
  | none =>
    rw [hfind] at hrun
    cases (Prod.mk.inj hrun).1
  | some entry =>
    rw [hfind] at hrun
    dsimp only at hrun
    cases hbefore : entry.before with
    | none =>
      rw [hbefore] at hrun
      cases (Prod.mk.inj hrun).1
    | some before =>
      rw [hbefore] at hrun
      dsimp only at hrun
      by_cases hchanged : (db.pool.frames f).page.payload ≠ before
      · rw [if_pos hchanged] at hrun
        obtain ⟨mutation, hmutation⟩ : ∃ mutation : PhysicalMutation, mutation = ⟨id, .payloadWrite,
          (db.transactions t).context.nextSequence, before, (db.pool.frames f).page.payload, entry.previousPageLsn⟩ := ⟨_, rfl⟩
        rw [← hmutation] at hrun
        obtain ⟨_, db₁, hcapture, hrest⟩ := Op.of_bind_ok hrun
        rw [captureChange_unlogged (h.unlogged t).logSink] at hcapture
        obtain ⟨hmark, rfl⟩ := Prod.mk.inj hcapture
        obtain ⟨-, rfl⟩ := Prod.mk.inj hrest
        have hmoves := h.hasGates.markMutationPending (Prod.ext hmark rfl)
        have hfirst := @turned_setTransaction db t (recorded mutation (db.transactions t))
          (recorded mutation (movedBefore mutation.pageId (db.transactions t))) _ _ hmoves ⟨rfl, rfl, rfl, rfl⟩
        refine Or.inr ⟨mutation, hfirst.pool, ?_, fun u hu => (sameBook_setTransaction hu _).trans (hfirst.others u hu), rfl⟩
        rw [setTransaction_self]
        exact ⟨hfirst.book.logSink, hfirst.book.pendingMutations, hfirst.book.undoResolved, hfirst.book.finalizedMutations⟩
      · rw [if_neg hchanged, pure_bind] at hrun
        obtain ⟨-, rfl⟩ := Prod.mk.inj hrun
        exact Or.inl (turned_setTransaction h.hasGates ⟨rfl, rfl, rfl, rfl⟩)

theorem finalizeNextMutation_ok (h : db.GateInv) {lsn : Nat} (hrun : (finalizeNextMutation t lsn).run db = (.ok (), db')) :
    ∃ mutation, (db.transactions t).pendingMutations[(db.transactions t).finalizedMutations]? = some mutation ∧
      db.pool.gates mutation.pageId ≠ 0 ∧ Turned db t (finalized (db.transactions t))
        (Function.update db.pool.gates mutation.pageId (db.pool.gates mutation.pageId - 1)) db' := by
  rw [finalizeNextMutation, Op.get_bind] at hrun
  dsimp only at hrun
  cases hmutation : (db.transactions t).pendingMutations[(db.transactions t).finalizedMutations]? with
  | none =>
    rw [hmutation] at hrun
    cases (Prod.mk.inj hrun).1
  | some mutation =>
    rw [hmutation] at hrun
    obtain ⟨c, hfinalize, rfl⟩ := of_onCache_modify_ok hrun
    obtain ⟨hpos, hmoves⟩ := h.hasGates.finalizePendingMutation hfinalize
    exact ⟨mutation, rfl, hpos, turned_setTransaction hmoves (.refl _)⟩

theorem resolveMutationForUndo_ok (h : db.GateInv) {index lsn : Nat}
    (hrun : (resolveMutationForUndo t index lsn).run db = (.ok (), db')) :
    ∃ mutation, (db.transactions t).pendingMutations[index]? = some mutation ∧ (db.transactions t).resolved index = false ∧
      ((db.transactions t).finalizedMutations ≤ index → db.pool.gates mutation.pageId ≠ 0) ∧
      Turned db t (resolvedAt index (db.transactions t)) (if (db.transactions t).finalizedMutations ≤ index then
        Function.update db.pool.gates mutation.pageId (db.pool.gates mutation.pageId - 1) else db.pool.gates) db' := by
  rw [resolveMutationForUndo, Op.get_bind] at hrun
  dsimp only at hrun
  cases hmutation : (db.transactions t).pendingMutations[index]? with
  | none =>
    rw [hmutation] at hrun
    cases (Prod.mk.inj hrun).1
  | some mutation =>
    rw [hmutation] at hrun
    dsimp only at hrun
    obtain ⟨hopen, hrun⟩ := Op.of_throwIf_bind_ok hrun
    replace hrun := (Op.of_throwIf_bind_ok hrun).2
    obtain ⟨c, hresolve, rfl⟩ := of_onCache_modify_ok hrun
    refine ⟨mutation, rfl, by simpa using hopen, ?_⟩
    by_cases hlt : index < (db.transactions t).finalizedMutations
    · -- A finalized mutation has no gate to release.
      rw [if_pos hlt] at hresolve
      rw [if_neg hlt.not_ge]
      exact ⟨fun hle => absurd hle hlt.not_ge,
        turned_setTransaction (h.hasGates.restorePageLsnAfterUndo hresolve) (.refl _)⟩
    · rw [if_neg hlt] at hresolve
      rw [if_pos (Nat.le_of_not_lt hlt)]
      obtain ⟨hpos, hmoves⟩ := h.hasGates.resolvePendingMutation hresolve
      exact ⟨fun _ => hpos, turned_setTransaction hmoves (.refl _)⟩

/-- A call on a transaction that has not begun does nothing. -/
theorem of_ofBegun_ok {x : DbOp Unit} (hrun : (ofBegun t x).run db = (.ok (), db')) :
    (t < db.nextId ∧ x.run db = (.ok (), db')) ∨ (db.nextId ≤ t ∧ db' = db) := by
  rw [ofBegun, Op.get_bind] at hrun
  split at hrun
  · rename_i ht
    exact Or.inl ⟨ht, hrun⟩
  · rename_i ht
    obtain ⟨-, rfl⟩ := Prod.mk.inj hrun
    exact Or.inr ⟨Nat.le_of_not_lt ht, rfl⟩

theorem of_ofResident_ok {id : PageId} {x : FrameId → DbOp Unit} (hrun : (ofResident id x).run db = (.ok (), db')) :
    (∃ f, db.pool.pageTable id = some f ∧ (x f).run db = (.ok (), db')) ∨ db' = db := by
  rw [ofResident, Op.get_bind] at hrun
  cases hf : db.pool.pageTable id with
  | some f =>
    rw [hf] at hrun
    exact Or.inl ⟨f, rfl, hrun⟩
  | none =>
    rw [hf] at hrun
    obtain ⟨-, rfl⟩ := Prod.mk.inj hrun
    exact Or.inr rfl

variable {call : GateCall} {mutation : PhysicalMutation}

theorem gated_self (h : db.GateInv) (hcall : ∀ t lsn, call = .finalizeNextMutation t lsn → db.nextId ≤ t) :
    Gated db call db := .kept h.hasGates (fun _ => .refl _) rfl hcall

/-- A call of the pool that leaves the gates alone. -/
theorem gated_withCache {c : Cache} (h : c.HasGates db.pool.gates) (hcall : ∀ t lsn, call ≠ .finalizeNextMutation t lsn) :
    Gated db call (db.withCache c) :=
  .kept (hasGates_withCache h) (fun _ => .refl _) rfl fun t lsn heq => absurd heq (hcall t lsn)

/-- A call of a transaction that leaves the gates and its account alone. -/
theorem Turned.kept (h : Turned db t (db.transactions t) db.pool.gates db')
    (hcall : ∀ t lsn, call ≠ .finalizeNextMutation t lsn) : Gated db call db' := by
  refine .kept h.pool (fun u => ?_) h.nextId fun t lsn heq => absurd heq (hcall t lsn)
  by_cases hu : u = t
  · exact hu ▸ h.book
  · exact h.others u hu

/-- Each call that returned has kept the gates and the accounts, or has moved one gate and one account. -/
theorem gateStep_cases (h : db.GateInv) (hreturns : db.Returns call) (hmarks : db.MarksCaptured call) :
    Gated db call (db.gateStep call) := by
  have hrun : call.perform.run db = (.ok (), db.gateStep call) := Prod.ext hreturns rfl
  generalize db.gateStep call = db' at hrun ⊢
  cases call with
  | begin =>
    obtain ⟨-, rfl⟩ := Prod.mk.inj hrun
    exact .begun rfl h.hasGates rfl rfl
  | fetchPage id =>
    obtain ⟨_, db₁, hfetch, hend⟩ := Op.of_bind_ok hrun
    obtain ⟨-, rfl⟩ := Prod.mk.inj hend
    obtain ⟨-, rfl⟩ := Prod.mk.inj hfetch
    exact gated_withCache (h.hasGates.fetchPage id).1 nofun
  | write id payload =>
    rcases of_ofResident_ok hrun with ⟨f, hf, hwrite⟩ | rfl
    · obtain ⟨-, rfl⟩ := Prod.mk.inj hwrite
      exact gated_withCache (h.hasGates.writePayload hf payload) nofun
    · exact gated_self h nofun
  | unpinPage id isDirty =>
    obtain ⟨_, db₁, hunpin, hend⟩ := Op.of_bind_ok hrun
    obtain ⟨-, rfl⟩ := Prod.mk.inj hend
    obtain ⟨-, rfl⟩ := Prod.mk.inj hunpin
    refine gated_withCache (h.hasGates.unpinPage id isDirty ?_) nofun
    rintro rfl
    exact hmarks id rfl
  | durable lsn =>
    obtain ⟨-, rfl⟩ := Prod.mk.inj hrun
    exact .kept ⟨⟨h.inv.pages, h.inv.pool, h.inv.resident⟩, h.guarded, rfl⟩ (fun _ => .refl _) rfl nofun
  | watch t id =>
    rcases of_ofBegun_ok hrun with ⟨-, hwatch⟩ | ⟨-, rfl⟩
    · exact (watch_ok h hwatch).kept nofun
    · exact gated_self h nofun
  | finish t id =>
    rcases of_ofBegun_ok hrun with ⟨ht, hresident⟩ | ⟨-, rfl⟩
    · rcases of_ofResident_ok hresident with ⟨f, -, hfinish⟩ | rfl
      · rcases finish_ok h hfinish with hkept | ⟨mutation, hturned⟩
        · exact hkept.kept nofun
        · exact .moved ht rfl (.captured mutation nofun) hturned
      · exact gated_self h nofun
    · exact gated_self h nofun
  | finalizeNextMutation t lsn =>
    rcases of_ofBegun_ok hrun with ⟨ht, hfinalize⟩ | ⟨ht, rfl⟩
    · obtain ⟨mutation, hmutation, hpos, hturned⟩ := finalizeNextMutation_ok h hfinalize
      exact .moved ht rfl (.finalized rfl hmutation hpos) hturned
    · refine gated_self h fun u lsn' heq => ?_
      cases heq
      exact ht
  | resolveMutationForUndo t index lsn =>
    rcases of_ofBegun_ok hrun with ⟨ht, hresolve⟩ | ⟨-, rfl⟩
    · obtain ⟨mutation, hmutation, hopen, hpos, hturned⟩ := resolveMutationForUndo_ok h hresolve
      exact .moved ht rfl (.resolved nofun hmutation hopen hpos) hturned
    · exact gated_self h nofun

theorem Moved.unlogged {gates gates' : PageId → Nat} (h : Moved tx gates t call tx' gates') (hun : tx.Unlogged) :
    tx'.Unlogged := by
  cases h with
  | captured mutation _ => exact hun.recorded mutation
  | finalized _ hmutation _ => exact hun.finalized (List.getElem?_eq_some_iff.mp hmutation).1
  | @resolved index _ _ _ _ _ => exact hun.resolvedAt index

theorem GateInv.step (h : db.GateInv) (hreturns : db.Returns call) (hmarks : db.MarksCaptured call) :
    (db.gateStep call).GateInv := by
  cases gateStep_cases h hreturns hmarks with
  | kept hgates hbooks _ _ => exact ⟨hgates.inv, hgates.guarded, fun u => (hbooks u).unlogged (h.unlogged u)⟩
  | begun _ hgates hnew _ =>
    refine ⟨hgates.inv, hgates.guarded, fun u => ?_⟩
    rw [hnew, Function.update_apply]
    split
    · exact ⟨rfl, rfl, le_rfl⟩
    · exact h.unlogged u
  | @moved t _ _ _ _ hmoved hturned =>
    -- The account of the transaction at work is in order, the others are as they were.
    refine ⟨hturned.pool.inv, hturned.pool.guarded, fun u => ?_⟩
    by_cases hu : u = t
    · exact hu ▸ hturned.book.unlogged (hmoved.unlogged (h.unlogged t))
    · exact (hturned.others u hu).unlogged (h.unlogged u)

/-! ## The two accounts -/

/-- Closing one mutation takes it off the open ones of its page, if it was one of them. -/
theorem card_erase_openAt {i : Nat} (hmutation : tx.pendingMutations[i]? = some mutation) (p : PageId) :
    ((tx.openAt p).erase i).card + (if p = mutation.pageId ∧ tx.finalizedMutations ≤ i ∧ tx.resolved i = false then 1 else 0)
      = (tx.openAt p).card := by
  have hmem : i ∈ tx.openAt p ↔ p = mutation.pageId ∧ tx.finalizedMutations ≤ i ∧ tx.resolved i = false := by
    rw [mem_openAt, hmutation]
    simp only [Option.some.injEq, exists_eq_left', eq_comm]
  split
  · rename_i hopen
    exact Finset.card_erase_add_one (hmem.mpr hopen)
  · rename_i hclosed
    rw [Finset.erase_eq_of_notMem (mt hmem.mp hclosed), Nat.add_zero]

theorem card_openAt_recorded (h : tx.Unlogged) (mutation : PhysicalMutation) (p : PageId) :
    ((recorded mutation tx).openAt p).card = (tx.openAt p).card + if p = mutation.pageId then 1 else 0 := by
  rw [openAt_recorded h]
  by_cases hp : mutation.pageId = p
  · have hnew : tx.pendingMutations.length ∉ tx.openAt p := by
      intro hmem
      obtain ⟨⟨_, hsome, -⟩, -⟩ := mem_openAt.mp hmem
      rw [List.getElem?_eq_none le_rfl] at hsome
      cases hsome
    rw [if_pos hp, if_pos hp.symm, Finset.card_insert_of_notMem hnew]
  · rw [if_neg hp, if_neg (Ne.symm hp), Nat.add_zero]

theorem released_apply (gates : PageId → Nat) (id p : PageId) (c : Prop) [Decidable c] :
    (if c then Function.update gates id (gates id - 1) else gates) p = if p = id ∧ c then gates p - 1 else gates p := by
  by_cases hc : c
  · by_cases hp : p = id
    · simp [hc, hp]
    · simp [hc, hp]
  · simp [hc]

/-- A call keeps the two accounts together exactly when it does not finalize what has been undone. -/
theorem accounted_step (h : db.GateInv) (haccounted : db.Accounted) (hreturns : db.Returns call)
    (hmarks : db.MarksCaptured call) : (db.gateStep call).Accounted ↔ db.FinalizesOpen call := by
  have hgated := gateStep_cases h hreturns hmarks
  generalize db.gateStep call = db' at hgated ⊢
  cases hgated with
  | kept hgates hbooks hnext hcall =>
    have hopen : ∀ p, db'.openMutations p = db.openMutations p := by
      intro p
      rw [openMutations, openMutations, hnext]
      exact Finset.sum_congr rfl fun u _ => congrArg Finset.card ((hbooks u).openAt p)
    refine iff_of_true (fun p => ?_) fun t lsn heq ht => absurd ht (Nat.not_lt.mpr (hcall t lsn heq))
    rw [hopen, ← haccounted]
    exact congrFun hgates.gates p
  | begun hcall hgates hnew hnext =>
    refine iff_of_true (fun p => ?_) fun t lsn heq => nomatch hcall.symm.trans heq
    have hold : ∀ u ∈ Finset.range db.nextId, ((db'.transactions u).openAt p).card = ((db.transactions u).openAt p).card := by
      intro u hu
      rw [hnew, Function.update_of_ne (Finset.mem_range.mp hu).ne]
    rw [openMutations, hnext, Finset.sum_range_succ, Finset.sum_congr rfl hold, hnew, Function.update_self, openAt_fresh,
      Finset.card_empty, Nat.add_zero]
    exact (congrFun hgates.gates p).trans (haccounted p)
  | @moved t tx gates ht howner hmoved hturned =>
    have hgates : ∀ p, db'.pool.gates p = gates p := congrFun hturned.pool.gates
    have hchange : ∀ p, db'.openMutations p + ((db.transactions t).openAt p).card = db.openMutations p + (tx.openAt p).card := by
      intro p
      rw [← hturned.book.openAt]
      exact openMutations_change ht hturned.nextId hturned.others p
    cases hmoved with
    | captured mutation hcall =>
      refine iff_of_true (fun p => ?_) fun t lsn heq => absurd heq (hcall t lsn)
      have hone := hchange p
      rw [card_openAt_recorded (h.unlogged t)] at hone
      rw [hgates]
      by_cases hp : p = mutation.pageId
      · subst hp
        rw [if_pos rfl] at hone
        rw [Function.update_self, haccounted]
        omega
      · rw [if_neg hp] at hone
        rw [Function.update_of_ne hp, haccounted]
        omega
    | @finalized lsn mutation hcall hmutation hpos =>
      replace hchange : ∀ p, db'.openMutations p + (if p = mutation.pageId ∧
          (db.transactions t).resolved (db.transactions t).finalizedMutations = false then 1 else 0) = db.openMutations p := by
        intro p
        have hone := hchange p
        have hcard := card_erase_openAt hmutation p
        rw [openAt_finalized] at hone
        simp only [le_refl, true_and] at hcard
        omega
      constructor
      · -- Had it been undone before, its page would have lost a gate and no open mutation.
        rintro hnew u lsn' heq -
        obtain ⟨rfl, -⟩ := GateCall.finalizeNextMutation.inj (hcall.symm.trans heq)
        by_contra hundone
        have hgate := hgates mutation.pageId
        have hopen := hchange mutation.pageId
        rw [if_neg (fun hboth => hundone hboth.2), Nat.add_zero] at hopen
        rw [Function.update_self, hnew, haccounted, hopen] at hgate
        rw [haccounted] at hpos
        omega
      · intro hfinalizes p
        have hopen := hchange p
        rw [hfinalizes t lsn hcall ht] at hopen
        rw [hgates]
        by_cases hp : p = mutation.pageId
        · subst hp
          rw [if_pos ⟨rfl, rfl⟩] at hopen
          rw [Function.update_self, haccounted]
          omega
        · rw [if_neg (fun hboth => hp hboth.1)] at hopen
          rw [Function.update_of_ne hp, haccounted]
          omega
    | @resolved index mutation hcall hmutation hopen hpos =>
      refine iff_of_true (fun p => ?_) fun t lsn heq => absurd heq (hcall t lsn)
      have hone := hchange p
      have hcard := card_erase_openAt hmutation p
      rw [openAt_resolvedAt (h.unlogged t) (List.getElem?_eq_some_iff.mp hmutation).1] at hone
      simp only [hopen, and_true] at hcard
      rw [hgates, released_apply, haccounted]
      split at hcard <;> split <;> first | omega | contradiction

/-- What a call may do to the gates: it closes at most mutations of its own transaction, and with each of them goes one gate of
its page; a closed mutation stays closed. -/
structure ReleasesOwn (db : Database) (call : GateCall) : Prop where
  others : ∀ t, t < db.nextId → call.owner ≠ some t →
    ∀ p, ((db.gateStep call).transactions t).openAt p = (db.transactions t).openAt p
  released : ∀ p, (db.gateStep call).pool.gates p < db.pool.gates p → ∃ t i, call.owner = some t ∧
    i ∈ (db.transactions t).openAt p ∧ i ∉ ((db.gateStep call).transactions t).openAt p
  closed : ∀ t, t < db.nextId → ∀ p i, i ∈ (db.transactions t).openAt p →
    i ∉ ((db.gateStep call).transactions t).openAt p → db.pool.gates p = (db.gateStep call).pool.gates p + 1
  stays : ∀ t, t < db.nextId → ∀ p i, i < (db.transactions t).pendingMutations.length →
    i ∉ (db.transactions t).openAt p → i ∉ ((db.gateStep call).transactions t).openAt p

/-- When only one account has changed, a statement about all of them is one about it and about those that are the same. -/
theorem releasesOwn_of_one (howner : call.owner = some t)
    (hothers : ∀ u, u ≠ t → SameBook (db.transactions u) ((db.gateStep call).transactions u))
    (hreleased : ∀ p, (db.gateStep call).pool.gates p < db.pool.gates p →
      ∃ i, i ∈ (db.transactions t).openAt p ∧ i ∉ ((db.gateStep call).transactions t).openAt p)
    (hclosed : ∀ p i, i ∈ (db.transactions t).openAt p → i ∉ ((db.gateStep call).transactions t).openAt p →
      db.pool.gates p = (db.gateStep call).pool.gates p + 1)
    (hstays : ∀ p i, i < (db.transactions t).pendingMutations.length → i ∉ (db.transactions t).openAt p →
      i ∉ ((db.gateStep call).transactions t).openAt p) : db.ReleasesOwn call where
  others u _ hne p := (hothers u fun hu => hne (hu ▸ howner)).openAt p
  released p hlt := ⟨t, (hreleased p hlt).imp fun _ h => ⟨howner, h⟩⟩
  closed u _ p i hmem hnot := by
    by_cases hu : u = t
    · subst hu
      exact hclosed p i hmem hnot
    · rw [(hothers u hu).openAt] at hnot
      exact absurd hmem hnot
  stays u _ p i hi hnot := by
    by_cases hu : u = t
    · subst hu
      exact hstays p i hi hnot
    · rw [(hothers u hu).openAt]
      exact hnot

theorem releasesOwn_of_same (hgates : ∀ p, (db.gateStep call).pool.gates p = db.pool.gates p)
    (hsame : ∀ u, u < db.nextId → ∀ p, ((db.gateStep call).transactions u).openAt p = (db.transactions u).openAt p) :
    db.ReleasesOwn call where
  others u hu _ p := hsame u hu p
  released p hlt := absurd hlt (hgates p).not_lt
  closed u hu p i hmem hnot := absurd hmem (hsame u hu p ▸ hnot)
  stays u hu p i _ hnot := by
    rw [hsame u hu]
    exact hnot

theorem mem_openAt_pageId {i : Nat} (hmutation : tx.pendingMutations[i]? = some mutation) (hmem : i ∈ tx.openAt p) :
    p = mutation.pageId := by
  obtain ⟨⟨_, hsome, hpage⟩, -⟩ := mem_openAt.mp hmem
  rw [hmutation] at hsome
  cases hsome
  exact hpage.symm

/-- A call that closes the mutation at one index. -/
theorem releasesOwn_of_erase {index : Nat} (howner : call.owner = some t)
    (hmutation : (db.transactions t).pendingMutations[index]? = some mutation)
    (hothers : ∀ u, u ≠ t → SameBook (db.transactions u) ((db.gateStep call).transactions u))
    (herase : ∀ p, ((db.gateStep call).transactions t).openAt p = ((db.transactions t).openAt p).erase index)
    (hgates : ∀ p, (db.gateStep call).pool.gates p =
      if index ∈ (db.transactions t).openAt p then db.pool.gates p - 1 else db.pool.gates p)
    (hpos : index ∈ (db.transactions t).openAt mutation.pageId → db.pool.gates mutation.pageId ≠ 0) : db.ReleasesOwn call := by
  refine releasesOwn_of_one howner hothers (fun p hlt => ?_) (fun p i hmem hnot => ?_) fun p i _ hnot => ?_
  · rw [hgates] at hlt
    split at hlt
    · rename_i hmem
      exact ⟨index, hmem, herase p ▸ Finset.notMem_erase index _⟩
    · exact absurd hlt (lt_irrefl _)
  · rw [herase, Finset.mem_erase, not_and_or, not_not] at hnot
    obtain rfl := hnot.resolve_right (not_not.mpr hmem)
    obtain rfl := mem_openAt_pageId hmutation hmem
    rw [hgates, if_pos hmem]
    have := hpos hmem
    omega
  · rw [herase]
    exact mt Finset.mem_of_mem_erase hnot

theorem releasesOwn_step (h : db.GateInv) (hreturns : db.Returns call) (hmarks : db.MarksCaptured call)
    (hfinalizes : db.FinalizesOpen call) : db.ReleasesOwn call := by
  cases gateStep_cases h hreturns hmarks with
  | kept hgates hbooks _ _ => exact releasesOwn_of_same (congrFun hgates.gates) fun u _ p => (hbooks u).openAt p
  | begun hcall hgates hnew _ =>
    refine releasesOwn_of_same (congrFun hgates.gates) fun u hu p => ?_
    rw [hnew, Function.update_of_ne hu.ne]
  | @moved t tx gates ht howner hmoved hturned =>
    have hothers := hturned.others
    have hgates : ∀ p, (db.gateStep call).pool.gates p = gates p := congrFun hturned.pool.gates
    have hbook := hturned.book.openAt
    cases hmoved with
    | captured mutation hcall =>
      have hkept : ∀ p i, i < (db.transactions t).pendingMutations.length →
          (i ∈ ((db.gateStep call).transactions t).openAt p ↔ i ∈ (db.transactions t).openAt p) := by
        intro p i hi
        rw [hbook, openAt_recorded (h.unlogged t)]
        split
        · rw [Finset.mem_insert]
          exact ⟨fun hmem => hmem.resolve_left hi.ne, Or.inr⟩
        · rfl
      have hlt : ∀ p i, i ∈ (db.transactions t).openAt p → i < (db.transactions t).pendingMutations.length := by
        intro p i hmem
        obtain ⟨⟨_, hsome, -⟩, -⟩ := mem_openAt.mp hmem
        exact (List.getElem?_eq_some_iff.mp hsome).1
      refine releasesOwn_of_one howner hothers (fun p hless => ?_) (fun p i hmem hnot => ?_) fun p i hi hnot => ?_
      · rw [hgates, Function.update_apply] at hless
        split at hless
        · rename_i hp
          subst hp
          omega
        · omega
      · exact absurd ((hkept p i (hlt p i hmem)).mpr hmem) hnot
      · exact mt (hkept p i hi).mp hnot
    | @finalized lsn mutation hcall hmutation hpos =>
      have hopen : ∀ p, (db.transactions t).finalizedMutations ∈ (db.transactions t).openAt p ↔ p = mutation.pageId := by
        intro p
        refine ⟨mem_openAt_pageId hmutation, ?_⟩
        rintro rfl
        exact mem_openAt.mpr ⟨⟨mutation, hmutation, rfl⟩, le_rfl, hfinalizes t lsn hcall ht⟩
      refine releasesOwn_of_erase howner hmutation hothers (fun p => ?_) (fun p => ?_) fun _ => hpos
      · rw [hbook, openAt_finalized]
      · have hreleased := released_apply db.pool.gates mutation.pageId p True
        simp only [if_true, and_true] at hreleased
        simp only [hgates, hreleased, hopen]
    | @resolved index mutation hcall hmutation hopen hpos =>
      have hmem : ∀ p, index ∈ (db.transactions t).openAt p ↔
          p = mutation.pageId ∧ (db.transactions t).finalizedMutations ≤ index := by
        intro p
        constructor
        · exact fun hmem => ⟨mem_openAt_pageId hmutation hmem, (mem_openAt.mp hmem).2.1⟩
        · rintro ⟨rfl, hle⟩
          exact mem_openAt.mpr ⟨⟨mutation, hmutation, rfl⟩, hle, hopen⟩
      refine releasesOwn_of_erase howner hmutation hothers (fun p => ?_) (fun p => ?_) fun hin => hpos ((hmem _).mp hin).2
      · rw [hbook, openAt_resolvedAt (h.unlogged t) (List.getElem?_eq_some_iff.mp hmutation).1]
      · rw [hgates, released_apply]
        simp only [hmem]

/-- A pool in order with no pending mutation, and no transaction yet. -/
structure GateStart (db : Database) : Prop where
  inv : db.cache.Inv none
  settled : ∀ f, (db.pool.frames f).pendingMutations = 0
  fresh : ∀ t, db.transactions t = .fresh false

theorem GateStart.gateInv (h : db.GateStart) : db.GateInv where
  inv := h.inv
  guarded f hpending := absurd (h.settled f) hpending
  unlogged t := h.fresh t ▸ ⟨rfl, rfl, le_rfl⟩

theorem GateStart.accounted (h : db.GateStart) : db.Accounted := by
  intro p
  have hopen : db.openMutations p = 0 := by
    refine Finset.sum_eq_zero fun t _ => ?_
    rw [h.fresh, openAt_fresh, Finset.card_empty]
  rw [hopen]
  cases hf : db.pool.pageTable p with
  | none => exact BufferPool.gates_absent hf
  | some f => exact (BufferPool.gates_resident hf).trans (h.settled f)

/-- In a run whose calls all return, and in which a page with a pending mutation is given up as dirty, the gates of every page
are those of its open mutations in every state exactly when no call finalizes a mutation that has been undone. In such a run
every call releases at most a gate of its own transaction, with the mutation it belongs to, and no mutation's twice. -/
theorem accounted_iff_finalizesOpen (hstart : db.GateStart) (run : List GateCall)
    (hreturns : EachStep gateStep Returns db run) (hmarks : EachStep gateStep MarksCaptured db run) :
    (Always gateStep Accounted db run ↔ EachStep gateStep FinalizesOpen db run) ∧
    (EachStep gateStep FinalizesOpen db run → EachStep gateStep ReleasesOwn db run) := by
  have hinv := hstart.gateInv
  have haccounted := hstart.accounted
  clear hstart
  induction run generalizing db with
  | nil => exact ⟨⟨fun _ => trivial, fun _ => haccounted⟩, fun _ => trivial⟩
  | cons call rest ih =>
    have hstep := accounted_step hinv haccounted hreturns.1 hmarks.1
    have hnext := hinv.step hreturns.1 hmarks.1
    have hrest := fun hagain : (db.gateStep call).Accounted => ih hreturns.2 hmarks.2 hnext hagain
    refine ⟨⟨fun hall => ?_, fun heach => ?_⟩, fun heach => ?_⟩
    · have hagain : (db.gateStep call).Accounted := always_iff_forall.mp hall.2 [] List.nil_prefix
      exact ⟨hstep.mp hagain, (hrest hagain).1.mp hall.2⟩
    · exact ⟨haccounted, (hrest (hstep.mpr heach.1)).1.mpr heach.2⟩
    · exact ⟨releasesOwn_step hinv hreturns.1 hmarks.1 heach.1, (hrest (hstep.mpr heach.1)).2 heach.2⟩

/-- A pool of one frame over a file with page 0. -/
def unloggedStart : Database where
  pages := (PageManager.allocatePage.run .empty).2
  pool := .create 1
  handed := []
  log := .empty
  locking := .initial
  transactions := fun _ => .fresh false
  nextId := 1

theorem gateStart_unloggedStart : unloggedStart.GateStart where
  inv := by
    obtain ⟨outcome, pm, hrun, hgrown, -⟩ := PageManager.allocatePage_cases PageManager.wellFormed_empty
    refine ⟨?_, BufferPool.inv_create 1, nofun⟩
    change (PageManager.allocatePage.run .empty).2.WellFormed
    rw [hrun]
    exact hgrown.wellFormed
  settled _ := rfl
  fresh _ := rfl

/-- Two transactions capture a mutation of page 0 each. -/
def twoCaptures : List GateCall :=
  [.begin, .begin, .fetchPage (.ofIndex 0), .watch 1 (.ofIndex 0), .write (.ofIndex 0) (.filled 1), .finish 1 (.ofIndex 0),
    .watch 2 (.ofIndex 0), .write (.ofIndex 0) (.filled 2), .finish 2 (.ofIndex 0), .unpinPage (.ofIndex 0) true]

/-- `twoCaptures`; the second transaction's mutation is undone and the first one's finalized. -/
def ownReleases : List GateCall := twoCaptures ++ [.resolveMutationForUndo 2 0 0, .finalizeNextMutation 1 1]

/-- `twoCaptures`; the first transaction undoes its mutation and finalizes it afterwards. -/
def releasesTwice : List GateCall := twoCaptures ++ [.resolveMutationForUndo 1 0 0, .finalizeNextMutation 1 1]

theorem ownReleases_accounted : Always gateStep Accounted unloggedStart ownReleases ∧
    EachStep gateStep ReleasesOwn unloggedStart ownReleases := by
  obtain ⟨haccounted, hown⟩ := accounted_iff_finalizesOpen gateStart_unloggedStart ownReleases (by decide +kernel)
    (by decide +kernel)
  have hopen : EachStep gateStep FinalizesOpen unloggedStart ownReleases := by decide +kernel
  exact ⟨haccounted.mpr hopen, hown hopen⟩

/-- All calls return. In the end page 0 has no gate, and the mutation the second transaction has captured on it is open. -/
theorem releasesTwice_releases_another : EachStep gateStep Returns unloggedStart releasesTwice ∧
    EachStep gateStep MarksCaptured unloggedStart releasesTwice ∧
    (exec gateStep unloggedStart releasesTwice).pool.pendingMutationCount (.ofIndex 0) = some 0 ∧
    ((exec gateStep unloggedStart releasesTwice).transactions 2).openAt (.ofIndex 0) = {0} ∧
    ¬ Always gateStep Accounted unloggedStart releasesTwice := by
  have hfacts : (exec gateStep unloggedStart releasesTwice).pool.pendingMutationCount (.ofIndex 0) = some 0 ∧
      ((exec gateStep unloggedStart releasesTwice).transactions 2).openAt (.ofIndex 0) = {0} ∧
      (exec gateStep unloggedStart releasesTwice).openMutations (.ofIndex 0) = 1 := by
    decide +kernel
  refine ⟨by decide +kernel, by decide +kernel, hfacts.1, hfacts.2.1, fun hall => ?_⟩
  have hlast := hall.last (.ofIndex 0)
  rw [BufferPool.gates, hfacts.1, hfacts.2.2] at hlast
  cases hlast

end Database

end Ddb.Concurrency
