import Mathlib.Data.List.Sort
import Ddb.Recovery.Redo

/-!
# UNDO

UNDO takes every page on which a transaction without a COMMIT record has a mutation and builds its image anew: to the first
before-image in the log, the bytes that the committed mutations changed are changed again, in LSN order. Then the allocations
of the other transactions are released, the latest first. Its counters are left out.

`recover` is the sequence of analysis, REDO and UNDO that a restart goes through, and `recovered` what it makes of a page.
-/

namespace Ddb.Recovery

open Ddb.Lib Ddb.Storage Ddb.Buffer Std

namespace UndoEngine

/-- The value, or the exception. -/
def lift {α : Type} : Except Err α → ReplayOp α
  | .ok a => pure a
  | .error e => throw e

/-- `at(index)`. -/
def entryAt {α : Type} (entries : List α) (index : Nat) : Except Err α :=
  match entries[index]? with
  | some entry => .ok entry
  | none => .error .outOfBounds

/-- The transactions that are not committed, by their ids. -/
def losers (state : RecoveryState) : List TransactionAnalysis :=
  (state.transactions.toList.map Prod.snd).filter fun transaction => transaction.status ≠ .committed

/-- `histories`: the mutations of every page. -/
def histories (state : RecoveryState) : TreeMap Nat (List MutationRecord) :=
  state.mutations.foldl (fun histories entry =>
    histories.alter entry.mutation.pageId.index fun history => some (history.getD [] ++ [entry])) ∅

/-- `if (before[i] != after[i]) image[i] = after[i];` for every byte. -/
def applyDelta (before after image : Payload) : Payload where
  bytes := List.zipWith (fun (change : UInt8 × UInt8) byte => if change.1 ≠ change.2 then change.2 else byte)
    (before.bytes.zip after.bytes) image.bytes
  size_eq := by simp [before.size_eq, after.size_eq, image.size_eq]

/-- The loop over the history of a page: the image and the LSN of the last mutation that counts. -/
def survive (state : RecoveryState) (survivor : Payload × Nat) (entry : MutationRecord) : Except Err (Payload × Nat) :=
  match state.transaction entry.transactionId with
  | none => .error (.logic "mutation without transaction")
  | some transaction =>
    if transaction.status ≠ .committed then .ok survivor
    else .ok (applyDelta entry.mutation.beforeImage entry.mutation.afterImage survivor.1, entry.lsn)

def undoPage (state : RecoveryState) (pageValue : Nat) : ReplayOp Unit :=
  match (histories state)[pageValue]? with
  | none => throw .outOfBounds
  | some history =>
    match history.insertionSort fun a b => a.lsn ≤ b.lsn with
    | [] => throw .outOfBounds
    | first :: rest => do
      let survivor ← lift ((first :: rest).foldlM (survive state) (first.mutation.beforeImage, 0))
      let _ ← ReplayContext.reconstructPage (PageId.ofIndex pageValue) survivor.1 survivor.2

def undoAllocation (allocation : AllocationRecord) : ReplayOp Unit := do
  let _ ← ReplayContext.undoPageAllocate allocation.pageId

def run (state : RecoveryState) : ReplayOp Unit := do
  let mutations ← lift (((losers state).flatMap TransactionAnalysis.mutationIndexes).mapM (entryAt state.mutations))
  let allocations ← lift (((losers state).flatMap TransactionAnalysis.allocationIndexes).mapM (entryAt state.allocations))
  let affected := TreeSet.ofList (mutations.map fun entry => entry.mutation.pageId.index)
  affected.toList.forM (undoPage state)
  (allocations.insertionSort fun a b => a.lsn ≥ b.lsn).forM undoAllocation

end UndoEngine

/-- A complete recovery. -/
def recover (records : List WalRecord) : ReplayOp Unit := do
  let state ← UndoEngine.lift (RecoveryAnalyzer.analyze records)
  RedoEngine.run state
  UndoEngine.run state

/-! ## The pages UNDO rebuilds -/

variable {records : List WalRecord} {state : RecoveryState} {p : PageId} {allocations : List AllocationRecord} {r : Replay}

/-- The image UNDO builds, and its PageLSN. -/
def survivor (records : List WalRecord) (p : PageId) : Payload × Nat :=
  (winnersOn records p).foldl
    (fun survivor entry => (UndoEngine.applyDelta entry.mutation.beforeImage entry.mutation.afterImage survivor.1, entry.lsn))
    (((historyOn records p).head?.map fun entry => entry.mutation.beforeImage).getD .zero, 0)

theorem mentions_of_mem_mutationsIn {entry : MutationRecord} (h : entry ∈ mutationsIn records) :
    mentions records entry.transactionId = true := by
  obtain ⟨record, hmem, hentry⟩ := mem_mutationsIn.mp h
  exact List.any_eq_true.mpr ⟨record, hmem, decide_eq_true (mutationOf_eq_some hentry).2.2.2.symm⟩

theorem mentions_of_mem_allocationsIn {entry : AllocationRecord} (h : entry ∈ allocationsIn records) :
    mentions records entry.transactionId = true := by
  obtain ⟨record, hmem, hentry⟩ := mem_allocationsIn.mp h
  exact List.any_eq_true.mpr ⟨record, hmem, decide_eq_true (allocationOf_eq_some hentry).2.2.2.symm⟩

/-- The losers are the transactions of the log without a COMMIT record. -/
theorem mem_losers (h : Analyzed records state) {transaction : TransactionAnalysis} :
    transaction ∈ UndoEngine.losers state ↔ ∃ id, mentions records id = true ∧ won records id = false ∧
      transaction = RecoveryAnalyzer.classify (summary records id) := by
  rw [UndoEngine.losers, List.mem_filter, List.mem_map]
  constructor
  · rintro ⟨⟨⟨id, other⟩, hmem, rfl⟩, hstatus⟩
    have hget : state.transaction id = some other := TreeMap.mem_toList_iff_getElem?_eq_some.mp hmem
    by_cases hmentions : mentions records id = true
    · obtain ⟨transaction, htransaction, hiff⟩ := h.status hmentions
      have hother := h.transaction id
      rw [if_pos hmentions, hget] at hother
      rw [hget] at htransaction
      obtain rfl := Option.some.inj htransaction
      refine ⟨id, hmentions, ?_, Option.some.inj hother⟩
      rw [← Bool.not_eq_true, ← hiff]
      exact of_decide_eq_true hstatus
    · rw [h.transaction id, if_neg hmentions] at hget
      cases hget
  · rintro ⟨id, hmentions, hlost, rfl⟩
    obtain ⟨transaction, htransaction, hiff⟩ := h.status hmentions
    have hother := h.transaction id
    rw [if_pos hmentions, htransaction] at hother
    obtain rfl := Option.some.inj hother
    refine ⟨⟨(id, _), TreeMap.mem_toList_iff_getElem?_eq_some.mpr htransaction, rfl⟩, decide_eq_true ?_⟩
    rw [Ne, hiff, hlost]
    exact nofun

/-- Looking up positions that are all there. -/
theorem mapM_entryAt {α : Type} {entries : List α} {indexes : List Nat} (h : ∀ i ∈ indexes, i < entries.length) :
    ∃ found, indexes.mapM (UndoEngine.entryAt entries) = .ok found ∧
      ∀ entry, entry ∈ found ↔ ∃ i ∈ indexes, entries[i]? = some entry := by
  induction indexes with
  | nil => exact ⟨[], rfl, by simp⟩
  | cons i rest ih =>
    obtain ⟨hi, hrest⟩ := List.forall_mem_cons.mp h
    obtain ⟨found, hrun, hmem⟩ := ih hrest
    refine ⟨entries[i] :: found, ?_, fun entry => ?_⟩
    · rw [List.mapM_cons, hrun, UndoEngine.entryAt, List.getElem?_eq_getElem hi]
      rfl
    · rw [List.mem_cons, hmem, List.exists_mem_cons_iff, List.getElem?_eq_getElem hi, Option.some.injEq, eq_comm]

/-- What UNDO gathers by the losers' positions is what the losers have in the log. -/
theorem mapM_losers {α : Type} (h : Analyzed records state) {entries : List α} {owner : α → Nat}
    {indexes : TransactionAnalysis → List Nat}
    (hindexes : ∀ id, indexes (RecoveryAnalyzer.classify (summary records id)) = entries.findIdxs fun entry => owner entry = id)
    (hmentions : ∀ entry ∈ entries, mentions records (owner entry) = true) :
    ∃ found, ((UndoEngine.losers state).flatMap indexes).mapM (UndoEngine.entryAt entries) = .ok found ∧
      ∀ entry, entry ∈ found ↔ entry ∈ entries ∧ won records (owner entry) = false := by
  have hindex : ∀ i, i ∈ (UndoEngine.losers state).flatMap indexes ↔
      ∃ entry, entries[i]? = some entry ∧ won records (owner entry) = false := by
    intro i
    rw [List.mem_flatMap]
    constructor
    · rintro ⟨transaction, hloser, hi⟩
      obtain ⟨id, -, hlost, rfl⟩ := (mem_losers h).mp hloser
      rw [hindexes] at hi
      obtain ⟨hlt, hid⟩ := List.mem_findIdxs_iff_exists_getElem_pos.mp hi
      exact ⟨_, List.getElem?_eq_getElem hlt, by rw [of_decide_eq_true hid]; exact hlost⟩
    · rintro ⟨entry, hentry, hlost⟩
      obtain ⟨hlt, rfl⟩ := List.getElem?_eq_some_iff.mp hentry
      refine ⟨_, (mem_losers h).mpr ⟨_, hmentions _ (List.getElem_mem hlt), hlost, rfl⟩, ?_⟩
      rw [hindexes]
      exact List.mem_findIdxs_iff_exists_getElem_pos.mpr ⟨hlt, decide_eq_true rfl⟩
  have hbound : ∀ i ∈ (UndoEngine.losers state).flatMap indexes, i < entries.length := by
    intro i hi
    obtain ⟨entry, hentry, -⟩ := (hindex i).mp hi
    exact (List.getElem?_eq_some_iff.mp hentry).1
  obtain ⟨found, hrun, hmem⟩ := mapM_entryAt hbound
  refine ⟨found, hrun, fun entry => ?_⟩
  rw [hmem]
  constructor
  · rintro ⟨i, hi, hentry⟩
    obtain ⟨other, hother, hlost⟩ := (hindex i).mp hi
    rw [hentry] at hother
    obtain rfl := Option.some.inj hother
    exact ⟨List.mem_of_getElem? hentry, hlost⟩
  · rintro ⟨hentry, hlost⟩
    obtain ⟨i, hi⟩ := List.mem_iff_getElem?.mp hentry
    exact ⟨i, (hindex i).mpr ⟨entry, hi, hlost⟩, hi⟩

theorem loser_mutations (h : Analyzed records state) : ∃ found,
    ((UndoEngine.losers state).flatMap TransactionAnalysis.mutationIndexes).mapM (UndoEngine.entryAt state.mutations) =
      .ok found ∧
    ∀ entry, entry ∈ found ↔ entry ∈ mutationsIn records ∧ won records entry.transactionId = false := by
  rw [h.mutations]
  exact mapM_losers h (fun _ => rfl) fun _ => mentions_of_mem_mutationsIn

theorem loser_allocations (h : Analyzed records state) : ∃ found,
    ((UndoEngine.losers state).flatMap TransactionAnalysis.allocationIndexes).mapM (UndoEngine.entryAt state.allocations) =
      .ok found ∧
    ∀ entry, entry ∈ found ↔ entry ∈ allocationsIn records ∧ won records entry.transactionId = false := by
  rw [h.allocations]
  exact mapM_losers h (fun _ => rfl) fun _ => mentions_of_mem_allocationsIn

/-- The history of a page, as the map holds it. -/
theorem getElem?_histories (mutations : List MutationRecord) (value : Nat) (histories : TreeMap Nat (List MutationRecord)) :
    (mutations.foldl (fun histories entry =>
      histories.alter entry.mutation.pageId.index fun history => some (history.getD [] ++ [entry])) histories)[value]? =
    if mutations.any (fun entry => entry.mutation.pageId.index = value) then
      some (histories[value]?.getD [] ++ mutations.filter fun entry => entry.mutation.pageId.index = value)
    else histories[value]? := by
  induction mutations generalizing histories with
  | nil => rfl
  | cons entry rest ih =>
    rw [List.foldl_cons, ih, TreeMap.getElem?_alter]
    by_cases heq : entry.mutation.pageId.index = value
    · subst heq
      by_cases hrest : (rest.any fun other => other.mutation.pageId.index = entry.mutation.pageId.index) = true
      · simp [hrest]
      · have hnone : rest.filter (fun other => decide (other.mutation.pageId.index = entry.mutation.pageId.index)) = [] := by
          rw [List.filter_eq_nil_iff]
          exact fun other hother hsame => hrest (List.any_eq_true.mpr ⟨other, hother, hsame⟩)
        simp [hrest, hnone]
    · simp [heq]

theorem index_eq_iff {a b : PageId} : a.index = b.index ↔ a = b := ⟨PageId.ext_index, congrArg PageId.index⟩

theorem histories_on (h : Analyzed records state) (hne : historyOn records p ≠ []) :
    (UndoEngine.histories state)[p.index]? = some (historyOn records p) := by
  have hfilter : (mutationsIn records).filter (fun entry => decide (entry.mutation.pageId.index = p.index)) =
      historyOn records p := List.filter_congr fun entry _ => by simp only [index_eq_iff]
  have hany : (mutationsIn records).any (fun entry => decide (entry.mutation.pageId.index = p.index)) = true := by
    rw [← hfilter, ne_eq, List.filter_eq_nil_iff] at hne
    simpa [List.any_eq_true] using hne
  rw [UndoEngine.histories, getElem?_histories, h.mutations, if_pos hany, hfilter]
  simp

theorem historyOn_sorted (hascending : records.Pairwise fun a b => a.lsn < b.lsn) (p : PageId) :
    (historyOn records p).Pairwise fun a b => a.lsn < b.lsn := by
  apply List.Pairwise.filter
  rw [mutationsIn, List.pairwise_filterMap]
  refine hascending.imp fun {a b} hlt first hfirst second hsecond => ?_
  rw [(mutationOf_eq_some hfirst).2.2.1, (mutationOf_eq_some hsecond).2.2.1]
  exact hlt

theorem foldlM_survive (h : Analyzed records state) {entries : List MutationRecord}
    (hentries : ∀ entry ∈ entries, entry ∈ mutationsIn records) (start : Payload × Nat) :
    entries.foldlM (UndoEngine.survive state) start = .ok ((entries.filter fun entry => won records entry.transactionId).foldl
      (fun survivor entry => (UndoEngine.applyDelta entry.mutation.beforeImage entry.mutation.afterImage survivor.1, entry.lsn))
      start) := by
  induction entries generalizing start with
  | nil => rfl
  | cons entry rest ih =>
    obtain ⟨hentry, hrest⟩ := List.forall_mem_cons.mp hentries
    obtain ⟨transaction, htransaction, hstatus⟩ := h.status (mentions_of_mem_mutationsIn hentry)
    rw [List.foldlM_cons, UndoEngine.survive, htransaction]
    dsimp only
    by_cases hwon : won records entry.transactionId = true
    · rw [if_neg (not_not.mpr (hstatus.mpr hwon)), List.filter_cons, if_pos hwon, List.foldl_cons]
      exact ih hrest _
    · rw [if_pos fun hcommitted => hwon (hstatus.mp hcommitted), List.filter_cons, if_neg hwon]
      exact ih hrest start

/-- A page of the affected ones, as UNDO rebuilds it in the store. -/
def rebuildOn (records : List WalRecord) (store : Store) (value : Nat) : Store :=
  store.rebuild (.ofIndex value) (survivor records (.ofIndex value)).1 (survivor records (.ofIndex value)).2

theorem survivor_durable {walDurability : Option Nat}
    (h : ∀ record ∈ records, Cache.LsnDurable walDurability record.lsn) (p : PageId) :
    Cache.LsnDurable walDurability (survivor records p).2 := by
  rw [survivor]
  rcases List.eq_nil_or_concat (winnersOn records p) with hnil | ⟨entries, last, hlast⟩
  · rw [hnil]
    exact Or.inl rfl
  · rw [hlast, List.concat_eq_append, List.foldl_append]
    have hmem : last ∈ winnersOn records p := by rw [hlast]; simp
    obtain ⟨record, hrecord, hentry⟩ := mem_mutationsIn.mp (List.mem_filter.mp (List.mem_filter.mp hmem).1).1
    change Cache.LsnDurable walDurability last.lsn
    rw [(mutationOf_eq_some hentry).2.2.1]
    exact h record hrecord

/-- What UNDO does with the history of a page: it reconstructs the page with the survivor. -/
theorem undoPage_eq (hstate : Analyzed records state) (hascending : records.Pairwise fun a b => a.lsn < b.lsn)
    (hne : historyOn records p ≠ []) : UndoEngine.undoPage state p.index = (do
      let _ ← ReplayContext.reconstructPage p (survivor records p).1 (survivor records p).2) := by
  have hsorted : (historyOn records p).insertionSort (fun a b => a.lsn ≤ b.lsn) = historyOn records p :=
    ((historyOn_sorted hascending p).imp Nat.le_of_lt).insertionSort_eq
  have hpart : ∀ entry ∈ historyOn records p, entry ∈ mutationsIn records := fun entry hentry =>
    (List.mem_filter.mp hentry).1
  have hsurvivor := foldlM_survive hstate hpart
    (((historyOn records p).head?.map fun entry => entry.mutation.beforeImage).getD .zero, 0)
  rw [UndoEngine.undoPage, histories_on hstate hne]
  dsimp only
  rw [hsorted]
  cases hhistory : historyOn records p with
  | nil => exact absurd hhistory hne
  | cons first rest =>
    rw [hhistory] at hsurvivor
    simp only [List.head?_cons, Option.map_some, Option.getD_some] at hsurvivor
    dsimp only
    rw [hsurvivor, PageId.ofIndex_index, survivor, winnersOn, hhistory]
    rfl

theorem undoPage_run (hstate : Analyzed records state) (hascending : records.Pairwise fun a b => a.lsn < b.lsn)
    (hsolo : r.cache.Solo) (hdurable : r.Covers records) (halloc : r.store.allocated p = true) (hne : historyOn records p ≠ []) :
    ∃ r', (UndoEngine.undoPage state p.index).run r = (.ok (), r') ∧
      Replay.Became r r' (fun store => rebuildOn records store p.index) := by
  have halloc' : r.cache.pages.isPageAllocated p = true := halloc
  obtain ⟨applied, r', hrun, hbecame⟩ := Replay.reconstructPage_run hsolo (survivor records p).1 halloc'
    (survivor_durable hdurable p)
  refine ⟨r', ?_, ?_⟩
  · rw [undoPage_eq hstate hascending hne, Op.bind_ok hrun]
    rfl
  · simpa only [rebuildOn, PageId.ofIndex_index] using hbecame

theorem rebuild_allocated (store : Store) (payload : Payload) (lsn : Nat) :
    (store.rebuild p payload lsn).allocated = store.allocated := by
  rw [Store.rebuild]
  split <;> rfl

theorem undoPages_run {values : List Nat} (hstate : Analyzed records state)
    (hascending : records.Pairwise fun a b => a.lsn < b.lsn) (hsolo : r.cache.Solo) (hdurable : r.Covers records)
    (hvalues : ∀ value ∈ values, ∃ p : PageId, p.index = value ∧ r.store.allocated p = true ∧ historyOn records p ≠ []) :
    ∃ r', (values.forM (UndoEngine.undoPage state)).run r = (.ok (), r') ∧
      Replay.Became r r' (fun store => values.foldl (rebuildOn records) store) := by
  induction values generalizing r with
  | nil => exact ⟨r, rfl, .refl hsolo⟩
  | cons value rest ih =>
    obtain ⟨⟨p, rfl, halloc, hne⟩, hrest⟩ := List.forall_mem_cons.mp hvalues
    obtain ⟨r₁, hrun, hbecame⟩ := undoPage_run hstate hascending hsolo hdurable halloc hne
    have hbits : r₁.store.allocated = r.store.allocated := by
      rw [hbecame.store]
      exact rebuild_allocated _ _ _
    obtain ⟨r', hlast, hbecame'⟩ := ih hbecame.solo (hdurable.of_wal hbecame.wal) (by rw [hbits]; exact hrest)
    refine ⟨r', ?_, hbecame.trans hbecame'⟩
    rw [Op.forM_cons_ok hrun, hlast]

/-- Each page of the list is rebuilt, and no other. -/
theorem foldl_rebuildOn_image {values : List Nat} (hnodup : values.Nodup) (hvalues : ∀ value ∈ values, value < 2 ^ 64)
    (store : Store) (hfirst : ∀ q ∈ store.reconstructed, q.index ∉ values) (q : PageId) :
    (values.foldl (rebuildOn records) store).image q =
      if q.index ∈ values then some ⟨q, (survivor records q).2, (survivor records q).1⟩ else store.image q := by
  induction values generalizing store with
  | nil => rfl
  | cons value rest ih =>
    obtain ⟨hvalue, hrest⟩ := List.forall_mem_cons.mp hvalues
    obtain ⟨hnot, hnodup'⟩ := List.nodup_cons.mp hnodup
    have hindex : (PageId.ofIndex value).index = value := PageId.index_ofIndex hvalue
    have hfresh : PageId.ofIndex value ∉ store.reconstructed := by
      intro hmem
      exact hfirst _ hmem (by rw [hindex]; exact List.mem_cons_self)
    have hrebuild : rebuildOn records store value = { store with
        image := fun q => if q = .ofIndex value then some ⟨.ofIndex value, (survivor records (.ofIndex value)).2,
          (survivor records (.ofIndex value)).1⟩ else store.image q
        reconstructed := .ofIndex value :: store.reconstructed } := if_neg hfresh
    have hlater : ∀ q ∈ (rebuildOn records store value).reconstructed, q.index ∉ rest := by
      rw [hrebuild]
      intro q hq
      rcases List.mem_cons.mp hq with rfl | hq
      · rw [hindex]
        exact hnot
      · exact fun hmem => hfirst q hq (List.mem_cons_of_mem _ hmem)
    rw [List.foldl_cons, ih hnodup' hrest _ hlater]
    by_cases hmem : q.index ∈ rest
    · rw [if_pos hmem, if_pos (List.mem_cons_of_mem _ hmem)]
    · rw [if_neg hmem, hrebuild]
      by_cases hself : q = .ofIndex value
      · subst hself
        rw [if_pos (by rw [hindex]; exact List.mem_cons_self)]
        exact if_pos rfl
      · have hout : q.index ∉ value :: rest := by
          rw [List.mem_cons]
          rintro (heq | hrest')
          · exact hself (PageId.ext_index (heq.trans hindex.symm))
          · exact hmem hrest'
        rw [if_neg hout]
        exact if_neg hself

theorem foldl_rebuildOn_allocated {values : List Nat} (store : Store) :
    (values.foldl (rebuildOn records) store).allocated = store.allocated := by
  induction values generalizing store with
  | nil => rfl
  | cons value rest ih => rw [List.foldl_cons, ih, rebuildOn, rebuild_allocated]

theorem releaseAll_run (hsolo : r.cache.Solo) (hvalid : ∀ entry ∈ allocations, entry.pageId.isValid = true) :
    ∃ r', (allocations.forM UndoEngine.undoAllocation).run r = (.ok (), r') ∧
      Replay.Became r r' (fun store => allocations.foldl (fun store entry => store.mark entry.pageId false) store) := by
  induction allocations generalizing r with
  | nil => exact ⟨r, rfl, .refl hsolo⟩
  | cons entry rest ih =>
    obtain ⟨hentry, hrest⟩ := List.forall_mem_cons.mp hvalid
    obtain ⟨released, r₁, hrun, hbecame⟩ := Replay.undoPageAllocate_run hsolo hentry
    obtain ⟨r', hlast, hbecame'⟩ := ih hbecame.solo hrest
    refine ⟨r', ?_, hbecame.trans hbecame'⟩
    have hbody : (UndoEngine.undoAllocation entry).run r = (.ok (), r₁) := by
      rw [UndoEngine.undoAllocation, Op.bind_ok hrun]
      rfl
    rw [Op.forM_cons_ok hbody, hlast]

theorem foldl_mark_allocated (store : Store) (p : PageId) :
    (allocations.foldl (fun store entry => store.mark entry.pageId false) store).allocated p =
      (store.allocated p && !allocations.any fun entry => entry.pageId = p) := by
  induction allocations generalizing store with
  | nil => simp
  | cons entry rest ih =>
    rw [List.foldl_cons, ih, List.any_cons]
    change ((if p = entry.pageId then false else store.allocated p) && _) = _
    by_cases heq : p = entry.pageId
    · simp [heq]
    · simp [heq, Ne.symm heq]

theorem foldl_mark_image (store : Store) :
    (allocations.foldl (fun store entry => store.mark entry.pageId false) store).image = store.image := by
  induction allocations generalizing store with
  | nil => rfl
  | cons entry rest ih => rw [List.foldl_cons, ih, Store.mark]

/-! ## A complete recovery -/

/-- A log that can be recovered from, and a pool on which it can be done. -/
structure Recoverable (records : List WalRecord) (r : Replay) : Prop where
  decodable : ∀ record ∈ records, Decodable record
  ends : ∀ id, ¬ (has .commit records id = true ∧ has .abort records id = true)
  ascending : records.Pairwise fun a b => a.lsn < b.lsn
  positive : ∀ record ∈ records, 0 < record.lsn
  repeatable : Repeatable records r
  fresh : r.reconstructedPages = []

/-- What a recovery makes of a page. -/
def recovered (records : List WalRecord) (p : PageId) (image : Option Page) : Option Page :=
  if affected records p then some ⟨p, (survivor records p).2, (survivor records p).1⟩
  else image.map fun page => (winnersOn records p).foldl redoPage page

theorem winnersAmong_self : winnersAmong records records p = winnersOn records p := by
  rw [winnersAmong, winnersOn, historyOn, List.filter_filter]
  refine List.filter_congr fun entry _ => ?_
  rw [Bool.decide_and, Bool.and_comm, Bool.decide_eq_true]

/-- The pages UNDO goes through are the affected ones. -/
theorem mem_affected_values {mutations : List MutationRecord}
    (h : ∀ entry, entry ∈ mutations ↔ entry ∈ mutationsIn records ∧ won records entry.transactionId = false) (p : PageId) :
    p.index ∈ (TreeSet.ofList (mutations.map fun entry => entry.mutation.pageId.index)).toList ↔ affected records p = true := by
  rw [TreeSet.mem_toList, TreeSet.mem_ofList, List.contains_iff_mem, List.mem_map, affected, List.any_eq_true]
  constructor
  · rintro ⟨entry, hentry, hindex⟩
    obtain ⟨hin, hlost⟩ := (h entry).mp hentry
    exact ⟨entry, List.mem_filter.mpr ⟨hin, decide_eq_true (PageId.ext_index hindex)⟩, by rw [hlost]; rfl⟩
  · rintro ⟨entry, hentry, hlost⟩
    obtain ⟨hin, hpage⟩ := List.mem_filter.mp hentry
    refine ⟨entry, (h entry).mpr ⟨hin, ?_⟩, congrArg PageId.index (of_decide_eq_true hpage)⟩
    simpa using hlost

/-- The pages and the allocations UNDO goes through. -/
structure Visits (records : List WalRecord) (state : RecoveryState) (values : List Nat) (released : List AllocationRecord) :
    Prop where
  run_eq : UndoEngine.run state = (do
    values.forM (UndoEngine.undoPage state)
    released.forM UndoEngine.undoAllocation)
  nodup : values.Nodup
  page : ∀ value ∈ values, ∃ p : PageId, p.index = value ∧ affected records p = true
  mem_values : ∀ p : PageId, p.index ∈ values ↔ affected records p = true
  mem_released : ∀ entry, entry ∈ released ↔ entry ∈ allocationsIn records ∧ won records entry.transactionId = false

theorem exists_visits (hstate : Analyzed records state) : ∃ values released, Visits records state values released := by
  obtain ⟨mutations, hmutations, hmem⟩ := loser_mutations hstate
  obtain ⟨allocations, hallocations, hmem'⟩ := loser_allocations hstate
  have haffected := mem_affected_values hmem
  refine ⟨_, allocations.insertionSort fun a b => a.lsn ≥ b.lsn, ?_, ?_, fun value hin => ?_, haffected, fun entry =>
    (List.mem_insertionSort _).trans (hmem' entry)⟩
  · rw [UndoEngine.run, hmutations, hallocations]
    rfl
  · refine TreeSet.ordered_toList.imp fun {a b} hlt heq => ?_
    rw [heq, compare_self] at hlt
    cases hlt
  · have hvalue := hin
    rw [TreeSet.mem_toList, TreeSet.mem_ofList, List.contains_iff_mem, List.mem_map] at hvalue
    obtain ⟨entry, -, rfl⟩ := hvalue
    exact ⟨entry.mutation.pageId, rfl, (haffected _).mp hin⟩

theorem historyOn_ne_nil_of_affected (h : affected records p = true) : historyOn records p ≠ [] := by
  obtain ⟨entry, hentry, -⟩ := List.any_eq_true.mp h
  exact List.ne_nil_of_mem hentry

variable {values : List Nat} {released : List AllocationRecord}

theorem Visits.valid (h : Visits records state values released) : ∀ entry ∈ released, entry.pageId.isValid = true := by
  intro entry hentry
  obtain ⟨record, -, hof⟩ := mem_allocationsIn.mp ((h.mem_released entry).mp hentry).1
  exact decodePageAllocate_valid (allocationOf_eq_some hof).2.1

/-- The store after UNDO. -/
def undone (records : List WalRecord) (values : List Nat) (released : List AllocationRecord) (store : Store) : Store :=
  released.foldl (fun store entry => store.mark entry.pageId false) (values.foldl (rebuildOn records) store)

theorem Visits.image (h : Visits records state values released) {store : Store} (hfresh : store.reconstructed = [])
    (p : PageId) : (undone records values released store).image p =
      if affected records p then some ⟨p, (survivor records p).2, (survivor records p).1⟩ else store.image p := by
  have hbound : ∀ value ∈ values, value < 2 ^ 64 := by
    intro value hin
    obtain ⟨q, rfl, -⟩ := h.page value hin
    exact q.value.toNat_lt
  rw [undone, foldl_mark_image, foldl_rebuildOn_image h.nodup hbound _ (by rw [hfresh]; simp)]
  simp only [h.mem_values]

theorem Visits.allocated (h : Visits records state values released) (store : Store) (p : PageId) :
    (undone records values released store).allocated p = (store.allocated p && !allocates records false p) := by
  rw [undone, foldl_mark_allocated, foldl_rebuildOn_allocated]
  congr 2
  rw [Bool.eq_iff_iff, allocates, List.any_eq_true, List.any_eq_true]
  constructor
  · rintro ⟨entry, hentry, hpage⟩
    obtain ⟨hlogged, hlost⟩ := (h.mem_released entry).mp hentry
    exact ⟨entry, hlogged, decide_eq_true ⟨of_decide_eq_true hpage, hlost⟩⟩
  · rintro ⟨entry, hlogged, hboth⟩
    obtain ⟨hpage, hlost⟩ := of_decide_eq_true hboth
    exact ⟨entry, (h.mem_released entry).mpr ⟨hlogged, hlost⟩, decide_eq_true hpage⟩

theorem undoEngine_run (hstate : Analyzed records state) (hascending : records.Pairwise fun a b => a.lsn < b.lsn)
    (hsolo : r.cache.Solo) (hdurable : r.Covers records)
    (hallocated : ∀ entry ∈ mutationsIn records, won records entry.transactionId = false →
      r.store.allocated entry.mutation.pageId = true) (hfresh : r.store.reconstructed = []) :
    ∃ r' f, (UndoEngine.run state).run r = (.ok (), r') ∧ Replay.Became r r' f ∧
      (∀ p, (f r.store).image p = if affected records p then some ⟨p, (survivor records p).2, (survivor records p).1⟩
        else r.store.image p) ∧ ∀ p, (f r.store).allocated p = (r.store.allocated p && !allocates records false p) := by
  obtain ⟨values, released, hvisits⟩ := exists_visits hstate
  have hpages : ∀ value ∈ values, ∃ p : PageId, p.index = value ∧ r.store.allocated p = true ∧ historyOn records p ≠ [] := by
    intro value hin
    obtain ⟨p, rfl, haffected⟩ := hvisits.page value hin
    obtain ⟨entry, hentry, hlost⟩ := List.any_eq_true.mp haffected
    obtain ⟨hlogged, hpage⟩ := List.mem_filter.mp hentry
    refine ⟨p, rfl, ?_, historyOn_ne_nil_of_affected haffected⟩
    rw [← of_decide_eq_true hpage]
    exact hallocated entry hlogged (by simpa using hlost)
  obtain ⟨r₁, hundo, hbecame⟩ := undoPages_run hstate hascending hsolo hdurable hpages
  obtain ⟨r₂, hrelease, hbecame'⟩ := releaseAll_run hbecame.solo hvisits.valid
  refine ⟨r₂, undone records values released, ?_, hbecame.trans hbecame', hvisits.image hfresh, hvisits.allocated r.store⟩
  rw [hvisits.run_eq, Op.bind_ok hundo, hrelease]

theorem recover_run (h : Recoverable records r) : ∃ r', (recover records).run r = (.ok (), r') ∧
    r'.cache.Solo ∧ r'.cache.walDurability = r.cache.walDurability ∧ r'.cache.pages.pageCount = r.cache.pages.pageCount ∧
    (∀ p, r'.cache.view p = recovered records p (r.cache.view p)) ∧ ∀ p, r'.cache.pages.isPageAllocated p =
      ((r.cache.pages.isPageAllocated p || allocates records true p) && !allocates records false p) := by
  obtain ⟨state, hanalyze⟩ := analyze_succeeds h.decodable h.ends
  obtain ⟨hstate, -⟩ := analyze_ok hanalyze
  obtain ⟨r₁, hredo, hbecame⟩ := redoRecords_run hstate h.ascending (fun _ hmem => hmem) h.positive h.decodable h.repeatable
  have himage : ∀ p, r₁.store.image p = (r.store.image p).map fun page => (winnersOn records p).foldl redoPage page := by
    intro p
    rw [hbecame.store, foldl_redoOn_image, winnersAmong_self]
  have hbits : ∀ p, r₁.store.allocated p = (r.store.allocated p || allocates records true p) := by
    intro p
    rw [hbecame.store]
    exact foldl_redoOn_allocated _ p
  obtain ⟨r₂, f, hundo, hbecame', himage', hbits'⟩ := undoEngine_run hstate h.ascending hbecame.solo
    (Replay.Covers.of_wal h.repeatable.durable hbecame.wal)
    (fun entry hentry _ => by rw [hbits, h.repeatable.allocated entry hentry]; rfl)
    (by rw [hbecame.store, foldl_redoOn_reconstructed]; exact h.fresh)
  refine ⟨r₂, ?_, hbecame'.solo, hbecame'.wal.trans hbecame.wal, hbecame'.pageCount.trans hbecame.pageCount, fun p => ?_,
    fun p => ?_⟩
  · have hlift : (UndoEngine.lift (RecoveryAnalyzer.analyze records) : ReplayOp RecoveryState).run r = (.ok state, r) := by
      rw [hanalyze]
      rfl
    have hrun : (RedoEngine.run state).run r = (.ok (), r₁) := by
      rw [RedoEngine.run, hstate.records, hredo]
    rw [recover, Op.bind_ok hlift, Op.bind_ok hrun, hundo]
  · change r₂.store.image p = _
    rw [hbecame'.store, himage', himage]
    rfl
  · change r₂.store.allocated p = _
    rw [hbecame'.store, hbits', hbits]
    rfl

end Ddb.Recovery
