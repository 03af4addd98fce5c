import Ddb.Concurrency.Terminal
import Ddb.Lib.History

/-!
# The history of the pages

The log and the transactions together tell the history of every page: the mutation records say which images were written
and by whom, and the marks of the transactions say which of them have been undone. What a client sees of a page is the
latest write in effect, its slot on the disk is no version or a write with a durable record, and the writers are kept apart.

This needs that clients keep to the rules: a transaction changes a page only if no other transaction has a mutation on it
that is neither committed nor undone, nobody writes a page without a log record once it has one, and the coordinator's
`commit` is not called for a transaction one of whose mutations a failed abort has undone already. The last one is checked by
nobody.
-/

namespace Ddb.Concurrency

open Ddb.Lib Ddb.Storage Ddb.Buffer

/-- A logged write of a page. -/
abbrev PageWrite := Logged PageId Payload

namespace System

variable {s s' : System} {t : TransactionId} {base : PageId → Payload} {history : List PageWrite} {rest : List Action}
  {e : PageWrite} {db : Database} {mutation : PhysicalMutation} {p : PageId}

/-- The transaction has a mutation on the page that is not undone. -/
def Carries (s : System) (t : TransactionId) (p : PageId) : Prop :=
  ∃ index mutation, (s.db.transactions t).pendingMutations[index]? = some mutation ∧ mutation.pageId = p ∧
    (s.db.transactions t).resolved index = false

/-- The rules for writers. A write is an access that changes the page or, for a client that does not log, puts anything in
its place. -/
def Isolated (s : System) : Step → Prop
  | .access (some t) p change => ∀ page after, s.db.cache.view p = some page → change page.payload = some after →
      after ≠ page.payload → ∀ other, other ≠ t → s.Carries other p → s.Recorded .commit other
  | .access none p change => ∀ page after, s.db.cache.view p = some page → change page.payload = some after →
      ∀ other, ¬ s.Mutated other p
  | _ => True

/-- A commit is asked for only when none of the transaction's mutations has been undone. -/
def CommitsWhole (s : System) : Step → Prop
  | .commit t => ∀ resolved ∈ (s.db.transactions t).undoResolved, resolved = false
  | _ => True

/-- The commit of the transaction has been logged with this LSN. -/
def CommittedAt (s : System) (t : TransactionId) (lsn : Nat) : Prop :=
  ∃ record ∈ s.db.log.records, record.type = .commit ∧ record.transactionId = t ∧ record.lsn = lsn

/-! ## What is tracked -/

/-- A mutation record as recovery reads it. -/
def written (record : WalRecord) : Nat × Nat × Option (PageId × Payload × Payload) :=
  (record.lsn, record.transactionId, (LogManager.decodePhysicalMutation record.payload).toOption.map fun mutation =>
    (mutation.pageId, mutation.beforeImage, mutation.afterImage))

def logged (e : PageWrite) : Nat × Nat × Option (PageId × Payload × Payload) :=
  (e.lsn, e.owner, some (e.key, e.before, e.after))

/-- A mutation as the rollback uses it. -/
def undoFields (mutation : PhysicalMutation) : PageId × Payload × Payload × Nat :=
  (mutation.pageId, mutation.beforeImage, mutation.afterImage, mutation.previousPageLsn)

def writeFields (e : PageWrite) : PageId × Payload × Payload × Nat := (e.key, e.before, e.after, e.previous)

def mutationRecords (records : List WalRecord) : List WalRecord := records.filter fun record => record.type = .physicalMutation

def ownWrites (t : TransactionId) (history : List PageWrite) : List PageWrite := history.filter fun e => e.owner = t

structure Tracks (s : System) (base : PageId → Payload) (history : List PageWrite) : Prop where
  sound : History.Sound base s.CommittedAt history
  records : (mutationRecords s.db.log.records).map written = history.map logged
  fields : ∀ t, (ownWrites t history).map writeFields = (s.db.transactions t).pendingMutations.map undoFields
  marks : ∀ t, (ownWrites t history).map Logged.live = (s.db.transactions t).undoResolved.map not
  view : ∀ p : PageId, p.index < s.db.pages.pageCount →
    s.db.cache.view p = some ⟨p, (History.current base p history).2, (History.current base p history).1⟩
  disk : ∀ p page, s.db.pages.slot p = some page →
    History.Stored s.db.log.durableLsn p history (page.payload, page.lsn)
  whole : ∀ t, s.calls t = Database.commitCall → ∀ resolved ∈ (s.db.transactions t).undoResolved, resolved = false

/-- Every write of the history has its record. -/
theorem Tracks.record (h : s.Tracks base history) (he : e ∈ history) :
    ∃ record ∈ s.db.log.records, record.type = .physicalMutation ∧ record.lsn = e.lsn ∧
      ∃ mutation, LogManager.decodePhysicalMutation record.payload = .ok mutation ∧ mutation.pageId = e.key := by
  have hmem : logged e ∈ (mutationRecords s.db.log.records).map written := by
    rw [h.records]
    exact List.mem_map_of_mem he
  obtain ⟨record, hrecord, hwritten⟩ := List.mem_map.mp hmem
  obtain ⟨hin, htype⟩ := List.mem_filter.mp hrecord
  refine ⟨record, hin, of_decide_eq_true htype, congrArg Prod.fst hwritten, ?_⟩
  have hdecode := congrArg (fun triple => triple.2.2) hwritten
  cases hpayload : LogManager.decodePhysicalMutation record.payload with
  | error e => simp [written, logged, hpayload, Except.toOption] at hdecode
  | ok mutation =>
    simp only [written, logged, hpayload, Except.toOption, Option.map_some, Option.some.injEq, Prod.mk.injEq] at hdecode
    exact ⟨mutation, rfl, hdecode.1⟩

theorem Tracks.lsn_lt (hinv : s.db.Inv) (h : s.Tracks base history) (he : e ∈ history) : e.lsn < s.db.log.nextLsn := by
  obtain ⟨record, hmem, -, hlsn, -⟩ := h.record he
  rw [← hlsn]
  exact hinv.log.lsn_lt record hmem

theorem Tracks.index_lt (hwell : s.WellLogged) (h : s.Tracks base history) (he : e ∈ history) :
    e.key.index < s.db.pages.pageCount := by
  obtain ⟨record, hmem, htype, -, mutation, hdecode, hkey⟩ := h.record he
  have hread := hwell record hmem
  simp only [Readable, htype] at hread
  obtain ⟨other, hother, hindex⟩ := hread
  rw [hdecode] at hother
  obtain rfl := Except.ok.inj hother
  rwa [← hkey]

/-- A write in effect is a mutation its transaction has not undone. -/
theorem Tracks.carries (h : s.Tracks base history) (he : e ∈ history) (hlive : e.live = true) : s.Carries e.owner e.key := by
  have hown : e ∈ ownWrites e.owner history := List.mem_filter.mpr ⟨he, by simp⟩
  obtain ⟨index, hindex, hget⟩ := List.getElem_of_mem hown
  have hfields := congrArg (fun l => l[index]?) (h.fields e.owner)
  have hmarks := congrArg (fun l => l[index]?) (h.marks e.owner)
  simp only [List.getElem?_map, List.getElem?_eq_getElem hindex, hget, Option.map_some] at hfields hmarks
  obtain ⟨mutation, hmutation, heq⟩ := Option.map_eq_some_iff.mp hfields.symm
  obtain ⟨resolved, hresolved, hnot⟩ := Option.map_eq_some_iff.mp hmarks.symm
  refine ⟨index, mutation, hmutation, ?_, ?_⟩
  · exact congrArg Prod.fst heq
  · rw [hlive, Bool.not_eq_true'] at hnot
    rw [Transaction.resolved, List.getD_eq_getElem?_getD, hresolved, Option.getD_some, hnot]

/-- A page no transaction has mutated has no write. -/
theorem Tracks.on_eq_nil (h : s.Tracks base history) (hnone : ∀ t, ¬ s.Mutated t p) : History.on p history = [] := by
  rw [List.eq_nil_iff_forall_not_mem]
  intro e he
  obtain ⟨he, hkey⟩ := History.mem_on.mp he
  have hmem : writeFields e ∈ (s.db.transactions e.owner).pendingMutations.map undoFields := by
    rw [← h.fields e.owner]
    exact List.mem_map_of_mem (List.mem_filter.mpr ⟨he, by simp⟩)
  obtain ⟨mutation, hmutation, heq⟩ := List.mem_map.mp hmem
  exact hnone e.owner ⟨mutation, hmutation, (congrArg Prod.fst heq).trans hkey⟩

/-! ## Steps -/

section Kept

variable {db : Database} {q : PageId}

theorem Tracks.view_keep (h : s.Tracks base history) (hclean : ∀ p, s.db.cache.Clean p) (hkeep : Database.Keeps s.db db q)
    (hindex : q.index < s.db.pages.pageCount) :
    db.cache.view q = some ⟨q, (History.current base q history).2, (History.current base q history).1⟩ := by
  rw [hkeep.view hindex (hclean q), h.view q hindex]

/-- A slot that was written back holds what clients see. -/
theorem Tracks.stored_view (h : s.Tracks base history) {page : Page} (hindex : q.index < s.db.pages.pageCount)
    (hview : s.db.cache.view q = some page) (hdurable : Cache.LsnDurable s.db.cache.walDurability page.lsn) :
    History.Stored s.db.log.durableLsn q history (page.payload, page.lsn) := by
  rw [h.view q hindex] at hview
  obtain rfl := Option.some.inj hview
  apply History.stored_current
  rcases hdurable with hzero | ⟨durable, heq, hle⟩
  · exact Or.inl hzero
  · obtain rfl : s.db.log.durableLsn = durable := Option.some.inj heq
    exact Or.inr hle

theorem Tracks.disk_keep (h : s.Tracks base history) (hclean : ∀ p, s.db.cache.Clean p) (hkeep : Database.Keeps s.db db q)
    (hindex : q.index < s.db.pages.pageCount) {page : Page} (hslot : db.pages.slot q = some page) :
    History.Stored s.db.log.durableLsn q history (page.payload, page.lsn) := by
  rcases hkeep.disk hindex (hclean q) with hsame | ⟨other, hview, hother, hdurable⟩
  · exact h.disk q page (hsame ▸ hslot)
  · rw [hslot] at hother
    obtain rfl := Option.some.inj hother
    exact h.stored_view hindex hview hdurable

end Kept

theorem committedAt_append {new : List WalRecord} (hrecords : s'.db.log.records = s.db.log.records ++ new) {lsn : Nat} :
    s'.CommittedAt t lsn ↔ s.CommittedAt t lsn ∨ ∃ record ∈ new, record.type = .commit ∧ record.transactionId = t ∧
      record.lsn = lsn := by
  simp only [CommittedAt, hrecords, List.mem_append, or_and_right, exists_or]

theorem committedAt_of_log (hlog : s'.db.log = s.db.log) : s'.CommittedAt = s.CommittedAt := by
  funext t lsn
  simp only [CommittedAt, hlog]

theorem mutationRecords_append (first second : List WalRecord) :
    mutationRecords (first ++ second) = mutationRecords first ++ mutationRecords second := List.filter_append _ _

/-- A step that writes no page: the log may have grown by a record of another kind. -/
theorem Tracks.keep (h : s.Tracks base history) (hclean : ∀ p, s.db.cache.Clean p) {new : List WalRecord}
    (hrecords : s'.db.log.records = s.db.log.records ++ new) (hnew : ∀ record ∈ new, record.type ≠ .physicalMutation)
    (hcommit : ∀ record ∈ new, record.type = .commit → ∀ e ∈ history, e.owner = record.transactionId → e.live = true)
    (htx : ∀ t, (s'.db.transactions t).pendingMutations = (s.db.transactions t).pendingMutations ∧
      (s'.db.transactions t).undoResolved = (s.db.transactions t).undoResolved)
    (hkeep : ∀ p, Database.Keeps s.db s'.db p) (hcount : s'.db.pages.pageCount = s.db.pages.pageCount)
    (hdurable : s.db.log.durableLsn ≤ s'.db.log.durableLsn)
    (hwhole : ∀ t, s'.calls t = Database.commitCall → s.calls t = Database.commitCall ∨
      ∀ resolved ∈ (s.db.transactions t).undoResolved, resolved = false) : s'.Tracks base history := by
  have hnone : mutationRecords new = [] := by
    rw [mutationRecords, List.filter_eq_nil_iff]
    intro record hmem
    simpa using hnew record hmem
  refine ⟨?_, ?_, ?_, ?_, ?_, ?_, ?_⟩
  · refine h.sound.commit (fun o n hold => (committedAt_append hrecords).mpr (Or.inl hold)) fun o n hn => ?_
    rcases (committedAt_append hrecords).mp hn with hold | ⟨record, hmem, htype, rfl, -⟩
    · exact Or.inl hold
    · exact Or.inr (hcommit record hmem htype)
  · rw [hrecords, mutationRecords_append, hnone, List.append_nil, h.records]
  · intro t
    rw [(htx t).1, h.fields t]
  · intro t
    rw [(htx t).2, h.marks t]
  · intro p hp
    rw [hcount] at hp
    exact h.view_keep hclean (hkeep p) hp
  · intro p page hslot
    have hindex : p.index < s.db.pages.pageCount := hcount ▸ (PageManager.slot_eq_some hslot).1
    exact (h.disk_keep hclean (hkeep p) hindex hslot).mono hdurable fun e he => ⟨e, he, rfl, rfl⟩
  · intro t hcall
    rw [(htx t).2]
    rcases hwhole t hcall with hold | hnow
    · exact h.whole t hold
    · exact hnow

/-- What is left of a call of a transaction is not the beginning of a commit. -/
theorem Phase.rest_ne_commitCall {action : Action} (h : Phase s t (action :: rest)) : rest ≠ Database.commitCall := by
  rintro rfl
  generalize hlist : action :: Database.commitCall = call at h
  cases h with
  | outside hsuffix _ _ _ =>
    have hlength := hsuffix.length_le
    rw [← hlist] at hlength
    simp [Database.commitCall, Database.allocateCall] at hlength
  | committing _ _ _ => simp [Database.commitCall] at hlist
  | committed hshape _ _ => rcases hshape with rfl | rfl <;> simp [Database.commitCall] at hlist
  | aborting _ _ _ _ =>
    have hlast := congrArg List.getLast? hlist
    simp [Database.commitCall, List.getLast?_append] at hlast
  | aborted hshape _ _ _ => rcases hshape with rfl | rfl <;> simp [Database.commitCall] at hlist

theorem Phase.eq_commitCall (h : Phase s t (.logCommit :: rest)) : Action.logCommit :: rest = Database.commitCall := by
  generalize hlist : Action.logCommit :: rest = call at h
  cases h with
  | outside hsuffix _ _ _ =>
    have hmem := hsuffix.subset (hlist ▸ List.mem_cons_self)
    simp [Database.allocateCall] at hmem
  | committing _ _ _ => rfl
  | committed hshape _ _ => rcases hshape with rfl | rfl <;> cases hlist
  | @aborting undoing hundoing _ _ _ =>
    cases undoing with
    | nil => cases hlist
    | cons first undoing =>
      obtain ⟨rfl, -⟩ := List.cons.inj hlist
      cases (hundoing _ List.mem_cons_self).1
  | aborted hshape _ _ _ => rcases hshape with rfl | rfl <;> cases hlist

/-- A write of one page with an image that becomes its current version. -/
theorem Tracks.pages_rewrote (h : s.Tracks base history) (hclean : ∀ p, s.db.cache.Clean p) {page : Page}
    (hid : p.index < s.db.pages.pageCount) (hwrote : s.db.cache.Rewrote db.cache p page) (base' : PageId → Payload)
    (history' : List PageWrite) (hself : page = ⟨p, (History.current base' p history').2, (History.current base' p history').1⟩)
    (hother : ∀ q, q ≠ p → History.current base' q history' = History.current base q history)
    (hmem : ∀ e ∈ history, ∃ e' ∈ history', e'.key = e.key ∧ e'.version = e.version) :
    (∀ q : PageId, q.index < db.pages.pageCount →
      db.cache.view q = some ⟨q, (History.current base' q history').2, (History.current base' q history').1⟩) ∧
    (∀ q page, db.pages.slot q = some page → History.Stored s.db.log.durableLsn q history' (page.payload, page.lsn)) := by
  have hcount : db.pages.pageCount = s.db.pages.pageCount := hwrote.pageCount
  constructor
  · intro q hq
    rw [hcount] at hq
    by_cases heq : q = p
    · subst heq
      rw [hwrote.self, hself]
    · rw [hother q heq]
      exact h.view_keep hclean (.of_moved hwrote.toMoved heq) hq
  · intro q copy hslot
    have hq : q.index < s.db.pages.pageCount := hcount ▸ (PageManager.slot_eq_some hslot).1
    refine History.Stored.mono ?_ le_rfl hmem
    by_cases heq : q = p
    · subst heq
      rcases hwrote.disk_self (hclean q) with hsame | ⟨other, hview, hback, hdurable⟩
      · exact h.disk q copy (hsame.symm.trans hslot)
      · obtain rfl : copy = other := Option.some.inj (hslot.symm.trans hback)
        exact h.stored_view hid hview hdurable
    · exact h.disk_keep hclean (.of_moved hwrote.toMoved heq) hq hslot

/-- A write without a log record, of a page that has none. -/
theorem Tracks.unlogged (h : s.Tracks base history) (hinv : s.db.Inv) (hclean : ∀ p, s.db.cache.Clean p) {page : Page}
    {after : Payload} (hview : s.db.cache.view p = some page) (hwrote : s.db.cache.Rewrote db.cache p (page.withPayload after))
    (hstill : Database.Still s.db db) (hon : History.on p history = []) :
    System.Tracks { s with db := db } (Function.update base p after) history := by
  obtain ⟨hid, hindex⟩ := Database.view_id hinv hview
  have hcurrent := h.view p hindex
  rw [History.current_of_on_eq_nil hon, hview] at hcurrent
  have hlsn : page.lsn = 0 := congrArg Page.lsn (Option.some.inj hcurrent)
  have hbase : ∀ q, q ≠ p → Function.update base p after q = base q := fun q hq => Function.update_of_ne hq _ _
  obtain ⟨hviews, hslots⟩ := h.pages_rewrote hclean hindex hwrote (Function.update base p after) history
    (by rw [History.current_of_on_eq_nil hon, Function.update_self, ← hid, ← hlsn]; rfl)
    (fun q hq => History.current_rebase (hbase q hq)) fun e he => ⟨e, he, rfl, rfl⟩
  refine ⟨?_, ?_, ?_, ?_, hviews, ?_, ?_⟩
  · rw [committedAt_of_log hstill.log]
    refine h.sound.rebase fun q hq => hbase q ?_
    rintro rfl
    exact hq hon
  · rw [hstill.log]
    exact h.records
  · rw [hstill.transactions]
    exact h.fields
  · rw [hstill.transactions]
    exact h.marks
  · rw [hstill.log]
    exact hslots
  · rw [hstill.transactions]
    exact h.whole

/-- A captured mutation, on a page with no mutation of another transaction that is neither committed nor undone. -/
theorem Tracks.captured (h : s.Tracks base history) (hw : s.Working) {page : Page} {after : Payload} {bytes : Bytes}
    (hidle : s.idle t = true) (hview : s.db.cache.view p = some page)
    (hmutation : mutation = ⟨p, .payloadWrite, (s.db.transactions t).context.nextSequence, page.payload, after, page.lsn⟩)
    (hencode : LogManager.encodePhysicalMutation mutation = .ok bytes)
    (hwrote : s.db.cache.Rewrote db.cache p ⟨p, s.db.log.nextLsn, after⟩)
    (hlog : s.db.log.Appended db.log [⟨s.db.log.nextLsn, t, .physicalMutation, bytes⟩])
    (hrest : Database.Apart s.db db t ((s.db.transactions t).captured mutation))
    (hapart : ∀ other, other ≠ t → s.Carries other p → s.Recorded .commit other) : System.Tracks { s with db := db } base
      (history ++ [⟨s.db.log.nextLsn, t, p, page.payload, after, page.lsn, true⟩]) := by
  set e : PageWrite := ⟨s.db.log.nextLsn, t, p, page.payload, after, page.lsn, true⟩ with he
  obtain ⟨hid, hindex⟩ := Database.view_id hw.inv.db hview
  have hcurrent : (page.payload, page.lsn) = History.current base p history := by
    have hpage := h.view p hindex
    rw [hview] at hpage
    rw [Option.some.inj hpage]
  obtain ⟨hviews, hslots⟩ := h.pages_rewrote hw.clean hindex hwrote base (history ++ [e])
    (by rw [History.current_push rfl, if_pos rfl]; rfl)
    (fun q hq => by rw [History.current_push rfl, if_neg fun heq => hq heq.symm])
    fun d hd => ⟨d, List.mem_append_left _ hd, rfl, rfl⟩
  have hsame : ∀ {o n : Nat}, System.CommittedAt { s with db := db } o n ↔ s.CommittedAt o n := by
    intro o n
    rw [committedAt_append hlog.records]
    simp
  have hown : ∀ other, ownWrites other (history ++ [e]) =
      ownWrites other history ++ if t = other then [e] else [] := by
    intro other
    rw [ownWrites, List.filter_append, ownWrites]
    split
    · rename_i heq
      simp [he, heq]
    · rename_i hne
      simp [he, hne]
  refine ⟨?_, ?_, ?_, ?_, hviews, ?_, ?_⟩
  · refine (h.sound.push rfl (fun d hd => h.lsn_lt hw.inv.db hd) hw.inv.db.log.next_pos hcurrent ?_).commit
      (fun o n hn => hsame.mpr hn) fun o n hn => Or.inl (hsame.mp hn)
    intro d hd hkey hlive
    by_cases howner : d.owner = t
    · exact Or.inl howner
    · obtain ⟨record, hmem, htype, hrecord⟩ := hapart d.owner howner (Eq.subst (show d.key = p from hkey) (h.carries hd hlive))
      exact Or.inr ⟨record.lsn, hw.inv.db.log.lsn_lt record hmem, record, hmem, htype, hrecord, rfl⟩
  · have hnew : mutationRecords [⟨s.db.log.nextLsn, t, .physicalMutation, bytes⟩] =
        [⟨s.db.log.nextLsn, t, .physicalMutation, bytes⟩] := rfl
    rw [hlog.records, mutationRecords_append, hnew, List.map_append, List.map_append, h.records]
    have hdecode := (LogManager.decodePhysicalMutation_encode hencode).1
    simp only [List.map_cons, List.map_nil, written, logged, hdecode, hmutation, Except.toOption, Option.map_some, he]
  · intro other
    rw [hown, List.map_append, h.fields other, hrest.transactions, Function.update_apply]
    by_cases heq : other = t
    · subst heq
      rw [if_pos rfl, if_pos rfl, Transaction.captured, List.map_append, hmutation]
      rfl
    · rw [if_neg heq, if_neg fun heq' => heq heq'.symm, List.map_nil, List.append_nil]
  · intro other
    rw [hown, List.map_append, h.marks other, hrest.transactions, Function.update_apply]
    by_cases heq : other = t
    · subst heq
      rw [if_pos rfl, if_pos rfl, Transaction.captured, List.map_append]
      rfl
    · rw [if_neg heq, if_neg fun heq' => heq heq'.symm, List.map_nil, List.append_nil]
  · rw [hlog.durableLsn]
    exact hslots
  · intro other hcall
    have hne : other ≠ t := by
      rintro rfl
      have hempty : s.calls other = [] := by simpa [idle] using (Bool.and_eq_true_iff.mp hidle).2
      rw [show s.calls other = Database.commitCall from hcall] at hempty
      cases hempty
    rw [hrest.transactions, Function.update_of_ne hne]
    exact h.whole other hcall

/-- The write that the mutation at an index of a transaction is. -/
theorem Tracks.split (h : s.Tracks base history) (hinv : s.db.Inv) {index : Nat}
    (hmutation : (s.db.transactions t).pendingMutations[index]? = some mutation)
    (hresolved : (s.db.transactions t).resolved index = false) (hlater : (s.db.transactions t).unresolvedAfter index = false) :
    ∃ older e newer, history = older ++ e :: newer ∧ e.owner = t ∧ e.live = true ∧ writeFields e = undoFields mutation ∧
      (∀ d ∈ newer, d.owner = t → d.live = false) ∧ (ownWrites t older).length = index := by
  have hmark := (hinv.transactions t).mark_of_unresolved hmutation hresolved
  -- The write has the same place among the writes of its owner.
  have hfield : ((ownWrites t history).map writeFields)[index]? = some (undoFields mutation) := by
    rw [h.fields, List.getElem?_map, hmutation, Option.map_some]
  have hlive : ((ownWrites t history).map Logged.live)[index]? = some true := by
    rw [h.marks, List.getElem?_map, hmark, Option.map_some, Bool.not_false]
  rw [List.getElem?_map] at hfield hlive
  obtain ⟨e, he, hfields⟩ := Option.map_eq_some_iff.mp hfield
  rw [he, Option.map_some] at hlive
  have hindex : index < (ownWrites t history).length := (List.getElem?_eq_some_iff.mp he).1
  have hget : (ownWrites t history)[index] = e := (List.getElem?_eq_some_iff.mp he).2
  have hcut : ownWrites t history = (ownWrites t history).take index ++ e :: (ownWrites t history).drop (index + 1) := by
    rw [← hget, ← List.drop_eq_getElem_cons hindex, List.take_append_drop]
  have hdead : ∀ d ∈ (ownWrites t history).drop (index + 1), d.live = false := by
    intro d hd
    have hmem : d.live ∈ ((ownWrites t history).map Logged.live).drop (index + 1) := by
      rw [← List.map_drop]
      exact List.mem_map_of_mem hd
    rw [h.marks, ← List.map_drop] at hmem
    obtain ⟨resolved, hin, hnot⟩ := List.mem_map.mp hmem
    rw [Transaction.forall_of_unresolvedAfter hlater resolved hin] at hnot
    exact hnot.symm
  obtain ⟨older, back, hhistory, holder, hback⟩ := List.filter_eq_append_iff.mp hcut
  obtain ⟨skipped, newer, hsplit, hskip, howner, hnewer⟩ := List.filter_eq_cons_iff.mp hback
  refine ⟨older ++ skipped, e, newer, ?_, of_decide_eq_true howner, Option.some.inj hlive, hfields, ?_, ?_⟩
  · rw [hhistory, hsplit, List.append_assoc]
  · intro d hd hdowner
    apply hdead
    rw [← hnewer]
    exact List.mem_filter.mpr ⟨hd, decide_eq_true hdowner⟩
  · have hnone : ownWrites t skipped = [] := List.filter_eq_nil_iff.mpr hskip
    rw [ownWrites, List.filter_append, holder]
    change ((ownWrites t history).take index ++ ownWrites t skipped).length = index
    rw [hnone, List.append_nil, List.length_take, Nat.min_eq_left hindex.le]

theorem ownWrites_append (first second : List PageWrite) :
    ownWrites t (first ++ second) = ownWrites t first ++ ownWrites t second := List.filter_append _ _

/-- The mutation that is undone next, behind which its transaction has none in effect. -/
theorem Tracks.undone (h : s.Tracks base history) (hw : s.Working) (hphases : s.Phases) {index : Nat} {old : Page}
    (hcall : s.calls t = .undo index :: rest) (hmutation : (s.db.transactions t).pendingMutations[index]? = some mutation)
    (hresolved : (s.db.transactions t).resolved index = false) (hlater : (s.db.transactions t).unresolvedAfter index = false)
    (hview : s.db.cache.view mutation.pageId = some old) (hwrote : s.db.cache.Rewrote db.cache mutation.pageId
      ⟨mutation.pageId, mutation.previousPageLsn, mutation.beforeImage⟩) (hlog : db.log = s.db.log)
    (hrest : Database.Apart s.db db t (Database.resolvedAt index (s.db.transactions t))) :
    ∃ history', System.Tracks (({ s with db := db } : System).enter t rest) base history' := by
  obtain ⟨older, e, newer, hhistory, howner, hlive, hfields, hlast, hlength⟩ := h.split hw.inv.db hmutation hresolved hlater
  subst hhistory
  obtain ⟨hkey, hbefore, hafter, hprevious⟩ : e.key = mutation.pageId ∧ e.before = mutation.beforeImage ∧
      e.after = mutation.afterImage ∧ e.previous = mutation.previousPageLsn := by
    simpa only [writeFields, undoFields, Prod.mk.injEq] using hfields
  have hlast' : ∀ d ∈ newer, d.owner = e.owner → d.live = false := fun d hd hd' => hlast d hd (hd'.trans howner)
  have hopen : ∀ n, ¬ s.CommittedAt e.owner n := by
    rintro n ⟨record, hmem, htype, htx, -⟩
    exact hphases.not_committed_of_undo hcall ⟨record, hmem, htype, htx.trans howner⟩
  have hcurrent := h.sound.current_undo hlive hopen hlast'
  obtain ⟨-, hindex⟩ := Database.view_id hw.inv.db hview
  obtain ⟨hviews, hslots⟩ := h.pages_rewrote hw.clean hindex hwrote base (older ++ e.undone :: newer)
    (by rw [hcurrent, if_pos hkey, hbefore, hprevious])
    (fun q hq => by rw [hcurrent, if_neg fun heq => hq (heq.symm.trans hkey)])
    (by
      intro d hd
      rcases List.mem_append.mp hd with hd | hd
      · exact ⟨d, List.mem_append_left _ hd, rfl, rfl⟩
      · rcases List.mem_cons.mp hd with rfl | hd
        · exact ⟨d.undone, List.mem_append_right _ List.mem_cons_self, rfl, rfl⟩
        · exact ⟨d, List.mem_append_right _ (List.mem_cons_of_mem _ hd), rfl, rfl⟩)
  have hself : ownWrites t [e] = [e] ∧ ownWrites t [e.undone] = [e.undone] := by
    simp [ownWrites, Logged.undone, howner]
  have hnone : ∀ other, other ≠ t → ownWrites other [e] = [] ∧ ownWrites other [e.undone] = [] := by
    intro other hne
    simp [ownWrites, Logged.undone, howner, hne.symm]
  have hparts : ∀ d, ∀ other, ownWrites other (older ++ d :: newer) =
      ownWrites other older ++ (ownWrites other [d] ++ ownWrites other newer) := by
    intro d other
    rw [← List.singleton_append, ownWrites_append, ownWrites_append]
  refine ⟨older ++ e.undone :: newer, ?_, ?_, ?_, ?_, hviews, ?_, ?_⟩
  · rw [committedAt_of_log (s := s) hlog]
    exact h.sound.undo hlive hopen hlast'
  · change (mutationRecords db.log.records).map written = _
    rw [hlog, h.records, List.map_append, List.map_append]
    rfl
  · intro other
    change _ = (db.transactions other).pendingMutations.map undoFields
    have hold := h.fields other
    rw [hparts] at hold ⊢
    rw [hrest.transactions, Function.update_apply]
    by_cases heq : other = t
    · subst heq
      rw [hself.1] at hold
      rw [hself.2, if_pos rfl]
      simp only [List.map_append] at hold ⊢
      exact hold
    · rw [(hnone other heq).1] at hold
      rw [(hnone other heq).2, if_neg heq]
      exact hold
  · intro other
    change _ = (db.transactions other).undoResolved.map not
    have hold := h.marks other
    rw [hparts] at hold ⊢
    rw [hrest.transactions, Function.update_apply]
    by_cases heq : other = t
    · subst heq
      rw [hself.1, List.map_append] at hold
      rw [hself.2, if_pos rfl, Database.resolvedAt, List.map_set, ← hold, List.map_append,
        List.set_append_right _ _ (by rw [List.length_map, hlength]), List.length_map, hlength, Nat.sub_self]
      rfl
    · rw [(hnone other heq).1] at hold
      rw [(hnone other heq).2, if_neg heq]
      exact hold
  · change ∀ q page, db.pages.slot q = some page → History.Stored db.log.durableLsn q _ _
    rw [hlog]
    exact hslots
  · intro other hcommit
    change Function.update s.calls t rest other = _ at hcommit
    have hphase := hphases t
    rw [hcall] at hphase
    by_cases heq : other = t
    · subst heq
      rw [Function.update_self] at hcommit
      exact absurd hcommit hphase.rest_ne_commitCall
    · rw [Function.update_of_ne heq] at hcommit
      change ∀ resolved ∈ (db.transactions other).undoResolved, resolved = false
      rw [hrest.transactions, Function.update_of_ne heq]
      exact h.whole other hcommit

/-- New slots at the end of the file hold blank pages. -/
theorem Tracks.grown (h : s.Tracks base history) (hw : s.Working) (hwell : s.WellLogged) {pages : PageManager}
    (hpages : s.db.pages.Grown pages) {calls : TransactionId → List Action}
    (hwhole : ∀ t, calls t = Database.commitCall → s.calls t = Database.commitCall) :
    System.Tracks { s with db := { s.db with pages := pages }, calls := calls }
      (fun p => if p.index < s.db.pages.pageCount then base p else .zero) history := by
  set base' : PageId → Payload := fun p => if p.index < s.db.pages.pageCount then base p else .zero with hbase'
  have hold : ∀ p : PageId, p.index < s.db.pages.pageCount → base' p = base p := fun p hp => if_pos hp
  have hnew : ∀ p : PageId, s.db.pages.pageCount ≤ p.index → History.on p history = [] := by
    intro p hp
    rw [List.eq_nil_iff_forall_not_mem]
    intro e he
    obtain ⟨hmem, rfl⟩ := History.mem_on.mp he
    exact hp.not_gt (h.index_lt hwell hmem)
  have hkeep : ∀ p, Database.Keeps s.db { s.db with pages := pages } p := fun p =>
    .of_pool hw.inv.db p rfl hpages.pageCount hpages.slot
  refine ⟨?_, h.records, h.fields, h.marks, ?_, ?_, fun t hcall => h.whole t (hwhole t hcall)⟩
  · refine h.sound.rebase fun p hon => hold p ?_
    by_contra hge
    exact hon (hnew p (not_lt.mp hge))
  · intro p hp
    by_cases hlt : p.index < s.db.pages.pageCount
    · rw [History.current_rebase (hold p hlt)]
      exact h.view_keep hw.clean (hkeep p) hlt
    · have hbase : base' p = .zero := if_neg hlt
      rw [History.current_of_on_eq_nil (hnew p (not_lt.mp hlt)), hbase]
      have habsent : s.db.pool.pageTable p = none := by
        cases htable : s.db.pool.pageTable p with
        | none => rfl
        | some f => exact absurd (hw.inv.db.cache.resident p f htable) hlt
      obtain ⟨page, hslot, -⟩ := hpages.wellFormed.slot_isSome hp
      have hview : Cache.view (Database.cache { s.db with pages := pages }) p = pages.slot p := Cache.view_absent habsent
      change Cache.view (Database.cache { s.db with pages := pages }) p = _
      rw [hview, hslot, hpages.fresh p page (not_lt.mp hlt) hslot]
  · intro p page hslot
    change pages.slot p = some page at hslot
    by_cases hlt : p.index < s.db.pages.pageCount
    · exact h.disk_keep hw.clean (hkeep p) hlt hslot
    · rw [hpages.fresh p page (not_lt.mp hlt) hslot]
      exact Or.inl rfl

/-- A write of what is there already. -/
theorem Tracks.rewritten (h : s.Tracks base history) (hinv : s.db.Inv) (hclean : ∀ p, s.db.cache.Clean p) {page : Page}
    (hview : s.db.cache.view p = some page) (hwrote : s.db.cache.Rewrote db.cache p (page.withPayload page.payload))
    (hstill : Database.Still s.db db) : System.Tracks { s with db := db } base history := by
  obtain ⟨hid, hindex⟩ := Database.view_id hinv hview
  have hcurrent := h.view p hindex
  rw [hview] at hcurrent
  obtain ⟨hviews, hslots⟩ := h.pages_rewrote hclean hindex hwrote base history (Option.some.inj hcurrent) (fun q hq => rfl)
    fun e he => ⟨e, he, rfl, rfl⟩
  refine ⟨?_, ?_, ?_, ?_, hviews, ?_, ?_⟩
  · rw [committedAt_of_log hstill.log]
    exact h.sound
  · rw [hstill.log]
    exact h.records
  · rw [hstill.transactions]
    exact h.fields
  · rw [hstill.transactions]
    exact h.marks
  · rw [hstill.log]
    exact hslots
  · rw [hstill.transactions]
    exact h.whole

/-- A step that leaves the log and the pages alone. -/
theorem Tracks.still (h : s.Tracks base history) (hclean : ∀ p, s.db.cache.Clean p) (hlog : s'.db.log = s.db.log)
    (htx : ∀ t, (s'.db.transactions t).pendingMutations = (s.db.transactions t).pendingMutations ∧
      (s'.db.transactions t).undoResolved = (s.db.transactions t).undoResolved)
    (hkeep : ∀ p, Database.Keeps s.db s'.db p) (hcount : s'.db.pages.pageCount = s.db.pages.pageCount)
    (hwhole : ∀ t, s'.calls t = Database.commitCall → s.calls t = Database.commitCall ∨
      ∀ resolved ∈ (s.db.transactions t).undoResolved, resolved = false) : s'.Tracks base history := by
  have hrecords : s'.db.log.records = s.db.log.records ++ [] := by rw [hlog, List.append_nil]
  exact h.keep hclean hrecords (by simp) (by simp) htx hkeep hcount (by rw [hlog]) hwhole

/-- A transaction about to log its commit has all its writes in effect. -/
theorem Tracks.live_of_logCommit (h : s.Tracks base history) (hphases : s.Phases) (hcall : s.calls t = .logCommit :: rest)
    (he : e ∈ history) (howner : e.owner = t) : e.live = true := by
  have hphase := hphases t
  rw [hcall] at hphase
  have hcommit : s.calls t = Database.commitCall := hcall.trans hphase.eq_commitCall
  have hmem : e.live ∈ (s.db.transactions t).undoResolved.map not := by
    rw [← h.marks t]
    exact List.mem_map_of_mem (List.mem_filter.mpr ⟨he, decide_eq_true howner⟩)
  obtain ⟨resolved, hresolved, hnot⟩ := List.mem_map.mp hmem
  rw [h.whole t hcommit resolved hresolved] at hnot
  exact hnot.symm

theorem Tracks.performed (h : s.Tracks base history) (hw : s.Working) (hphases : s.Phases) {action : Action}
    {result : Except Err Unit × Database} (hcall : s.calls t = action :: rest)
    (hpiece : Database.Performed s.db t action result) :
    ∃ history', (({ s with db := result.2 } : System).enter t (afterPiece result.1 rest)).Tracks base history' := by
  have hwhole : ∀ (db : Database) (outcome : Except Err Unit) (other : TransactionId),
      (({ s with db := db } : System).enter t (afterPiece outcome rest)).calls other = Database.commitCall →
      s.calls other = Database.commitCall ∨ ∀ resolved ∈ (s.db.transactions other).undoResolved, resolved = false := by
    intro db outcome other hcommit
    change Function.update s.calls t (afterPiece outcome rest) other = _ at hcommit
    by_cases heq : other = t
    · subst heq
      have hphase := hphases other
      rw [hcall] at hphase
      rw [Function.update_self] at hcommit
      cases outcome with
      | ok _ => exact absurd hcommit hphase.rest_ne_commitCall
      | error _ => cases hcommit
    · rw [Function.update_of_ne heq] at hcommit
      exact Or.inl hcommit
  -- A piece that touches neither the log nor a page.
  have hidem : ∀ {db : Database} (outcome : Except Err Unit), db.log = s.db.log → db.transactions = s.db.transactions →
      (∀ p, Database.Keeps s.db db p) → db.pages.pageCount = s.db.pages.pageCount →
      ∃ history', (({ s with db := db } : System).enter t (afterPiece outcome rest)).Tracks base history' := by
    intro db outcome hlog htx hkeep hcount
    refine ⟨history, h.still hw.clean hlog (fun other => ?_) hkeep hcount (hwhole db outcome)⟩
    change (db.transactions other).pendingMutations = _ ∧ (db.transactions other).undoResolved = _
    rw [htx]
    exact ⟨rfl, rfl⟩
  -- A piece that touches only the log, and writes no mutation there.
  have hlogged : ∀ {log : LogManager} {new : List WalRecord} (outcome : Except Err Unit),
      log.records = s.db.log.records ++ new → (∀ record ∈ new, record.type ≠ .physicalMutation) →
      (∀ record ∈ new, record.type = .commit → ∀ e ∈ history, e.owner = record.transactionId → e.live = true) →
      s.db.log.durableLsn ≤ log.durableLsn →
      ∃ history', (({ s with db := s.db.withLog log } : System).enter t (afterPiece outcome rest)).Tracks base history' := by
    intro log new outcome hrecords hnew hcommit hdurable
    exact ⟨history, h.keep hw.clean hrecords hnew hcommit (fun _ => ⟨rfl, rfl⟩)
      (fun p => .of_pool hw.inv.db p rfl le_rfl fun _ _ => rfl) rfl hdurable (hwhole _ outcome)⟩
  cases hpiece with
  | checked _ | refused _ | skipped _ | unallocated _ | notAborted _ | notCommitted _ => exact hidem _ rfl rfl (.refl s.db) rfl
  | undone hmutation hresolved hlater hview _ hwrote hlog hrest =>
    exact h.undone hw hphases hcall hmutation hresolved hlater hview hwrote hlog hrest
  | notUndone hquiet hstill => exact hidem _ hstill.log hstill.transactions (.of_quiet hquiet) hquiet.pageCount
  | torn _ hreason _ _ _ =>
    have hordered := hw.inv.ordered t
    rw [hcall] at hordered
    obtain ⟨-, hclosed, hlater⟩ := hordered.undo_next
    rw [hclosed, hlater] at hreason
    rcases hreason with hfalse | hfalse <;> cases hfalse
  | released _ hbit _ => exact hidem _ rfl rfl (fun p => .of_bitSet hw.inv.db hbit p rfl) hbit.pageCount
  | @logged _ type bytes log htype hready hlog =>
    refine hlogged _ hlog.records ?_ ?_ hlog.durableLsn.ge
    · intro record hmem
      obtain rfl := List.mem_singleton.mp hmem
      rintro rfl
      cases action <;> cases htype
    · intro record hmem hcommit e he howner
      obtain rfl := List.mem_singleton.mp hmem
      obtain rfl : type = .commit := hcommit
      cases action with
      | logCommit => exact h.live_of_logCommit hphases hcall he howner
      | _ => cases htype
  | @notLogged _ _ _ log _ hlog _ =>
    have hrecords : log.records = s.db.log.records ++ [] := by
      rcases hlog with rfl | hlog
      · rw [List.append_nil]
      · exact hlog.records
    have hdurable : s.db.log.durableLsn ≤ log.durableLsn := by
      rcases hlog with rfl | hlog
      · exact le_rfl
      · exact hlog.durableLsn.ge
    exact hlogged _ hrecords (by simp) (by simp) hdurable
  | @flushed log hlog hdurable =>
    have hrecords : log.records = s.db.log.records ++ [] := by rw [hlog.records, List.append_nil]
    refine hlogged _ hrecords (by simp) (by simp) ?_
    rw [hdurable]
    exact Nat.le_sub_one_of_lt hw.inv.db.log.durable_lt
  | @notFlushed _ log hlog hdurable _ =>
    have hrecords : log.records = s.db.log.records ++ [] := by rw [hlog.records, List.append_nil]
    exact hlogged _ hrecords (by simp) (by simp) hdurable.ge
  | @activated page pages _ hbit =>
    refine ⟨history, h.still hw.clean rfl (fun other => ?_) (fun p => .of_bitSet hw.inv.db hbit p rfl) hbit.pageCount
      (hwhole _ (.ok ()))⟩
    change (Function.update s.db.transactions t _ other).pendingMutations = _ ∧
      (Function.update s.db.transactions t _ other).undoResolved = _
    rw [Function.update_apply]
    split
    · rename_i heq
      subst heq
      exact ⟨rfl, rfl⟩
    · exact ⟨rfl, rfl⟩
  | @notActivated page _ pages hpages =>
    rcases hpages with rfl | hbit
    · exact hidem _ rfl rfl (.refl s.db) rfl
    · exact hidem _ rfl rfl (fun p => .of_bitSet hw.inv.db hbit p rfl) hbit.pageCount
  | aborted _ | committed _ => exact hidem _ rfl rfl (fun p => .of_pool hw.inv.db p rfl le_rfl fun _ _ => rfl) rfl

theorem tracks_step (hw : s.Working) (hphases : s.Phases) (hwell : s.WellLogged) {step : Step} (hisolated : s.Isolated step)
    (hcommits : s.CommitsWhole step) (h : s.Tracks base history) :
    ∃ base' history', (s.step step).Tracks base' history' := by
  have hstep := (step_cases hw.inv.db step).1
  generalize s.step step = s' at hstep
  have hsame : ∀ p, Database.Keeps s.db s.db p := .refl s.db
  cases hstep with
  | stayed => exact ⟨base, history, h⟩
  | @began log hlog =>
    refine ⟨base, history, h.keep hw.clean hlog.records ?_ ?_ (fun t => ?_)
      (fun p => .of_pool hw.inv.db p (by rfl) le_rfl fun _ _ => rfl) rfl hlog.durableLsn.ge fun t hcall => Or.inl hcall⟩
    · intro record hmem
      obtain rfl := List.mem_singleton.mp hmem
      exact nofun
    · intro record hmem hcommit
      obtain rfl := List.mem_singleton.mp hmem
      cases hcommit
    · change (Function.update s.db.transactions s.db.nextId (.fresh true) t).pendingMutations = _ ∧
        (Function.update s.db.transactions s.db.nextId (.fresh true) t).undoResolved = _
      rw [Function.update_apply]
      split
      · rename_i heq
        rw [heq, (hw.inv.fresh s.db.nextId le_rfl).1]
        exact ⟨rfl, rfl⟩
      · exact ⟨rfl, rfl⟩
  | notBegan _ hsick => exact absurd hw.healthy hsick
  | @accessed client id change result hidle haccess =>
    cases haccess with
    | failed _ hquiet hstill | read _ _ hquiet hstill =>
      exact ⟨base, history, h.still hw.clean hstill.log (fun t => by rw [hstill.transactions]; exact ⟨rfl, rfl⟩)
        (.of_quiet hquiet) hquiet.pageCount fun t hcall => Or.inl hcall⟩
    | @wrote page after _ db hview hf hclient _ hwrote hstill =>
      cases client with
      | none =>
        have hnone := hisolated page after hview (congrArg Prod.fst hf)
        exact ⟨_, history, h.unlogged hw.inv.db hw.clean hview hwrote hstill (h.on_eq_nil hnone)⟩
      | some t =>
        obtain rfl := hclient rfl
        exact ⟨base, history, h.rewritten hw.inv.db hw.clean hview hwrote hstill⟩
    | @captured t page after _ mutation bytes db hclient hview hf hchanged _ hmutation hencode hwrote hlog hrest =>
      subst hclient
      exact ⟨base, _, h.captured hw hidle hview hmutation hencode hwrote hlog hrest
        (hisolated page after hview (congrArg Prod.fst hf) hchanged)⟩
    | @spoiled t _ _ _ _ _ _ _ _ _ _ _ _ hreason _ _ =>
      rcases hreason with hopen | hsick
      · rw [hw.closed t] at hopen
        cases hopen
      · exact absurd hw.healthy hsick
  | @grown client pages calls _ hpages hcalls =>
    refine ⟨_, history, h.grown hw hwell hpages fun t hcall => ?_⟩
    rcases hcalls with rfl | ⟨owner, -, rfl, -⟩
    · exact hcall
    · by_cases heq : t = owner
      · subst heq
        rw [Function.update_self] at hcall
        cases hcall
      · rwa [Function.update_of_ne heq] at hcall
  | @committing t _ _ =>
    refine ⟨base, history, h.still hw.clean rfl (fun _ => ⟨rfl, rfl⟩) hsame rfl fun other hcall => ?_⟩
    change Function.update s.calls t _ other = _ at hcall
    by_cases heq : other = t
    · subst heq
      exact Or.inr hcommits
    · rw [Function.update_of_ne heq] at hcall
      exact Or.inl hcall
  | @aborting t _ _ =>
    refine ⟨base, history, h.still hw.clean rfl (fun _ => ⟨rfl, rfl⟩) hsame rfl fun other hcall => ?_⟩
    change Function.update s.calls t _ other = _ at hcall
    by_cases heq : other = t
    · subst heq
      rw [Function.update_self] at hcall
      cases hcall
    · rw [Function.update_of_ne heq] at hcall
      exact Or.inl hcall
  | resumed hcall hpiece =>
    obtain ⟨history', htracks⟩ := h.performed hw hphases hcall hpiece
    exact ⟨base, history', htracks⟩
  | locked _ =>
    exact ⟨base, history, h.still hw.clean rfl (fun _ => ⟨rfl, rfl⟩)
      (fun p => .of_pool hw.inv.db p (by rfl) le_rfl fun _ _ => rfl) rfl fun t hcall => Or.inl hcall⟩
  | quiet hquiet hstill =>
    exact ⟨base, history, h.still hw.clean hstill.log (fun t => by rw [hstill.transactions]; exact ⟨rfl, rfl⟩)
      (.of_quiet hquiet) hquiet.pageCount fun t hcall => Or.inl hcall⟩
  | @synced log hlog hdurable =>
    have hrecords : log.records = s.db.log.records ++ [] := by rw [hlog.records, List.append_nil]
    refine ⟨base, history, h.keep hw.clean hrecords (by simp) (by simp) (fun _ => ⟨rfl, rfl⟩)
      (fun p => .of_pool hw.inv.db p (by rfl) le_rfl fun _ _ => rfl) rfl ?_ fun t hcall => Or.inl hcall⟩
    change s.db.log.durableLsn ≤ log.durableLsn
    rcases hdurable with hdurable | hdurable
    · rw [hdurable]
    · rw [hdurable]
      exact Nat.le_sub_one_of_lt hw.inv.db.log.durable_lt

/-! ## Runs -/

theorem Launch.tracks (h : s.Launch) : ∃ base, s.Tracks base [] := by
  obtain ⟨⟨pages, capacity, log, rfl, hpages, hlog⟩, -, -, hrecords, hlsn⟩ := h
  change log.records = [] at hrecords
  refine ⟨fun p => ((pages.slot p).map Page.payload).getD .zero, History.sound_nil, ?_, fun _ => rfl, fun _ => rfl, ?_, ?_, ?_⟩
  · change (mutationRecords log.records).map written = _
    rw [hrecords]
    rfl
  · intro p hp
    obtain ⟨page, hslot, hid⟩ := hpages.slot_isSome hp
    have hzero := hlsn p page hslot
    change pages.slot p = some ⟨p, 0, ((pages.slot p).map Page.payload).getD .zero⟩
    rw [hslot, ← hid, ← hzero]
    rfl
  · intro p page hslot
    exact Or.inl (hlsn p page hslot)
  · intro t hcall
    cases hcall

/-- What holds in every state of a run in which the clients keep to the rules. -/
structure Chronicle (s : System) : Prop where
  working : s.Working
  phases : s.Phases
  wellLogged : s.WellLogged
  tracks : ∃ base history, s.Tracks base history

theorem Launch.chronicle (h : s.Launch) : s.Chronicle := by
  obtain ⟨base, htracks⟩ := h.tracks
  exact ⟨h.working, h.phases, h.wellLogged, base, [], htracks⟩

theorem Chronicle.step (h : s.Chronicle) {step : Step} (hrules : s.Isolated step ∧ s.CommitsWhole step) :
    (s.step step).Chronicle := by
  obtain ⟨base, history, htracks⟩ := h.tracks
  exact ⟨h.working.step step, phases_step h.working h.phases step,
    wellLogged_step h.working.inv.db h.phases h.wellLogged step,
    tracks_step h.working h.phases h.wellLogged hrules.1 hrules.2 htracks⟩

theorem Chronicle.exec (h : s.Chronicle) {run : List Step}
    (hrules : EachStep System.step (fun s step => s.Isolated step ∧ s.CommitsWhole step) s run) :
    (exec System.step s run).Chronicle :=
  (always_of_eachStep (fun _ _ hs hstep => hs.step hstep) h hrules).last

end System

end Ddb.Concurrency
