import Ddb.Concurrency.Terminal
import Ddb.Lib.Paged
import Mathlib.Data.Finset.Card

/-!
# The database as a store of pages

Structures on pages reach the database by page accesses and allocations only, either on behalf of a transaction, which
captures and logs what changes, or without one. The memory they see is made of the payloads of the allocated pages, from
the pool where a page is resident and from the file where it is not.
-/

namespace Ddb.Storage.PageId

/-- There are fewer valid ids than turns of a loop that visits no page twice. -/
theorem length_lt_of_nodup {ids : List PageId} (hnodup : ids.Nodup) (hvalid : ∀ id ∈ ids, id.isValid = true) :
    ids.length < 2 ^ 64 := by
  have hindex : (ids.map index).Nodup := hnodup.map fun _ _ => ext_index
  have hsub : (ids.map index).toFinset ⊆ Finset.range (2 ^ 64 - 1) := by
    intro i hi
    obtain ⟨id, hid, rfl⟩ := List.mem_map.mp (List.mem_toFinset.mp hi)
    have hne := isValid_iff.mp (hvalid id hid)
    have hlt : id.index < 2 ^ 64 := id.value.toNat_lt
    rw [Finset.mem_range]
    by_contra hge
    have hlast : id.index = invalid.index := by
      have hvalue : invalid.index = 2 ^ 64 - 1 := by decide
      omega
    exact hne (ext_index hlast)
  have hcard := Finset.card_le_card hsub
  rw [List.toFinset_card_of_nodup hindex, List.length_map, Finset.card_range] at hcard
  omega

end Ddb.Storage.PageId

namespace Ddb.Concurrency.Database

open Ddb.Lib Ddb.Storage Ddb.Buffer

/-- `allocate_page` of the transaction, or of the page manager. -/
def allocateFor : Option TransactionId → DbOp PageId
  | some t => allocatePage t
  | none => onPageManager PageManager.allocatePage

def pager (client : Option TransactionId) : Pager PageId Payload Err Database where
  access id change db := (accessPage client id fun payload => (change payload, payload)).run db
  allocate db := (allocateFor client).run db

/-- A new page is all zero. -/
def blank : Blank PageId Payload := ⟨.zero, fun id => id.isValid = true⟩

def memory (db : Database) : Memory PageId Payload := fun id =>
  if db.pages.isPageAllocated id then (db.cache.view id).map Page.payload else none

/-- The pool is in order, and where it is clean it agrees with the file. -/
structure Ready (db : Database) : Prop where
  inv : db.Inv
  clean : ∀ id, db.cache.Clean id

/-- On files that work every state of a run is ready. -/
theorem ready_exec {s : System} (h : s.Working) (run : List Step) : Ready (exec System.step s run).db := by
  have hworking : System.Working (exec System.step s run) := exec_keeps (fun _ step h => h.step step) h
  exact ⟨hworking.inv.db, hworking.clean⟩

variable {db db' : Database} {client : Option TransactionId} {id : PageId}

theorem memory_eq (halloc : ∀ other, db'.pages.isPageAllocated other = db.pages.isPageAllocated other)
    (hview : ∀ other, db'.cache.view other = db.cache.view other) : memory db' = memory db := by
  funext other
  rw [memory, memory, halloc, hview]

theorem memory_eq_put {page : Page} (halloc : db.pages.isPageAllocated id = true)
    (hbits : ∀ other, db'.pages.isPageAllocated other = db.pages.isPageAllocated other)
    (hself : db'.cache.view id = some page) (hview : ∀ other, other ≠ id → db'.cache.view other = db.cache.view other) :
    memory db' = (memory db).put id (some page.payload) := by
  funext other
  by_cases hother : other = id
  · subst hother
    rw [Memory.put_some_self, memory, hbits, if_pos halloc, hself, Option.map_some]
  · rw [Memory.put_of_ne hother, memory, memory, hbits, hview other hother]

/-- A call of the pool that writes no page shows in nothing. -/
theorem memory_onCache {α : Type} {x : CacheOp α} (h : Ready db) (hx : Op.Within Cache.Calm x) :
    memory ((onCache x).run db).2 = memory db ∧ Ready ((onCache x).run db).2 := by
  obtain ⟨hinv, hquiet⟩ := hx db.cache h.inv.cache
  have hcache := cache_withCache hquiet.wal
  rw [onCache_run]
  refine ⟨memory_eq (fun other => ?_) fun other => ?_, h.inv.of_quiet hinv hquiet, fun other => ?_⟩
  · exact hquiet.allocated other
  · rw [hcache]
    exact hquiet.view other (h.clean other)
  · rw [hcache]
    exact hquiet.clean other (h.clean other)

/-! ## Accesses -/

theorem allocated_of_accessPage {α : Type} {f : Payload → Option Payload × α} {a : α} (h : db.Inv)
    (hrun : (accessPage client id f).run db = (.ok (some a), db')) : db.pages.isPageAllocated id = true := by
  have hfetch := Cache.fetched_fetchPage h.cache id
  obtain ⟨outcome, db₁, hfirst, hrest⟩ := Op.of_bind_ok hrun
  rw [onCache_run] at hfirst
  generalize (Cache.fetchPage id).run db.cache = result at hfetch hfirst
  cases hfetch with
  | fetched _ _ _ halloc _ _ => exact halloc
  | @failed answer c houtcome _ _ =>
    obtain ⟨rfl, rfl⟩ := Prod.mk.inj hfirst
    cases outcome with
    | none => simp at hrest
    | some frameId => exact absurd rfl (houtcome frameId)

theorem pager_access {change : Payload → Option Payload} {payload : Payload} (h : Ready db)
    (hrun : (pager client).access id change db = (.ok (some payload), db')) :
    memory db id = some payload ∧ memory db' = (memory db).put id (change payload) ∧ Ready db' := by
  have haccess : (accessPage client id fun payload => (change payload, payload)).run db = (.ok (some payload), db') := hrun
  have halloc := allocated_of_accessPage h.inv haccess
  obtain ⟨hends, hinv⟩ := accessPage_cases h.inv client id fun payload => (change payload, payload)
  rw [haccess] at hends hinv
  have hread : ∀ old : Page, db.cache.view id = some old → memory db id = some old.payload := by
    intro old hview
    rw [memory, if_pos halloc, hview, Option.map_some]
  cases hends with
  | failed houtcome _ _ => exact absurd rfl (houtcome payload)
  | read hview hf hquiet _ =>
    obtain ⟨hchange, rfl⟩ := Prod.mk.inj hf
    refine ⟨hread _ hview, ?_, hinv, fun other => hquiet.clean other (h.clean other)⟩
    rw [hchange, Memory.put_none]
    exact memory_eq hquiet.allocated fun other => hquiet.view other (h.clean other)
  | wrote hview hf _ _ hwrote _ | captured _ hview hf _ _ _ _ hwrote _ _ =>
    obtain ⟨hchange, rfl⟩ := Prod.mk.inj hf
    refine ⟨hread _ hview, ?_, hinv, fun other => ?_⟩
    · rw [hchange]
      exact memory_eq_put halloc hwrote.allocated hwrote.self fun other hne => hwrote.view other hne (h.clean other)
    · by_cases hother : other = id
      · exact hother ▸ hwrote.clean_self
      · exact hwrote.clean other hother (h.clean other)

/-- A read shows in nothing, also when it fails. -/
theorem pager_read {change : Payload → Option Payload} (h : Ready db) (hchange : ∀ payload, change payload = none) :
    memory ((pager client).access id change db).2 = memory db ∧ Ready ((pager client).access id change db).2 := by
  obtain ⟨hends, hinv⟩ := accessPage_cases h.inv client id fun payload => (change payload, payload)
  have hquiet : db.cache.Quiet ((accessPage client id fun payload => (change payload, payload)).run db).2.cache := by
    generalize (accessPage client id fun payload => (change payload, payload)).run db = result at hends
    have hnever : ∀ {old after payload : Payload}, (change old, old) ≠ (some after, payload) := by
      intro old after payload heq
      rw [hchange] at heq
      cases heq
    cases hends with
    | failed _ hquiet _ => exact hquiet
    | read _ _ hquiet _ => exact hquiet
    | wrote _ hf _ _ _ _ | captured _ _ hf _ _ _ _ _ _ _ | spoiled _ _ hf _ _ _ _ _ _ => exact absurd hf hnever
  refine ⟨memory_eq hquiet.allocated fun other => hquiet.view other (h.clean other), hinv, fun other => ?_⟩
  exact hquiet.clean other (h.clean other)

/-! ## Allocations -/

/-- The file has one page more, all zero and allocated, and the pool has not moved. -/
structure NewPage (db db' : Database) (id : PageId) : Prop where
  pool : db'.pool = db.pool
  index : id.index = db.pages.pageCount
  pageCount : db'.pages.pageCount = db.pages.pageCount + 1
  slot : ∀ other : PageId, other.index < db.pages.pageCount → db'.pages.slot other = db.pages.slot other
  slot_self : db'.pages.slot id = some ⟨id, 0, .zero⟩
  bit : ∀ other : PageId, other.index < db.pages.pageCount →
    db'.pages.isPageAllocated other = db.pages.isPageAllocated other
  allocated : db'.pages.isPageAllocated id = true

theorem NewPage.view (h : NewPage db db' id) {other : PageId} (hother : other.index < db.pages.pageCount) :
    db'.cache.view other = db.cache.view other := by
  simp only [Cache.view, cache, h.pool, h.slot other hother]

theorem NewPage.not_resident (h : NewPage db db' id) (hinv : db.Inv) : db.pool.pageTable id = none := by
  cases htable : db.pool.pageTable id with
  | none => rfl
  | some f => exact absurd (hinv.cache.resident id f htable) (by rw [h.index]; exact Nat.lt_irrefl _)

theorem NewPage.memory_free (h : NewPage db db' id) : memory db id = none := by
  have hfree : db.pages.isPageAllocated id = false := by
    rw [← Bool.not_eq_true, PageManager.isPageAllocated_iff, h.index]
    exact fun hcontra => Nat.lt_irrefl _ hcontra.2.1
  rw [memory, hfree]
  rfl

theorem NewPage.memory_eq (h : NewPage db db' id) (hinv : db.Inv) :
    memory db' = Function.update (memory db) id (some blank.page) := by
  funext other
  by_cases hother : other = id
  · subst hother
    have hview : db'.cache.view other = some ⟨other, 0, .zero⟩ := by
      simp only [Cache.view, cache, h.pool, h.not_resident hinv, h.slot_self]
    rw [Function.update_self, memory, if_pos h.allocated, hview]
    rfl
  · rw [Function.update_of_ne hother, memory, memory]
    by_cases hold : other.index < db.pages.pageCount
    · rw [h.bit other hold, h.view hold]
    · -- Beyond the new page nothing is allocated, before or after.
      have hindex : other.index ≠ db.pages.pageCount := fun heq => hother (PageId.ext_index (heq.trans h.index.symm))
      rw [if_neg, if_neg]
      · rw [PageManager.isPageAllocated_iff]
        omega
      · rw [PageManager.isPageAllocated_iff, h.pageCount]
        omega

theorem NewPage.clean (h : NewPage db db' id) (hready : Ready db) (other : PageId) : db'.cache.Clean other := by
  intro f hf hdirty
  have htable : db.pool.pageTable other = some f := h.pool ▸ hf
  have hold := hready.inv.cache.resident other f htable
  have hframe : db'.cache.pool.frames f = db.pool.frames f := congrFun (congrArg BufferPool.frames h.pool) f
  rw [hframe] at hdirty ⊢
  exact (h.slot other hold).trans (hready.clean other f htable hdirty)

/-- The page manager's own allocation. -/
theorem newPage_allocatePage (h : db.Inv) (hrun : (onPageManager PageManager.allocatePage).run db = (.ok id, db')) :
    NewPage db db' id ∧ db'.Inv := by
  obtain ⟨outcome, pages, hpages, hgrown, hok, -⟩ := PageManager.allocatePage_cases h.cache.pages
  rw [onPageManager_of_run hpages] at hrun
  obtain ⟨rfl, rfl⟩ := Prod.mk.inj hrun
  obtain ⟨rfl, halloc, hcount, hslot⟩ := hok id rfl
  have hindex : (PageId.ofIndex db.pages.pageCount).index = db.pages.pageCount :=
    PageManager.index_ofIndex_of_le h.cache.pages.capacity
  refine ⟨⟨rfl, hindex, hcount, hgrown.slot, hslot, hgrown.bit, halloc⟩, ?_⟩
  refine ⟨⟨hgrown.wellFormed, h.cache.pool, fun other f hf => ?_⟩, h.settled, h.log, h.transactions⟩
  exact Nat.lt_of_lt_of_le (h.cache.resident other f hf) hgrown.pageCount

/-- A piece that logs or flushes leaves everything but the log. -/
theorem log_of_perform {t : TransactionId} {action : Action} {u : Unit} (h : db.Inv)
    (haction : action = .flushLog ∨ ∃ page, action = .logAllocate page)
    (hrun : (perform t action).run db = (.ok u, db')) : (∃ log, db' = db.withLog log) ∧ db'.Inv := by
  obtain ⟨hpiece, hinv⟩ := perform_cases h t action
  rw [hrun] at hpiece hinv
  refine ⟨?_, hinv⟩
  rcases haction with rfl | ⟨page, rfl⟩
  · cases hpiece with
    | logged htype _ _ => simp [recordOf] at htype
    | flushed _ _ => exact ⟨_, rfl⟩
  · cases hpiece with
    | logged _ _ _ => exact ⟨_, rfl⟩

/-- The allocation of a transaction: reserved, logged, made durable, activated. -/
theorem newPage_transaction {t : TransactionId} (h : db.Inv) (hrun : (allocatePage t).run db = (.ok id, db')) :
    NewPage db db' id ∧ db'.Inv := by
  rw [allocatePage_eq db (h.transactions t).sink] at hrun
  obtain ⟨page, db₁, hreserve, hrest⟩ := Op.of_bind_ok hrun
  obtain ⟨_, db₂, hcall, hpure⟩ := Op.of_bind_ok hrest
  obtain ⟨hpage, rfl⟩ := Prod.mk.inj hpure
  obtain rfl := Except.ok.inj hpage
  rcases PageManager.reservePage_cases db.pages with ⟨e, pages, hpages, -, -⟩ | ⟨pages, hpages, hreserved⟩
  · rw [onPageManager_of_run hpages] at hreserve
    simp at hreserve
  rw [onPageManager_of_run hpages] at hreserve
  obtain ⟨hid, rfl⟩ := Prod.mk.inj hreserve
  obtain rfl := Except.ok.inj hid
  have hindex := PageManager.index_ofIndex_of_le hreserved.room.le
  have hgrown := hreserved.grown h.cache.pages
  have hinv₁ : ({ db with pages := pages } : Database).Inv := by
    refine ⟨⟨hgrown.wellFormed, h.cache.pool, fun other f hf => ?_⟩, h.settled, h.log, h.transactions⟩
    exact Nat.lt_of_lt_of_le (h.cache.resident other f hf) hgrown.pageCount
  simp only [allocateCall, List.forM_eq_forM, List.forM_cons, List.forM_nil] at hcall
  obtain ⟨_, db₃, hlogged, hcall⟩ := Op.of_bind_ok hcall
  obtain ⟨⟨log, rfl⟩, hinv₃⟩ := log_of_perform hinv₁ (Or.inr ⟨_, rfl⟩) hlogged
  obtain ⟨_, db₄, hflushed, hcall⟩ := Op.of_bind_ok hcall
  obtain ⟨⟨log', rfl⟩, hinv₄⟩ := log_of_perform hinv₃ (Or.inl rfl) hflushed
  obtain ⟨_, db₅, hactivated, hcall⟩ := Op.of_bind_ok hcall
  obtain ⟨-, rfl⟩ := Prod.mk.inj hcall
  obtain ⟨hpiece, hinv₅⟩ := perform_cases hinv₄ t (.activate (PageId.ofIndex db.pages.pageCount))
  rw [hactivated] at hpiece hinv₅
  refine ⟨?_, hinv₅⟩
  cases hpiece with
  | logged htype _ _ => simp [recordOf] at htype
  | activated _ hbit =>
    have hne : ∀ other : PageId, other.index < db.pages.pageCount → other ≠ PageId.ofIndex db.pages.pageCount := by
      rintro other hother rfl
      exact absurd hother (by rw [hindex]; exact Nat.lt_irrefl _)
    refine ⟨rfl, hindex, hbit.pageCount.trans hreserved.pageCount, ?_, ?_, ?_, ?_⟩
    · exact fun other hother => (hbit.slot other).trans (hgrown.slot other hother)
    · exact (hbit.slot _).trans ((hreserved.slot _).trans (if_pos rfl))
    · exact fun other hother => (hbit.bit other).trans ((if_neg (hne other hother)).trans (hgrown.bit other hother))
    · exact (hbit.bit _).trans (if_pos rfl)

theorem pager_allocate (h : Ready db) (hrun : (pager client).allocate db = (.ok id, db')) :
    memory db id = none ∧ blank.valid id ∧ memory db' = Function.update (memory db) id (some blank.page) ∧ Ready db' := by
  obtain ⟨hnew, hinv⟩ : NewPage db db' id ∧ db'.Inv := by
    cases client with
    | none => exact newPage_allocatePage h.inv hrun
    | some t => exact newPage_transaction h.inv hrun
  have hvalid := (PageManager.isPageAllocated_iff.mp hnew.allocated).1
  exact ⟨hnew.memory_free, hvalid, hnew.memory_eq h.inv, hinv, hnew.clean h⟩

theorem pager_shows (client : Option TransactionId) : (pager client).Shows blank memory Ready :=
  ⟨pager_access, pager_allocate⟩

end Ddb.Concurrency.Database
