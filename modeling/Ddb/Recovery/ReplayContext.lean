import Ddb.Buffer.SingleClient

/-!
# The replay context

The operations REDO and UNDO have on pages. They append nothing to the log, pin one page at a time, and may be repeated: a
mutation is skipped when the PageLSN has it already, a page is reconstructed once, an allocation is released once.

Recovery is alone on its pool, so what it does to the database is a change of a store: a page image and an allocation bit for
every page id. Each operation is given here as a function on the store, and shown to be carried out by the code on any pool
in which nothing is in the way.

`undo_physical_mutation`, which neither engine calls, is left out, and so is `active_`, which only the destructor clears.
-/

namespace Ddb.Recovery

open Ddb.Lib Ddb.Storage Ddb.Buffer

structure Replay where
  cache : Cache
  reconstructedPages : List PageId

abbrev ReplayOp := Op Err Replay

namespace ReplayContext

def onCache {α : Type} (x : CacheOp α) : ReplayOp α := x.zoom Replay.cache fun r cache => { r with cache := cache }

def onPages {α : Type} (x : PageOp α) : ReplayOp α := onCache (Cache.onPages x)

def redoPageAllocate (id : PageId) : ReplayOp Bool := do
  throwIf (id.isValid = false) (.storage "invalid recovery allocation page id")
  let r ← get
  let materialized ← if id.index = r.cache.pages.pageCount then do
      throwIf (r.cache.contains id = true) (.logic "cannot materialize a resident replay page")
      onPages (PageManager.materializePageForRecovery id)
      pure true
    else do
      throwIf (id.index > r.cache.pages.pageCount) (.storage "recovery allocation would create a physical gap")
      pure false
  onPages (PageManager.validatePhysicalPageForRecovery id)
  (if (← get).cache.pages.isPageAllocated id = false then onPages (PageManager.activateReservedPage id) else pure ())
  return materialized

/-- The kind and the sizes of the images, which the source checks too, are right by their types. -/
def redoPhysicalMutation (lsn : Nat) (mutation : PhysicalMutation) : ReplayOp Bool := do
  throwIf (lsn = 0 ∨ mutation.pageId.isValid = false) (.invalidArgument "invalid recovery physical mutation")
  match ← onCache (Cache.fetchPage mutation.pageId) with
  | none => throw (.runtime "cannot pin recovery mutation page")
  | some frameId =>
    if ((← get).cache.pool.frames frameId).page.lsn ≥ lsn then
      let unpinned ← onCache (Cache.unpinPage mutation.pageId false)
      throwIf (unpinned = false) (.runtime "cannot unpin skipped recovery page")
      return false
    else
      onCache (Cache.writeThrough frameId mutation.afterImage lsn)
      let unpinned ← onCache (Cache.unpinPage mutation.pageId true)
      throwIf (unpinned = false) (.runtime "cannot unpin recovery mutation page")
      return true

def undoPageAllocate (id : PageId) : ReplayOp Bool := do
  throwIf (id.isValid = false) (.storage "invalid undo allocation page id")
  let r ← get
  if id.index ≥ r.cache.pages.pageCount ∨ r.cache.pages.isPageAllocated id = false then return false
  let deleted ← onCache (Cache.deletePage id)
  throwIf (deleted = false) (.logic "cannot release pinned undo allocation page")
  onPages (PageManager.deallocatePage id)
  return true

def reconstructPage (id : PageId) (payload : Payload) (pageLsn : Nat) : ReplayOp Bool := do
  throwIf (id.isValid = false) (.invalidArgument "invalid reconstructed page image")
  let r ← get
  if id ∈ r.reconstructedPages then return false
  match ← onCache (Cache.fetchPage id) with
  | none => throw (.runtime "cannot pin reconstructed page")
  | some frameId =>
    onCache (Cache.writeThrough frameId payload pageLsn)
    let unpinned ← onCache (Cache.unpinPage id true)
    throwIf (unpinned = false) (.runtime "cannot unpin reconstructed page")
    modify fun r => { r with reconstructedPages := id :: r.reconstructedPages }
    return true

end ReplayContext

/-! ## The store -/

/-- What recovery works on. -/
structure Store where
  image : PageId → Option Page
  allocated : PageId → Bool
  reconstructed : List PageId

@[ext] theorem Store.ext {a b : Store} (himage : ∀ p, a.image p = b.image p) (hallocated : ∀ p, a.allocated p = b.allocated p)
    (hreconstructed : a.reconstructed = b.reconstructed) : a = b := by
  cases a
  cases b
  rw [Store.mk.injEq]
  exact ⟨funext himage, funext hallocated, hreconstructed⟩

namespace Store

/-- A mutation, unless the PageLSN has it. -/
def redo (lsn : Nat) (after : Payload) (page : Page) : Page := if lsn ≤ page.lsn then page else ⟨page.id, lsn, after⟩

def onPage (p : PageId) (change : Page → Page) (store : Store) : Store :=
  { store with image := fun q => if q = p then (store.image q).map change else store.image q }

def mark (p : PageId) (value : Bool) (store : Store) : Store :=
  { store with allocated := fun q => if q = p then value else store.allocated q }

/-- An empty page, unless there is one. -/
def provide (p : PageId) (store : Store) : Store :=
  { store with image := fun q => if q = p then some ((store.image q).getD ⟨p, 0, .zero⟩) else store.image q }

/-- A new image, once. -/
def rebuild (p : PageId) (payload : Payload) (lsn : Nat) (store : Store) : Store :=
  if p ∈ store.reconstructed then store
  else { store with
    image := fun q => if q = p then some ⟨p, lsn, payload⟩ else store.image q
    reconstructed := p :: store.reconstructed }

end Store

namespace Replay

variable {r r₁ r' : Replay} {id : PageId}

def store (r : Replay) : Store := ⟨r.cache.view, r.cache.pages.isPageAllocated, r.reconstructedPages⟩

/-- The code has changed the store as it should, and nothing is in the way of the next operation. -/
structure Became (r r' : Replay) (f : Store → Store) : Prop where
  solo : r'.cache.Solo
  wal : r'.cache.walDurability = r.cache.walDurability
  pageCount : r'.cache.pages.pageCount = r.cache.pages.pageCount
  store : r'.store = f r.store

theorem Became.refl (h : r.cache.Solo) : Became r r fun store => store := ⟨h, rfl, rfl, rfl⟩

theorem Became.trans {f g : Store → Store} (h : Became r r₁ f) (h' : Became r₁ r' g) : Became r r' (g ∘ f) :=
  ⟨h'.solo, h'.wal.trans h.wal, h'.pageCount.trans h.pageCount, by rw [h'.store, h.store]; rfl⟩

/-- The page as the file has it. -/
def disk (r : Replay) (p : PageId) : Option Page := r.cache.pages.slot p

/-- The slots of the file are as they were, or have received the page as it stood in the store. -/
def Drains (r r' : Replay) : Prop := ∀ p, r'.disk p = r.disk p ∨ r'.disk p = r.store.image p

theorem onCache_run {α : Type} {x : CacheOp α} {outcome : Except Err α} {c : Cache} (h : x.run r.cache = (outcome, c)) :
    (ReplayContext.onCache x).run r = (outcome, { r with cache := c }) := by
  change ((x.run r.cache).1, ({ r with cache := (x.run r.cache).2 } : Replay)) = _
  rw [h]

theorem onPages_run {α : Type} {x : PageOp α} {outcome : Except Err α} {pages : PageManager}
    (h : x.run r.cache.pages = (outcome, pages)) :
    (ReplayContext.onPages x).run r = (outcome, { r with cache := { r.cache with pages := pages } }) := by
  apply onCache_run
  change ((x.run r.cache.pages).1, ({ r.cache with pages := (x.run r.cache.pages).2 } : Cache)) = _
  rw [h]

theorem became_of_quiet {c : Cache} (h : r.cache.Solo) (hsolo : c.Solo) (hquiet : Cache.Quiet r.cache c) :
    Became r { r with cache := c } fun store => store :=
  ⟨hsolo, hquiet.wal, hquiet.pageCount, Store.ext (fun p => hquiet.view p (h.clean p)) hquiet.allocated rfl⟩

theorem drains_of_quiet {c : Cache} (h : r.cache.Solo) (hquiet : Cache.Quiet r.cache c) : Drains r { r with cache := c } := by
  intro p
  refine (hquiet.disk p (h.clean p)).imp_right ?_
  rintro ⟨page, hview, hslot, -⟩
  exact hslot.trans hview.symm

theorem drains_of_rewrote {c : Cache} {page : Page} (h : r.cache.Solo) (hwrote : Cache.Rewrote r.cache c id page) :
    Drains r { r with cache := c } := by
  intro p
  have hdisk : c.pages.slot p = r.cache.pages.slot p ∨
      ∃ page, r.cache.view p = some page ∧ c.pages.slot p = some page ∧ Cache.LsnDurable r.cache.walDurability page.lsn := by
    by_cases heq : p = id
    · exact heq ▸ hwrote.disk_self (h.clean id)
    · exact hwrote.disk p heq (h.clean p)
  refine hdisk.imp_right ?_
  rintro ⟨page, hview, hslot, -⟩
  exact hslot.trans hview.symm

theorem became_of_rewrote {c : Cache} {page : Page} (h : r.cache.Solo) (hsolo : c.Solo)
    (hwrote : Cache.Rewrote r.cache c id page) {old : Page} (hold : r.cache.view id = some old) {change : Page → Page}
    (hchange : change old = page) : Became r { r with cache := c } (Store.onPage id change) := by
  refine ⟨hsolo, hwrote.wal, hwrote.pageCount, Store.ext (fun p => ?_) hwrote.allocated rfl⟩
  change c.view p = if p = id then (r.cache.view p).map change else r.cache.view p
  by_cases heq : p = id
  · subst heq
    rw [if_pos rfl, hwrote.self, hold, Option.map_some, hchange]
  · rw [if_neg heq, hwrote.view p heq (h.clean p)]

/-- The page of an allocated id is there, under its id. -/
theorem view_of_allocated (h : r.cache.Solo) (halloc : r.cache.pages.isPageAllocated id = true) :
    ∃ page, r.cache.view id = some page ∧ page.id = id := by
  cases hf : r.cache.pool.pageTable id with
  | some f => exact ⟨_, Cache.view_resident hf, (h.inv.pool.table_frame id f hf).2⟩
  | none =>
    rw [Cache.view_absent hf]
    exact h.inv.pages.slot_isSome (PageManager.isPageAllocated_iff.mp halloc).2.1

theorem redoPhysicalMutation_run (h : r.cache.Solo) {lsn : Nat} (mutation : PhysicalMutation) (hpos : 0 < lsn)
    (halloc : r.cache.pages.isPageAllocated mutation.pageId = true)
    (hdurable : Cache.LsnDurable r.cache.walDurability lsn) :
    ∃ applied r', (ReplayContext.redoPhysicalMutation lsn mutation).run r = (.ok applied, r') ∧
      Became r r' (Store.onPage mutation.pageId (Store.redo lsn mutation.afterImage)) ∧ Drains r r' := by
  have hvalid := (PageManager.isPageAllocated_iff.mp halloc).1
  obtain ⟨old, hold, hid⟩ := view_of_allocated h halloc
  obtain ⟨f, c, hfetch, hheld⟩ := h.fetchPage halloc
  have hframe : (c.pool.frames f).page = old := by
    have hview := hheld.view
    rw [hold, Cache.view_resident hheld.table] at hview
    exact Option.some.inj hview
  rw [ReplayContext.redoPhysicalMutation, Op.throwIf_bind_neg (by simp [hvalid, hpos.ne']),
    Op.bind_ok (onCache_run hfetch)]
  dsimp only
  rw [Op.get_bind]
  dsimp only
  rw [hframe]
  by_cases hnew : lsn ≤ old.lsn
  · obtain ⟨c', hunpin, hsolo, hquiet⟩ := hheld.release h
    refine ⟨false, { r with cache := c' }, ?_, ?_, drains_of_quiet h hquiet⟩
    · rw [if_pos hnew, Op.bind_ok (onCache_run (r := { r with cache := c }) hunpin), Op.throwIf_bind_neg (by simp)]
      rfl
    · have hbecame := became_of_quiet h hsolo hquiet
      refine ⟨hbecame.solo, hbecame.wal, hbecame.pageCount, ?_⟩
      rw [hbecame.store]
      refine Store.ext (fun p => ?_) (fun _ => rfl) rfl
      change r.cache.view p = if p = mutation.pageId then (r.cache.view p).map _ else r.cache.view p
      split
      · rename_i heq
        rw [heq, hold, Option.map_some, Store.redo, if_pos hnew]
      · rfl
  · obtain ⟨c', hwrite, hunpin, hsolo, hwrote⟩ := hheld.write h halloc mutation.afterImage hdurable
    refine ⟨true, { r with cache := c' }, ?_, became_of_rewrote h hsolo hwrote hold ?_, drains_of_rewrote h hwrote⟩
    · rw [if_neg hnew, Op.bind_ok (onCache_run (r := { r with cache := c }) hwrite)]
      rw [Op.bind_ok (onCache_run (r := { r with cache := c.written f ⟨mutation.pageId, lsn, mutation.afterImage⟩ }) hunpin),
        Op.throwIf_bind_neg (by simp)]
      rfl
    · rw [Store.redo, if_neg hnew, hid]

theorem reconstructPage_run (h : r.cache.Solo) (payload : Payload) {lsn : Nat}
    (halloc : r.cache.pages.isPageAllocated id = true) (hdurable : Cache.LsnDurable r.cache.walDurability lsn) :
    ∃ applied r', (ReplayContext.reconstructPage id payload lsn).run r = (.ok applied, r') ∧
      Became r r' (Store.rebuild id payload lsn) := by
  have hvalid := (PageManager.isPageAllocated_iff.mp halloc).1
  rw [ReplayContext.reconstructPage, Op.throwIf_bind_neg (by simp [hvalid]), Op.get_bind]
  by_cases honce : id ∈ r.reconstructedPages
  · refine ⟨false, r, by rw [if_pos honce]; rfl, h, rfl, rfl, ?_⟩
    exact (if_pos honce).symm
  · obtain ⟨f, c, hfetch, hheld⟩ := h.fetchPage halloc
    obtain ⟨c', hwrite, hunpin, hsolo, hwrote⟩ := hheld.write h halloc payload hdurable
    refine ⟨true, ⟨c', id :: r.reconstructedPages⟩, ?_, hsolo, hwrote.wal, hwrote.pageCount, ?_⟩
    · rw [if_neg honce, Op.bind_ok (onCache_run hfetch)]
      dsimp only
      rw [Op.bind_ok (onCache_run (r := { r with cache := c }) hwrite)]
      rw [Op.bind_ok (onCache_run (r := { r with cache := c.written f ⟨id, lsn, payload⟩ }) hunpin),
        Op.throwIf_bind_neg (by simp), Op.modify_bind]
      rfl
    · refine Eq.trans ?_ (if_neg honce).symm
      refine Store.ext (fun p => ?_) hwrote.allocated rfl
      change c'.view p = if p = id then some ⟨id, lsn, payload⟩ else r.cache.view p
      by_cases heq : p = id
      · subst heq
        rw [if_pos rfl, hwrote.self]
      · rw [if_neg heq, hwrote.view p heq (h.clean p)]

/-- A bit of the catalog is changed; the page is not dirty in the pool if it is cleared. -/
theorem became_of_bitSet (h : r.cache.Solo) {pages : PageManager} {value : Bool}
    (hbit : r.cache.pages.BitSet pages id value) (hfree : value = true ∨ ¬ r.cache.DirtyAt id) :
    Became r { r with cache := { r.cache with pages := pages } } (Store.mark id value) := by
  have hview : ∀ p, Cache.view { r.cache with pages := pages } p = r.cache.view p := by
    intro p
    rw [Cache.view, Cache.view]
    simp only [hbit.slot]
  refine ⟨⟨?_, hbit.synced h.synced, h.settled, ?_, h.unpinned, h.room, ?_⟩, rfl, hbit.pageCount,
    Store.ext hview hbit.bit rfl⟩
  · refine ⟨hbit.wellFormed, h.inv.pool, fun p f hf => ?_⟩
    exact Nat.lt_of_lt_of_eq (h.inv.resident p f hf) hbit.pageCount.symm
  · intro p f hf hclean
    change pages.slot p = _
    rw [hbit.slot]
    exact h.clean p f hf hclean
  · intro p page hdirty himage
    rw [hview] at himage
    obtain ⟨halloc, hdurable⟩ := h.writable p page hdirty himage
    refine ⟨?_, hdurable⟩
    change pages.isPageAllocated p = true
    rw [hbit.bit]
    split
    · rename_i heq
      exact hfree.resolve_right fun hnot => hnot (heq ▸ hdirty)
    · exact halloc

theorem validatePhysicalPage_run {pm : PageManager} (hwf : pm.WellFormed) (hsynced : pm.Synced) (hvalid : id.isValid = true)
    (hindex : id.index < pm.pageCount) :
    (PageManager.validatePhysicalPageForRecovery id).run pm = (.ok (), pm.answered) := by
  obtain ⟨page, hslot, -⟩ := hwf.slot_isSome hindex
  have hblock := (PageManager.slot_eq_some hslot).2.1
  have hread := PageManager.access_run "read recovery page validation" (fun file => file) pm
  rw [if_neg hsynced.not_failsNext] at hread
  rw [PageManager.validatePhysicalPageForRecovery, Op.bind_ok (PageManager.validateAllocated_run hwf hvalid hindex),
    Op.bind_ok (PageManager.offsetFor_run hvalid (Nat.lt_of_lt_of_le hindex hwf.capacity)), Op.bind_ok hread, Op.get_bind]
  dsimp only
  rw [PageManager.answered_block, hblock]
  exact Op.throwIf_run_neg (by simp) _

/-- What follows in `redo_page_allocate` once the slot is in the file. -/
theorem activate_run (h : r.cache.Solo) (hvalid : id.isValid = true) (hindex : id.index < r.cache.pages.pageCount)
    (materialized : Bool) :
    ∃ r', (do
        ReplayContext.onPages (PageManager.validatePhysicalPageForRecovery id)
        (if (← get).cache.pages.isPageAllocated id = false then
          ReplayContext.onPages (PageManager.activateReservedPage id) else pure ())
        return materialized : ReplayOp Bool).run r = (.ok materialized, r') ∧
      Became r r' (Store.mark id true) ∧ ∀ p, r'.disk p = r.disk p := by
  have hanswered : r.cache.pages.Unchanged r.cache.pages.answered := ⟨rfl, rfl, rfl, fun _ => rfl, fun hs => hs.answered⟩
  have hquiet : Cache.Quiet r.cache { r.cache with pages := r.cache.pages.answered } := .of_pages hanswered rfl rfl
  have hsolo : Cache.Solo { r.cache with pages := r.cache.pages.answered } :=
    h.of_quiet (h.inv.of_pages hanswered rfl) hquiet h.unpinned
  have hfirst := became_of_quiet h hsolo hquiet
  rw [Op.bind_ok (onPages_run (validatePhysicalPage_run h.inv.pages h.synced hvalid hindex)), Op.get_bind]
  dsimp only
  rw [PageManager.isPageAllocated_answered]
  by_cases halloc : r.cache.pages.isPageAllocated id = false
  · rw [if_pos halloc]
    rcases @PageManager.activateReservedPage_cases _ id hfirst.solo.inv.pages with
      ⟨e, -, hset⟩ | ⟨outcome, pages, hrun, -, -, hbit, hworks⟩
    · have hset' := hset hvalid hindex
      rw [PageManager.isPageAllocated_answered, halloc] at hset'
      cases hset'
    · obtain rfl := hworks hfirst.solo.synced
      refine ⟨_, by rw [Op.bind_ok (onPages_run hrun)]; rfl, ?_, ?_⟩
      · exact hfirst.trans (became_of_bitSet hfirst.solo hbit (Or.inl rfl))
      · exact hbit.slot
  · rw [if_neg halloc]
    refine ⟨_, by rw [pure_bind]; rfl, ⟨hfirst.solo, hfirst.wal, hfirst.pageCount, ?_⟩, fun _ => rfl⟩
    rw [hfirst.store]
    refine Store.ext (fun _ => rfl) (fun p => ?_) rfl
    change r.cache.pages.isPageAllocated p = if p = id then true else r.cache.pages.isPageAllocated p
    split
    · rename_i heq
      rw [heq]
      exact eq_true_of_ne_false halloc
    · rfl

/-- The allocation of a page whose slot is in the file. -/
theorem redoPageAllocate_run (h : r.cache.Solo) (hvalid : id.isValid = true) (hindex : id.index < r.cache.pages.pageCount) :
    ∃ r', (ReplayContext.redoPageAllocate id).run r = (.ok false, r') ∧ Became r r' (Store.mark id true) ∧
      ∀ p, r'.disk p = r.disk p := by
  rw [ReplayContext.redoPageAllocate, Op.throwIf_bind_neg (by simp [hvalid]), Op.get_bind, if_neg hindex.ne,
    Op.throwIf_bind_neg hindex.not_gt, pure_bind]
  exact activate_run h hvalid hindex false

/-- An allocation at the end of the file gives the page a slot. -/
structure Grew (r r' : Replay) (id : PageId) : Prop where
  solo : r'.cache.Solo
  wal : r'.cache.walDurability = r.cache.walDurability
  pageCount : r'.cache.pages.pageCount = r.cache.pages.pageCount + 1
  store : r'.store = (r.store.provide id).mark id true
  disk : ∀ p, r'.disk p = if p = id then some ⟨id, 0, .zero⟩ else r.disk p

theorem absent_of_beyond (h : r.cache.Solo) (hindex : r.cache.pages.pageCount ≤ id.index) : r.cache.pool.pageTable id = none := by
  cases hf : r.cache.pool.pageTable id with
  | none => rfl
  | some f => exact absurd (h.inv.resident id f hf) hindex.not_gt

theorem view_of_beyond (h : r.cache.Solo) (hindex : r.cache.pages.pageCount ≤ id.index) : r.cache.view id = none := by
  rw [Cache.view_absent (absent_of_beyond h hindex), PageManager.slot, if_neg hindex.not_gt]

/-- The slot alone, its bit still clear. -/
theorem solo_of_reserved (h : r.cache.Solo) {pages : PageManager} (hreserved : r.cache.pages.Reserved pages)
    (hid : id = PageId.ofIndex r.cache.pages.pageCount) :
    Cache.Solo { r.cache with pages := pages } ∧
      ∀ p, Cache.view { r.cache with pages := pages } p = (r.store.provide id).image p := by
  have hindex : id.index = r.cache.pages.pageCount := by
    rw [hid]
    exact PageManager.index_ofIndex_of_le hreserved.room.le
  have habsent := absent_of_beyond h hindex.ge
  have hslot : ∀ p, p ≠ id → pages.slot p = r.cache.pages.slot p := by
    intro p hp
    rw [hreserved.slot, if_neg (hid ▸ hp)]
  have hview : ∀ p, p ≠ id → Cache.view { r.cache with pages := pages } p = r.cache.view p := by
    intro p hp
    rw [Cache.view, Cache.view]
    simp only [hslot p hp]
  refine ⟨⟨⟨hreserved.wellFormed h.inv.pages, h.inv.pool, ?_⟩, hreserved.synced h.synced, h.settled, ?_, h.unpinned, h.room, ?_⟩,
    ?_⟩
  · intro p f hf
    refine Nat.lt_of_lt_of_le (h.inv.resident p f hf) ?_
    change r.cache.pages.pageCount ≤ pages.pageCount
    rw [hreserved.pageCount]
    exact Nat.le_succ _
  · intro p f hf hclean
    have hp : p ≠ id := by
      rintro rfl
      cases habsent.symm.trans hf
    change pages.slot p = _
    rw [hslot p hp]
    exact h.clean p f hf hclean
  · rintro p page ⟨f, hf, hdirty⟩ himage
    have hp : p ≠ id := by
      rintro rfl
      cases habsent.symm.trans hf
    rw [hview p hp] at himage
    change pages.isPageAllocated p = true ∧ _
    rw [hreserved.isPageAllocated h.inv.pages]
    exact h.writable p page ⟨f, hf, hdirty⟩ himage
  · intro p
    rw [Store.provide]
    dsimp only
    split
    · rename_i hp
      subst hp
      have hnew : Cache.view { r.cache with pages := pages } p = pages.slot p := Cache.view_absent habsent
      rw [hnew, hreserved.slot, if_pos hid]
      change _ = some ((r.cache.view p).getD ⟨p, 0, .zero⟩)
      rw [view_of_beyond h hindex.ge]
      rfl
    · rename_i hp
      exact hview p hp

theorem redoPageAllocate_grows (h : r.cache.Solo) (hvalid : id.isValid = true) (hindex : id.index = r.cache.pages.pageCount)
    (hroom : id.index < PageManager.kCatalogBits) :
    ∃ r', (ReplayContext.redoPageAllocate id).run r = (.ok true, r') ∧ Grew r r' id := by
  have hid : id = PageId.ofIndex r.cache.pages.pageCount := by rw [← hindex, PageId.ofIndex_index]
  rcases PageManager.reservePage_cases r.cache.pages with ⟨e, pm, -, -, hfull⟩ | ⟨pages, hreserve, hreserved⟩
  · exact absurd h.synced (hfull (hindex ▸ hroom))
  have hmaterialize : (PageManager.materializePageForRecovery id).run r.cache.pages = (.ok (), pages) := by
    rw [PageManager.materializePageForRecovery, Op.throwIf_bind_neg (by simp [hvalid]), Op.get_bind,
      Op.throwIf_bind_neg (by omega), Op.throwIf_bind_neg (by omega), Op.bind_ok hreserve]
    exact Op.throwIf_run_neg (not_not.mpr hid.symm) _
  obtain ⟨hsolo, hview⟩ := solo_of_reserved h hreserved hid
  obtain ⟨r', hrun, hbecame, hdisk⟩ := @activate_run { r with cache := { r.cache with pages := pages } } id hsolo hvalid
    (by rw [hindex]; exact hreserved.pageCount ▸ Nat.lt_succ_self _) true
  refine ⟨r', ?_, hbecame.solo, hbecame.wal, hbecame.pageCount.trans hreserved.pageCount, ?_, ?_⟩
  · rw [ReplayContext.redoPageAllocate, Op.throwIf_bind_neg (by simp [hvalid]), Op.get_bind, if_pos hindex,
      Op.throwIf_bind_neg (by simp [Cache.contains, absent_of_beyond h hindex.ge]), Op.bind_ok (onPages_run hmaterialize),
      pure_bind]
    exact hrun
  · rw [hbecame.store]
    exact congrArg (Store.mark id true) (Store.ext hview (hreserved.isPageAllocated h.inv.pages) rfl)
  · intro p
    rw [hdisk]
    refine (hreserved.slot p).trans ?_
    rw [← hid]
    split
    · rename_i hp
      rw [hp]
    · rfl

/-- REDO puts no page behind the end of the file but the next one. -/
theorem redoPageAllocate_gap (hvalid : id.isValid = true) (hindex : r.cache.pages.pageCount < id.index) :
    (ReplayContext.redoPageAllocate id).run r =
      (.error (.storage "recovery allocation would create a physical gap"), r) := by
  rw [ReplayContext.redoPageAllocate, Op.throwIf_bind_neg (by simp [hvalid]), Op.get_bind, if_neg hindex.ne',
    Op.throwIf_bind_pos hindex]

theorem redoPageAllocate_full (hvalid : id.isValid = true) (hindex : id.index = r.cache.pages.pageCount)
    (hfull : PageManager.kCatalogBits ≤ id.index) : ∃ e, (ReplayContext.redoPageAllocate id).run r = (.error e, r) := by
  rw [ReplayContext.redoPageAllocate, Op.throwIf_bind_neg (by simp [hvalid]), Op.get_bind, if_pos hindex]
  by_cases hcontains : r.cache.contains id = true
  · exact ⟨_, Op.throwIf_bind_pos hcontains _ _⟩
  · have hmaterialize : (PageManager.materializePageForRecovery id).run r.cache.pages =
        (.error (.storage "allocation catalog capacity exhausted"), r.cache.pages) := by
      rw [PageManager.materializePageForRecovery, Op.throwIf_bind_neg (by simp [hvalid]), Op.get_bind,
        Op.throwIf_bind_neg (by omega), Op.throwIf_bind_neg (by omega)]
      refine Op.bind_error ?_
      rw [PageManager.reservePage, Op.get_bind, Op.throwIf_bind_pos (by omega)]
    exact ⟨_, by rw [Op.throwIf_bind_neg hcontains, Op.bind_error (onPages_run hmaterialize)]⟩

/-- REDO writes no page that is not allocated. -/
theorem redoPhysicalMutation_unallocated (lsn : Nat) {mutation : PhysicalMutation}
    (halloc : r.cache.pages.isPageAllocated mutation.pageId = false) :
    ∃ e, (ReplayContext.redoPhysicalMutation lsn mutation).run r = (.error e, r) := by
  rw [ReplayContext.redoPhysicalMutation]
  by_cases hbad : lsn = 0 ∨ mutation.pageId.isValid = false
  · exact ⟨_, Op.throwIf_bind_pos hbad _ _⟩
  · have hfetch : (Cache.fetchPage mutation.pageId).run r.cache =
        (.error (.storage "cannot fetch logically unallocated page"), r.cache) := by
      rw [Cache.fetchPage, Op.get_bind, if_neg (not_or.mp hbad).2, Op.throwIf_bind_pos halloc]
    exact ⟨_, by rw [Op.throwIf_bind_neg hbad, Op.bind_error (onCache_run hfetch)]⟩

/-- A page that has no bit to clear. -/
theorem mark_of_skipped (h : id.index ≥ r.cache.pages.pageCount ∨ r.cache.pages.isPageAllocated id = false) :
    r.store.mark id false = r.store := by
  refine Store.ext (fun _ => rfl) (fun p => ?_) rfl
  change (if p = id then false else r.cache.pages.isPageAllocated p) = r.cache.pages.isPageAllocated p
  split
  · rename_i heq
    subst heq
    rcases h with hbeyond | hclear
    · rw [eq_comm, ← Bool.not_eq_true, PageManager.isPageAllocated_iff]
      exact fun hall => absurd hall.2.1 hbeyond.not_gt
    · exact hclear.symm
  · rfl

theorem undoPageAllocate_run (h : r.cache.Solo) (hvalid : id.isValid = true) :
    ∃ released r', (ReplayContext.undoPageAllocate id).run r = (.ok released, r') ∧ Became r r' (Store.mark id false) := by
  rw [ReplayContext.undoPageAllocate, Op.throwIf_bind_neg (by simp [hvalid]), Op.get_bind]
  by_cases hskip : id.index ≥ r.cache.pages.pageCount ∨ r.cache.pages.isPageAllocated id = false
  · rw [if_pos hskip]
    exact ⟨false, r, rfl, h, rfl, rfl, (mark_of_skipped hskip).symm⟩
  · rw [if_neg hskip]
    obtain ⟨hindex, halloc⟩ := not_or.mp hskip
    obtain ⟨c, hdelete, hsolo, hquiet, habsent⟩ := h.deletePage id
    have hfirst := became_of_quiet h hsolo hquiet
    have halloc' : c.pages.isPageAllocated id = true := by
      rw [hquiet.allocated]
      exact eq_true_of_ne_false halloc
    rw [Op.bind_ok (onCache_run hdelete), Op.throwIf_bind_neg (by simp)]
    rcases @PageManager.deallocatePage_cases _ id hsolo.inv.pages with
      ⟨e, -, hclear⟩ | ⟨outcome, pages, hrun, -, hbit, hworks⟩
    · rw [halloc'] at hclear
      cases hclear
    · obtain rfl := hworks hsolo.synced
      refine ⟨true, _, by rw [Op.bind_ok (onPages_run (r := { r with cache := c }) hrun)]; rfl, ?_⟩
      refine hfirst.trans (became_of_bitSet hfirst.solo hbit (Or.inr ?_))
      rintro ⟨f, hf, -⟩
      change c.pool.pageTable id = some f at hf
      rw [habsent] at hf
      cases hf

end Replay

/-- A fresh pool and a fresh context, with a log that is durable through `durableLsn`. -/
def fresh (pages : PageManager) (capacity durableLsn : Nat) : Replay := ⟨⟨pages, .create capacity, some durableLsn, []⟩, []⟩

theorem solo_fresh {pages : PageManager} (hwf : pages.WellFormed) (hsynced : pages.Synced) {capacity durableLsn : Nat}
    (hcapacity : 0 < capacity) : (fresh pages capacity durableLsn).cache.Solo where
  inv := ⟨hwf, BufferPool.inv_create capacity, nofun⟩
  synced := hsynced
  settled := fun _ => rfl
  clean := fun _ _ => nofun
  unpinned := fun _ => rfl
  room := hcapacity
  writable := by
    rintro id page ⟨f, hf, -⟩
    cases hf

theorem view_fresh (pages : PageManager) (capacity durableLsn : Nat) (p : PageId) :
    (fresh pages capacity durableLsn).cache.view p = pages.slot p := rfl

end Ddb.Recovery
