import Ddb.Buffer.Flush
import Ddb.Storage.LogManager

/-!
# Page images

A mutation context takes the image of a page (`image`) and a rollback puts one back (`apply`), both through the pool: the
page is fetched, which may evict another one, and unpinned again. What such a call does to the pages other than its own is
quiet; what it does to its own page is said by `Rewrote`. `Moved` is what is left when the page itself is in disorder.
-/

namespace Ddb.Storage

open Ddb.Lib Ddb.Buffer

/-- `image`: payload and PageLSN of a page. -/
def image (id : PageId) : CacheOp Page := do
  match ← Cache.fetchPage id with
  | none => throw (.runtime "cannot fetch mutation page")
  | some frameId =>
    let page := ((← get).pool.frames frameId).page
    let unpinned ← Cache.unpinPage id false
    throwIf (unpinned = false) (.runtime "cannot unpin mutation page")
    return page

/-- A client writes the payload of a page it has pinned. -/
def writePayload (frameId : FrameId) (bytes : Payload) : CacheOp Unit :=
  Cache.modifyFrame frameId fun frame => { frame with page := frame.page.withPayload bytes }

/-- `apply`. -/
def applyImage (id : PageId) (bytes : Payload) : CacheOp Unit := do
  match ← Cache.fetchPage id with
  | none => throw (.runtime "cannot fetch replay page")
  | some frameId =>
    writePayload frameId bytes
    let unpinned ← Cache.unpinPage id true
    throwIf (unpinned = false) (.runtime "cannot unpin replay page")

def applyBeforeImage (mutation : PhysicalMutation) : CacheOp Unit := applyImage mutation.pageId mutation.beforeImage

end Ddb.Storage

namespace Ddb.Buffer.Cache

open Ddb.Lib Ddb.Storage

variable {c c₁ c' : Cache} {f : FrameId} {id : PageId} {page : Page}

/-- A call that changes at most one page. -/
structure Moved (c c' : Cache) (id : PageId) : Prop where
  pageCount : c'.pages.pageCount = c.pages.pageCount
  allocated : ∀ other, c'.pages.isPageAllocated other = c.pages.isPageAllocated other
  wal : c'.walDurability = c.walDurability
  synced : c.pages.Synced → c'.pages.Synced
  settled : c.Settled → c'.Settled
  capacity : c'.pool.capacity = c.pool.capacity
  dirty : ∀ other, c'.DirtyAt other → other = id ∨ c.DirtyAt other
  view : ∀ other, other ≠ id → c.Clean other → c'.view other = c.view other
  clean : ∀ other, other ≠ id → c.Clean other → c'.Clean other
  disk : ∀ other, other ≠ id → c.Clean other → c'.pages.slot other = c.pages.slot other ∨
    ∃ page, c.view other = some page ∧ c'.pages.slot other = some page ∧ LsnDurable c.walDurability page.lsn

/-- A call that leaves a page with this image, in the pool; the slot of the page may have been written back before. -/
structure Rewrote (c c' : Cache) (id : PageId) (page : Page) : Prop extends Moved c c' id where
  self : c'.view id = some page
  clean_self : c'.Clean id
  disk_self : c.Clean id → c'.pages.slot id = c.pages.slot id ∨
    ∃ page, c.view id = some page ∧ c'.pages.slot id = some page ∧ LsnDurable c.walDurability page.lsn

/-- What was written back before the call is not undone by it. -/
theorem Quiet.then_disk (h : Quiet c c₁) (hc : c.Clean id) (h' : c'.pages.slot id = c₁.pages.slot id ∨
      ∃ page, c₁.view id = some page ∧ c'.pages.slot id = some page ∧ LsnDurable c₁.walDurability page.lsn) :
    c'.pages.slot id = c.pages.slot id ∨
      ∃ page, c.view id = some page ∧ c'.pages.slot id = some page ∧ LsnDurable c.walDurability page.lsn := by
  rcases h' with hsame | ⟨page, hview, hslot, hdurable⟩
  · rw [hsame]
    exact h.disk id hc
  · exact Or.inr ⟨page, (h.view id hc).symm.trans hview, hslot, h.wal ▸ hdurable⟩

theorem Quiet.then_moved (h : Quiet c c₁) (h' : Moved c₁ c' id) : Moved c c' id where
  pageCount := h'.pageCount.trans h.pageCount
  allocated := fun other => (h'.allocated other).trans (h.allocated other)
  wal := h'.wal.trans h.wal
  synced := fun hs => h'.synced (h.synced hs)
  settled := fun hs => h'.settled (h.settled hs)
  capacity := h'.capacity.trans h.capacity
  dirty := fun other hd => (h'.dirty other hd).imp_right (h.dirty other)
  view := fun other hne hc => (h'.view other hne (h.clean other hc)).trans (h.view other hc)
  clean := fun other hne hc => h'.clean other hne (h.clean other hc)
  disk := fun other hne hc => h.then_disk hc (h'.disk other hne (h.clean other hc))

theorem Wrote.moved (h : Wrote c c' id page) : Moved c c' id where
  pageCount := by rw [h.pages]
  allocated := fun other => by rw [h.pages]
  wal := h.wal
  synced := by rw [h.pages]; exact fun hs => hs
  settled := h.settled
  capacity := h.capacity
  dirty := h.dirty
  view := fun other hne _ => (h.view other).trans (if_neg hne)
  clean := fun other _ hc => h.clean other (Or.inl hc)
  disk := fun other _ _ => Or.inl (by rw [h.pages])

theorem Quiet.then_wrote (h : Quiet c c₁) (h' : Wrote c₁ c' id page) : Rewrote c c' id page where
  toMoved := h.then_moved h'.moved
  self := (h'.view id).trans (if_pos rfl)
  clean_self := h'.clean id (Or.inr rfl)
  disk_self := by
    rw [h'.pages]
    exact h.disk id

theorem Quiet.then_rewrote (h : Quiet c c₁) (h' : Rewrote c₁ c' id page) : Rewrote c c' id page where
  toMoved := h.then_moved h'.toMoved
  self := h'.self
  clean_self := h'.clean_self
  disk_self := fun hc => h.then_disk hc (h'.disk_self (h.clean id hc))

theorem Rewrote.then_wrote {page' : Page} (h : Rewrote c c₁ id page) (h' : Wrote c₁ c' id page') :
    Rewrote c c' id page' := by
  refine ⟨⟨?_, ?_, h'.wal.trans h.wal, ?_, fun hs => h'.settled (h.settled hs), h'.capacity.trans h.capacity, ?_, ?_, ?_, ?_⟩,
    (h'.view id).trans (if_pos rfl), h'.clean id (Or.inr rfl), ?_⟩
  · rw [h'.pages, h.pageCount]
  · intro other
    rw [h'.pages, h.allocated]
  · rw [h'.pages]
    exact h.synced
  · intro other hd
    rcases h'.dirty other hd with heq | hd
    · exact Or.inl heq
    · exact h.dirty other hd
  · intro other hne hc
    rw [h'.view, if_neg hne, h.view other hne hc]
  · intro other hne hc
    exact h'.clean other (Or.inl (h.clean other hne hc))
  · intro other hne hc
    rw [h'.pages]
    exact h.disk other hne hc
  · rw [h'.pages]
    exact h.disk_self

/-- A client writes through its pointer and has not unpinned the page yet. -/
theorem Moved.of_reframe (h : c.Inv none) (hf : c.pool.pageTable id = some f) (frame : Frame)
    (hpending : frame.pendingMutations = (c.pool.frames f).pendingMutations)
    (lru : List FrameId) : Moved c (c.reframe f frame lru) id := by
  obtain ⟨hsettled, hdirty, helse⟩ := reframe_elsewhere h hf frame hpending lru
  exact ⟨rfl, fun _ => rfl, rfl, fun hs => hs, hsettled, rfl, hdirty, fun other hne _ => (helse other hne).1,
    fun other hne => (helse other hne).2, fun _ _ _ => Or.inl rfl⟩

/-! ## Fetching the page one writes -/

/-- What is fetched is the page as it was seen before, in order or not. -/
theorem fetchPage_view (h : c.Inv none) (hrun : (fetchPage id).run c = (.ok (some f), c')) : c'.view id = c.view id := by
  obtain ⟨outcome, c₁, hrun', -, hquiet, -⟩ := fetchPage_cases h id
  obtain ⟨-, rfl⟩ := Prod.mk.inj (hrun'.symm.trans hrun)
  cases hg : c.pool.pageTable id with
  | none => exact hquiet.view id fun g hg' => by simp [hg] at hg'
  | some g =>
    -- A hit moves no frame.
    rw [fetchPage, Op.get_bind] at hrun
    split at hrun
    · simp at hrun
    · by_cases halloc : c.pages.isPageAllocated id = false
      · rw [Op.throwIf_bind_pos halloc] at hrun
        simp at hrun
      · rw [Op.throwIf_bind_neg halloc, hg] at hrun
        dsimp only at hrun
        split at hrun
        · simp at hrun
        · have hrun'' : (Except.ok (some g), c.pinned g) = ((.ok (some f), c₁) : Except Err (Option FrameId) × Cache) :=
            hrun
          obtain ⟨-, rfl⟩ := Prod.mk.inj hrun''
          rw [view_resident hg, @view_resident (c.pinned g) g id hg, pinned, frames_reframe, if_pos rfl]

/-- The three ends of a fetch. -/
inductive Fetched (c : Cache) (id : PageId) : Except Err (Option FrameId) × Cache → Prop where
  | failed {outcome : Except Err (Option FrameId)} {c' : Cache} (houtcome : ∀ f, outcome ≠ .ok (some f))
      (hinv : c'.Inv none) (hquiet : Quiet c c') : Fetched c id (outcome, c')
  | fetched {f : FrameId} {c' : Cache} (hinv : c'.Inv none) (hquiet : Quiet c c') (hview : c'.view id = c.view id)
      (halloc : c.pages.isPageAllocated id = true) (hf : c'.pool.pageTable id = some f)
      (hpin : (c'.pool.frames f).pinCount ≠ 0) : Fetched c id (.ok (some f), c')

theorem fetched_fetchPage (h : c.Inv none) (id : PageId) : Fetched c id ((fetchPage id).run c) := by
  obtain ⟨outcome, c', hrun, hinv, hquiet, hok⟩ := fetchPage_cases h id
  rw [hrun]
  by_cases houtcome : ∃ f, outcome = .ok (some f)
  · obtain ⟨f, rfl⟩ := houtcome
    obtain ⟨halloc, hf, hpin⟩ := hok f rfl
    exact .fetched hinv hquiet (fetchPage_view h hrun) halloc hf hpin
  · exact .failed (fun f hf => houtcome ⟨f, hf⟩) hinv hquiet

theorem fetchPage_hit (halloc : c.pages.isPageAllocated id = true) (hf : c.pool.pageTable id = some f) :
    (fetchPage id).run c =
      if (c.pool.frames f).pinCount = kMaxCount then (.ok none, c) else (.ok (some f), c.pinned f) := by
  have hvalid := (PageManager.isPageAllocated_iff.mp halloc).1
  rw [fetchPage, Op.get_bind, if_neg (by simp [hvalid]), Op.throwIf_bind_neg (by simp [halloc]), hf]
  dsimp only
  split <;> rfl

/-- A pin on top of another one, given up again, leaves no trace. -/
theorem pinned_unpinned (h : c.Inv none) (hpin : (c.pool.frames f).pinCount ≠ 0) :
    (c.pinned f).unpinned f false = c := by
  have hout : f ∉ c.pool.lru := fun hmem => hpin ((h.pool.lru_iff f).mp hmem).2
  have hframe : (c.pinned f).pool.frames f = { c.pool.frames f with pinCount := (c.pool.frames f).pinCount + 1 } := by
    rw [pinned, frames_reframe, if_pos rfl]
  have hlru : (c.pinned f).pool.lru = c.pool.lru := List.erase_of_not_mem hout
  have hback : unpinnedFrame { c.pool.frames f with pinCount := (c.pool.frames f).pinCount + 1 } false =
      c.pool.frames f := by
    simp only [unpinnedFrame, Nat.add_sub_cancel, Bool.or_false]
  rw [unpinned, hframe, hback, hlru, if_neg (by simpa using hpin)]
  simp only [reframe, BufferPool.reframe, pinned, Function.update_idem, Function.update_eq_self]

/-- Taking the image of a page that is pinned already, and can be pinned once more. -/
theorem image_hit (h : c.Inv none) (halloc : c.pages.isPageAllocated id = true) (hf : c.pool.pageTable id = some f)
    (hpin : (c.pool.frames f).pinCount ≠ 0) (hmax : (c.pool.frames f).pinCount ≠ kMaxCount) :
    (image id).run c = (.ok (c.pool.frames f).page, c) := by
  have hfetch := fetchPage_hit halloc hf
  rw [if_neg hmax] at hfetch
  have hframe : (c.pinned f).pool.frames f = { c.pool.frames f with pinCount := (c.pool.frames f).pinCount + 1 } := by
    rw [pinned, frames_reframe, if_pos rfl]
  have hunpin := @unpinPage_run (c.pinned f) f id hf (by rw [hframe]; exact Nat.succ_ne_zero _) false
  rw [pinned_unpinned h hpin] at hunpin
  rw [image, Op.bind_ok hfetch]
  dsimp only
  rw [Op.get_bind, Op.bind_ok hunpin, Op.throwIf_bind_neg (by simp), hframe]
  rfl

theorem image_pinned (h : c.Inv none) (halloc : c.pages.isPageAllocated id = true) (hf : c.pool.pageTable id = some f)
    (hpin : (c.pool.frames f).pinCount ≠ 0) :
    (∃ e, (image id).run c = (.error e, c)) ∨ (image id).run c = (.ok (c.pool.frames f).page, c) := by
  by_cases hmax : (c.pool.frames f).pinCount = kMaxCount
  · have hfetch := fetchPage_hit halloc hf
    rw [if_pos hmax] at hfetch
    exact Or.inl ⟨.runtime "cannot fetch mutation page", by rw [image, Op.bind_ok hfetch]; rfl⟩
  · exact Or.inr (image_hit h halloc hf hpin hmax)

/-- The state in which a client has written a page it holds pinned. -/
def written (c : Cache) (f : FrameId) (page : Page) : Cache :=
  c.reframe f { c.pool.frames f with page := page } c.pool.lru

theorem writePayload_run (c : Cache) (f : FrameId) (bytes : Payload) :
    (writePayload f bytes).run c = (.ok (), c.written f ((c.pool.frames f).page.withPayload bytes)) := rfl

theorem frames_written (g : FrameId) :
    (c.written f page).pool.frames g = if g = f then { c.pool.frames f with page := page } else c.pool.frames g :=
  frames_reframe _ _ _

theorem Inv.written (h : c.Inv none) (hf : c.pool.pageTable id = some f) (hpin : (c.pool.frames f).pinCount ≠ 0)
    (hid : page.id = id) : (c.written f page).Inv none := by
  have hout : f ∉ c.pool.lru := fun hmem => hpin ((h.pool.lru_iff f).mp hmem).2
  refine h.reframe hf { c.pool.frames f with page := page } (h.pool.table_frame id f hf).1 hid h.pool.lru_nodup ?_
    fun _ _ => Iff.rfl
  exact ⟨fun hmem => absurd hmem hout, fun hzero => absurd hzero hpin⟩

theorem Moved.written (h : c.Inv none) (hf : c.pool.pageTable id = some f) (page : Page) :
    Moved c (c.written f page) id :=
  .of_reframe h hf { c.pool.frames f with page := page } rfl c.pool.lru

/-- Writing twice is writing once. -/
theorem written_written (page' : Page) : (c.written f page).written f page' = c.written f page' := by
  simp only [Cache.written, reframe, BufferPool.reframe, Function.update_idem, Function.update_self]

/-- Unpinning the page a client has written. -/
theorem unpin_written (h : c.Inv none) (hf : c.pool.pageTable id = some f) (hpin : (c.pool.frames f).pinCount ≠ 0)
    (hid : page.id = id) : (unpinPage id true).run (c.written f page) = (.ok true, (c.written f page).unpinned f true) ∧
      ((c.written f page).unpinned f true).Inv none ∧ Wrote c ((c.written f page).unpinned f true) id page := by
  have hframe := @frames_written c f page f
  rw [if_pos rfl] at hframe
  exact ⟨@unpinPage_run (c.written f page) f id hf (by rw [hframe]; exact hpin) true, h.rewritten hf hpin hid true,
    .rewritten h hf page⟩

/-- `apply` fails quietly or leaves the page with the image, resident and dirty. -/
theorem applyImage_cases (h : c.Inv none) (id : PageId) (bytes : Payload) :
    (∃ e c', (applyImage id bytes).run c = (.error e, c') ∧ c'.Inv none ∧ Quiet c c') ∨
    (∃ c' f old, (applyImage id bytes).run c = (.ok (), c') ∧ c'.Inv none ∧ c.view id = some old ∧ old.id = id ∧
      c.pages.isPageAllocated id = true ∧ Rewrote c c' id (old.withPayload bytes) ∧
      c'.pool.pageTable id = some f ∧ (c'.pool.frames f).dirty = true) := by
  have hfetch := fetched_fetchPage h id
  rw [applyImage, Op.bind_run]
  generalize (fetchPage id).run c = result at hfetch
  cases hfetch with
  | @failed outcome c' houtcome hinv hquiet =>
    match outcome, houtcome with
    | .error e, _ => exact Or.inl ⟨e, c', rfl, hinv, hquiet⟩
    | .ok none, _ => exact Or.inl ⟨_, c', rfl, hinv, hquiet⟩
    | .ok (some f), houtcome => exact absurd rfl (houtcome f)
  | @fetched f c' hinv hquiet hview halloc hf hpin =>
    have hid := (hinv.pool.table_frame id f hf).2
    obtain ⟨hunpin, hinv', hwrote⟩ := @unpin_written c' f id ((c'.pool.frames f).page.withPayload bytes) hinv hf hpin hid
    refine Or.inr ⟨_, f, (c'.pool.frames f).page, ?_, hinv', ?_, hid, halloc, hquiet.then_wrote hwrote, hf, ?_⟩
    · dsimp only
      rw [Op.bind_ok (writePayload_run c' f bytes), Op.bind_ok hunpin, Op.throwIf_run_neg (by simp)]
    · rw [← hview, view_resident hf]
    · rw [unpinned, frames_reframe, if_pos rfl]
      exact Bool.or_true _

/-- Setting the PageLSN of a resident dirty page. -/
theorem restorePageLsnAfterUndo_run (h : c.Inv none) (hf : c.pool.pageTable id = some f) (hsettled : c.Settled)
    (hdirty : (c.pool.frames f).dirty = true) (lsn : Nat) : ∃ c', (restorePageLsnAfterUndo id lsn).run c = (.ok (), c') ∧
      c'.Inv none ∧ Wrote c c' id ((c.pool.frames f).page.withLsn lsn) := by
  obtain ⟨hoccupied, hid⟩ := h.pool.table_frame id f hf
  refine ⟨c.reframe f (setLsn lsn (c.pool.frames f)) c.pool.lru, ?_, ?_, ?_⟩
  · rw [restorePageLsnAfterUndo, onFrame, Op.get_bind, hf]
    dsimp only
    rw [Op.throwIf_bind_neg (by simp [hsettled f])]
    rfl
  · refine h.reframe hf (setLsn lsn (c.pool.frames f)) hoccupied hid h.pool.lru_nodup ?_ fun _ _ => Iff.rfl
    rw [h.pool.lru_iff]
    exact ⟨fun hmem => hmem.2, fun hzero => ⟨hoccupied, hzero⟩⟩
  · exact Wrote.of_reframe h hf (setLsn lsn (c.pool.frames f)) rfl hdirty c.pool.lru

end Ddb.Buffer.Cache
