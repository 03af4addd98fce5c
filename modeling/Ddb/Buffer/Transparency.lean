import Ddb.Buffer.Invariant
import Ddb.Buffer.WalBeforeData

/-!
# The pool is transparent

What a client can see of a page is the image in its frame when the page is resident, and the slot of the file otherwise.
Fetching, unpinning, flushing, evicting and deleting frames never change it: `Quiet` says what such a call may do, to
the view, to the allocation and to the disk, and every call of the pool that writes no page is shown to stay within it,
whether it returns or throws.

The view of a page survives its eviction because a clean frame agrees with its slot. That is asked page by page
(`Clean`), so that a page a client has left in disorder does not spoil what is said about the others.
-/

namespace Ddb.Buffer

open Ddb.Lib Ddb.Storage

namespace Cache

variable {c c' : Cache} {held : Option FrameId} {f : FrameId} {id : PageId} {page : Page}

/-- The page as a client sees it. -/
def view (c : Cache) (id : PageId) : Option Page :=
  match c.pool.pageTable id with
  | some f => some (c.pool.frames f).page
  | none => c.pages.slot id

structure Inv (c : Cache) (held : Option FrameId) : Prop where
  pages : c.pages.WellFormed
  pool : c.pool.Inv held
  resident : ∀ id f, c.pool.pageTable id = some f → id.index < c.pages.pageCount

/-- A clean frame of the page agrees with the disk. -/
def Clean (c : Cache) (id : PageId) : Prop :=
  ∀ f, c.pool.pageTable id = some f → (c.pool.frames f).dirty = false → c.pages.slot id = some (c.pool.frames f).page

def DirtyAt (c : Cache) (id : PageId) : Prop :=
  ∃ f, c.pool.pageTable id = some f ∧ (c.pool.frames f).dirty = true

theorem dirtyAt_iff : c.DirtyAt id ↔ (c.pool.pageTable id).any (fun f => (c.pool.frames f).dirty) = true := by
  cases hf : c.pool.pageTable id with
  | none | some f => simp [DirtyAt, hf]

instance (c : Cache) (id : PageId) : Decidable (c.DirtyAt id) := decidable_of_iff _ dirtyAt_iff.symm

/-- No captured mutation waits for its LSN. -/
def Settled (c : Cache) : Prop := ∀ f, (c.pool.frames f).pendingMutations = 0

/-- The log is durable through an LSN, or the LSN is zero. -/
def LsnDurable (walDurability : Option Nat) (lsn : Nat) : Prop :=
  lsn = 0 ∨ ∃ durableLsn, walDurability = some durableLsn ∧ lsn ≤ durableLsn

theorem view_resident (h : c.pool.pageTable id = some f) : c.view id = some (c.pool.frames f).page := by
  rw [view, h]

theorem view_absent (h : c.pool.pageTable id = none) : c.view id = c.pages.slot id := by
  rw [view, h]

theorem writable_iff {walDurability : Option Nat} {frame : Frame} :
    Writable walDurability frame ↔ frame.pendingMutations = 0 ∧ LsnDurable walDurability frame.page.lsn := by
  rw [Writable, LsnDurable, walDurable_iff]

/-- What a call that writes no page may do. -/
structure Quiet (c c' : Cache) : Prop where
  pageCount : c'.pages.pageCount = c.pages.pageCount
  allocated : ∀ id, c'.pages.isPageAllocated id = c.pages.isPageAllocated id
  wal : c'.walDurability = c.walDurability
  synced : c.pages.Synced → c'.pages.Synced
  settled : c.Settled → c'.Settled
  capacity : c'.pool.capacity = c.pool.capacity
  dirty : ∀ id, c'.DirtyAt id → c.DirtyAt id
  view : ∀ id, c.Clean id → c'.view id = c.view id
  clean : ∀ id, c.Clean id → c'.Clean id
  /-- The disk changes only by write-backs of the view that the gate lets pass. -/
  disk : ∀ id, c.Clean id → c'.pages.slot id = c.pages.slot id ∨
    ∃ page, c.view id = some page ∧ c'.pages.slot id = some page ∧ LsnDurable c.walDurability page.lsn

theorem Quiet.refl (c : Cache) : Quiet c c where
  pageCount := rfl
  allocated := fun _ => rfl
  wal := rfl
  synced := fun h => h
  settled := fun h => h
  capacity := rfl
  dirty := fun _ h => h
  view := fun _ _ => rfl
  clean := fun _ h => h
  disk := fun _ _ => Or.inl rfl

theorem Quiet.trans {a b c : Cache} (hab : Quiet a b) (hbc : Quiet b c) : Quiet a c where
  pageCount := hbc.pageCount.trans hab.pageCount
  allocated := fun id => (hbc.allocated id).trans (hab.allocated id)
  wal := hbc.wal.trans hab.wal
  synced := fun h => hbc.synced (hab.synced h)
  settled := fun h => hbc.settled (hab.settled h)
  capacity := hbc.capacity.trans hab.capacity
  dirty := fun id h => hab.dirty id (hbc.dirty id h)
  view := fun id h => (hbc.view id (hab.clean id h)).trans (hab.view id h)
  clean := fun id h => hbc.clean id (hab.clean id h)
  disk := by
    intro id h
    rcases hbc.disk id (hab.clean id h) with hsame | ⟨page, hview, hslot, hdurable⟩
    · rcases hab.disk id h with hsame' | hwritten
      · exact Or.inl (hsame.trans hsame')
      · exact Or.inr (by rwa [hsame])
    · refine Or.inr ⟨page, ?_, hslot, hab.wal ▸ hdurable⟩
      rw [← hab.view id h, hview]

/-- The page manager moved without any visible effect. -/
theorem Quiet.of_pages (hpages : c.pages.Unchanged c'.pages) (hpool : c'.pool = c.pool)
    (hwal : c'.walDurability = c.walDurability) : Quiet c c' where
  pageCount := hpages.pageCount
  allocated := hpages.isPageAllocated
  wal := hwal
  synced := hpages.synced
  settled := by simp only [Settled, hpool]; exact fun h => h
  capacity := by rw [hpool]
  dirty := by simp only [DirtyAt, hpool]; exact fun _ h => h
  view := by
    intro id _
    rw [Cache.view, Cache.view, hpool, hpages.slot]
  clean := by
    intro id h
    rw [Clean, hpool, hpages.slot]
    exact h
  disk := fun id _ => Or.inl (hpages.slot id)

theorem Inv.of_pages (h : c.Inv held) (hpages : c.pages.Unchanged c'.pages) (hpool : c'.pool = c.pool) :
    c'.Inv held := by
  refine ⟨hpages.wellFormed h.pages, hpool ▸ h.pool, fun id f hf => ?_⟩
  rw [hpages.pageCount]
  exact h.resident id f (hpool ▸ hf)

/-- Only the frames' bookkeeping moved: every frame keeps its page and its pending count, and its dirty flag unless the
page on disk is the one in the frame. -/
theorem Quiet.of_frames (hpages : c'.pages = c.pages) (hwal : c'.walDurability = c.walDurability)
    (htable : c'.pool.pageTable = c.pool.pageTable) (hcapacity : c'.pool.capacity = c.pool.capacity)
    (hpage : ∀ f, (c'.pool.frames f).page = (c.pool.frames f).page)
    (hpending : ∀ f, (c'.pool.frames f).pendingMutations = (c.pool.frames f).pendingMutations)
    (hdirty : ∀ f, (c'.pool.frames f).dirty = (c.pool.frames f).dirty) : Quiet c c' where
  pageCount := by rw [hpages]
  allocated := fun id => by rw [hpages]
  wal := hwal
  synced := by rw [hpages]; exact fun h => h
  settled := fun h f => by rw [hpending]; exact h f
  capacity := hcapacity
  dirty := by
    rintro id ⟨f, hf, hd⟩
    exact ⟨f, htable ▸ hf, hdirty f ▸ hd⟩
  view := by
    intro id _
    rw [Cache.view, Cache.view, htable, hpages]
    split
    · rw [hpage]
    · rfl
  clean := by
    intro id h f hf hd
    rw [hpages, hpage]
    exact h f (htable ▸ hf) (hdirty f ▸ hd)
  disk := fun id _ => Or.inl (by rw [hpages])

/-! ## Writing a frame back -/

/-- The state in which the image of a frame has reached its slot. -/
def stored (c : Cache) (id : PageId) (f : FrameId) (handed : List WriteBack) : Cache :=
  { c with pages := c.pages.answered.store id (c.pool.frames f).page, handed := handed }

theorem slot_stored (h : c.Inv held) (hf : c.pool.pageTable id = some f) (handed : List WriteBack) (other : PageId) :
    (c.stored id f handed).pages.slot other =
      if other = id then some (c.pool.frames f).page else c.pages.slot other := by
  rw [stored, @PageManager.slot_store c.pages.answered id (h.resident id f hf)]
  split
  · rw [← (h.pool.table_frame id f hf).2]
  · rfl

theorem Quiet.of_stored (h : c.Inv held) (hf : c.pool.pageTable id = some f)
    (hdurable : (c.pool.frames f).dirty = true → LsnDurable c.walDurability (c.pool.frames f).page.lsn)
    (handed : List WriteBack) : Quiet c (c.stored id f handed) := by
  have hindex := h.resident id f hf
  have hslot := slot_stored h hf handed
  refine ⟨rfl, fun _ => rfl, rfl, fun hs => hs.answered.store hindex _, fun hs => hs, rfl, fun _ hd => hd, ?_, ?_, ?_⟩
  · intro other _
    cases htable : c.pool.pageTable other with
    | some g => rw [view_resident htable, @view_resident (c.stored id f handed) g other htable]; rfl
    | none =>
      have hne : other ≠ id := by
        intro heq
        rw [heq, hf] at htable
        simp at htable
      rw [view_absent htable, @view_absent (c.stored id f handed) other htable, hslot, if_neg hne]
  · intro other hclean g hg hd
    refine (hslot other).trans ?_
    split
    · rename_i heq
      subst heq
      obtain rfl : f = g := Option.some.inj (hf.symm.trans hg)
      rfl
    · exact hclean g hg hd
  · intro other hclean
    by_cases heq : other = id
    · subst heq
      have hwritten := (hslot other).trans (if_pos rfl)
      cases hdirty : (c.pool.frames f).dirty with
      | true => exact Or.inr ⟨_, view_resident hf, hwritten, hdurable hdirty⟩
      | false => exact Or.inl (hwritten.trans (hclean f hf hdirty).symm)
    · exact Or.inl ((hslot other).trans (if_neg heq))

theorem Inv.of_stored (h : c.Inv held) (hf : c.pool.pageTable id = some f) (handed : List WriteBack) :
    (c.stored id f handed).Inv held :=
  ⟨h.pages.answered.store (h.resident id f hf) _, h.pool, h.resident⟩

theorem handToDisk_cases (h : c.Inv held) (hf : c.pool.pageTable id = some f) :
    (∃ e c', (handToDisk id (c.pool.frames f)).run c = (.error e, c') ∧ c.pages.Unchanged c'.pages ∧ c'.pool = c.pool ∧
      c'.walDurability = c.walDurability ∧ (c.pages.Synced → c.pages.isPageAllocated id = false)) ∨
    (∃ handed, (handToDisk id (c.pool.frames f)).run c = (.ok (), c.stored id f handed) ∧
      c.pages.isPageAllocated id = true) := by
  have hid := (h.pool.table_frame id f hf).2
  have hrun : (handToDisk id (c.pool.frames f)).run c =
      (((PageManager.writePage id (c.pool.frames f).page).run c.pages).1,
        { c with pages := ((PageManager.writePage id (c.pool.frames f).page).run c.pages).2
                 handed := c.flushed f :: c.handed }) := rfl
  rw [hrun]
  by_cases halloc : c.pages.isPageAllocated id = true
  · rw [PageManager.writePage_run h.pages halloc hid]
    by_cases hfail : c.pages.failsNext = true
    · rw [if_pos hfail]
      refine Or.inl ⟨_, _, rfl, ?_, rfl, rfl, fun hs => absurd hfail hs.not_failsNext⟩
      exact ⟨rfl, rfl, rfl, fun _ => rfl, fun hs => hs.answered⟩
    · rw [if_neg hfail]
      exact Or.inr ⟨_, rfl, halloc⟩
  · obtain ⟨e, he⟩ := PageManager.writePage_unallocated (Bool.eq_false_iff.mpr halloc) (c.pool.frames f).page
    rw [he]
    exact Or.inl ⟨e, _, rfl, .refl _, rfl, rfl, fun _ => Bool.eq_false_iff.mpr halloc⟩

/-- The dirty flag of a frame that agrees with the disk is taken back. -/
theorem Quiet.of_clearDirty (h : c.Inv held) (hf : c.pool.pageTable id = some f)
    (hslot : c.pages.slot id = some (c.pool.frames f).page) :
    Quiet c { c with pool := c.pool.setFrame f { c.pool.frames f with dirty := false } } := by
  have hframe := @BufferPool.frames_setFrame c.pool f { c.pool.frames f with dirty := false }
  have hpage : ∀ g, ((c.pool.setFrame f { c.pool.frames f with dirty := false }).frames g).page =
      (c.pool.frames g).page := by
    intro g
    rw [hframe]
    split
    · rename_i heq
      rw [heq]
    · rfl
  refine ⟨rfl, fun _ => rfl, rfl, fun hs => hs, ?_, rfl, ?_, ?_, ?_, fun _ _ => Or.inl rfl⟩
  · intro hs g
    change ((c.pool.setFrame f { c.pool.frames f with dirty := false }).frames g).pendingMutations = 0
    rw [hframe]
    split
    · exact hs f
    · exact hs g
  · rintro other ⟨g, hg, hd⟩
    refine ⟨g, hg, ?_⟩
    change ((c.pool.setFrame f { c.pool.frames f with dirty := false }).frames g).dirty = true at hd
    rw [hframe] at hd
    split at hd
    · simp at hd
    · exact hd
  · intro other _
    rw [Cache.view, Cache.view]
    change (match c.pool.pageTable other with | some g => some _ | none => _) = _
    cases c.pool.pageTable other with
    | some g => exact congrArg some (hpage g)
    | none => rfl
  · intro other hclean g hg hd
    change ((c.pool.setFrame f { c.pool.frames f with dirty := false }).frames g).dirty = false at hd
    change c.pages.slot other = some ((c.pool.setFrame f { c.pool.frames f with dirty := false }).frames g).page
    rw [hpage]
    by_cases heq : g = f
    · subst heq
      obtain rfl : id = other := by rw [← (h.pool.table_frame id g hf).2, (h.pool.table_frame other g hg).2]
      exact hslot
    · rw [hframe, if_neg heq] at hd
      exact hclean g hg hd

theorem Inv.of_clearDirty (h : c.Inv held) (hf : c.pool.pageTable id = some f) :
    ({ c with pool := c.pool.setFrame f { c.pool.frames f with dirty := false } } : Cache).Inv held := by
  have hoccupied := (h.pool.table_frame id f hf).1
  exact ⟨h.pages, h.pool.setFrame hoccupied hoccupied rfl rfl, h.resident⟩

/-- `write_dirty_frame` throws without effect, or leaves the frame clean. It throws only when a gate is closed, the page
is not allocated or the file fails. -/
theorem writeDirtyFrame_cases (h : c.Inv held) (hf : c.pool.pageTable id = some f) :
    (∃ e c', (writeDirtyFrame f).run c = (.error e, c') ∧ c'.Inv held ∧ Quiet c c' ∧
      (c.pages.Synced → (c.pool.frames f).dirty = true ∧
        (¬ Writable c.walDurability (c.pool.frames f) ∨ c.pages.isPageAllocated id = false))) ∨
    (∃ c', (writeDirtyFrame f).run c = (.ok (), c') ∧ c'.Inv held ∧ Quiet c c' ∧
      c'.pool = c.pool.setFrame f { c.pool.frames f with dirty := false }) := by
  have hid := (h.pool.table_frame id f hf).2
  rw [writeDirtyFrame, Op.get_bind]
  by_cases hdirty : (c.pool.frames f).dirty = true
  swap
  · refine Or.inr ⟨c, by rw [if_neg hdirty]; rfl, h, .refl c, ?_⟩
    have hsame : ({ c.pool.frames f with dirty := false } : Frame) = c.pool.frames f := by
      rw [← Bool.eq_false_iff.mpr hdirty]
    rw [hsame, BufferPool.setFrame, Function.update_eq_self]
  rw [if_pos hdirty, hid]
  rcases requireWritable_cases (c.pool.frames f) c with ⟨hok, hwritable⟩ | ⟨e, he, hblocked⟩
  swap
  · exact Or.inl ⟨e, c, by rw [Op.bind_error he], h, .refl c, fun _ => ⟨hdirty, Or.inl hblocked⟩⟩
  rw [Op.bind_ok hok]
  rcases handToDisk_cases h hf with ⟨e, c', hrun, hpages, hpool, hwal, hreason⟩ | ⟨handed, hrun, -⟩
  · exact Or.inl ⟨e, c', by rw [Op.bind_error hrun], h.of_pages hpages hpool, .of_pages hpages hpool hwal,
      fun hs => ⟨hdirty, Or.inr (hreason hs)⟩⟩
  · have hstored := h.of_stored hf handed
    refine Or.inr ⟨_, by rw [Op.bind_ok hrun]; rfl, hstored.of_clearDirty hf, ?_, rfl⟩
    apply (Quiet.of_stored h hf (fun _ => (writable_iff.mp hwritable).2) handed).trans
    apply Quiet.of_clearDirty hstored hf
    rw [slot_stored h hf, if_pos rfl]
    rfl

/-! ## Frames change hands -/

/-- A frame whose page is on disk leaves the pool. -/
theorem Quiet.of_evict (h : c.Inv none) (hf : c.pool.pageTable id = some f) (hclean : (c.pool.frames f).dirty = false) :
    Quiet c { c with pool := ((c.pool.removeFromLru f).erasePage id).resetFrame f } := by
  have hframe : ∀ g, (((c.pool.removeFromLru f).erasePage id).resetFrame f).frames g =
      if g = f then .blank else c.pool.frames g := fun g => BufferPool.frames_setFrame _ g
  have htable : ∀ other, (((c.pool.removeFromLru f).erasePage id).resetFrame f).pageTable other =
      if other = id then none else c.pool.pageTable other := fun _ => Function.update_apply _ _ _ _
  -- The frame of any other resident page is another frame.
  have hother : ∀ other g, other ≠ id → c.pool.pageTable other = some g → g ≠ f := by
    intro other g hne hg heq
    subst heq
    exact hne (by rw [← (h.pool.table_frame other g hg).2, (h.pool.table_frame id g hf).2])
  refine ⟨rfl, fun _ => rfl, rfl, fun hs => hs, ?_, rfl, ?_, ?_, ?_, fun _ _ => Or.inl rfl⟩
  · intro hs g
    change ((((c.pool.removeFromLru f).erasePage id).resetFrame f).frames g).pendingMutations = 0
    rw [hframe]
    split
    · rfl
    · exact hs g
  · rintro other ⟨g, hg, hd⟩
    simp only [htable] at hg
    split at hg
    · simp at hg
    · rename_i hne
      simp only [hframe, if_neg (hother other g hne hg)] at hd
      exact ⟨g, hg, hd⟩
  · intro other hc
    simp only [Cache.view, htable]
    by_cases heq : other = id
    · subst heq
      rw [if_pos rfl, hf]
      exact hc f hf hclean
    · rw [if_neg heq]
      cases hg : c.pool.pageTable other with
      | none => rfl
      | some g => simp only [hframe, if_neg (hother other g heq hg)]
  · intro other hc g hg hd
    simp only [htable] at hg
    split at hg
    · simp at hg
    · rename_i hne
      simp only [hframe, if_neg (hother other g hne hg)] at hd ⊢
      exact hc g hg hd

theorem Inv.of_evict (h : c.Inv none) (hf : c.pool.pageTable id = some f) :
    ({ c with pool := ((c.pool.removeFromLru f).erasePage id).resetFrame f } : Cache).Inv (some f) := by
  obtain ⟨hoccupied, hid⟩ := h.pool.table_frame id f hf
  refine ⟨h.pages, h.pool.evict hoccupied hid, fun other g hg => ?_⟩
  change Function.update c.pool.pageTable id none other = some g at hg
  rw [Function.update_apply] at hg
  split at hg
  · simp at hg
  · exact h.resident other g hg

/-- The state in which a page read from disk has entered the frame in hand. -/
def filled (c : Cache) (id : PageId) (f : FrameId) (page : Page) : Cache :=
  { c with pool := { c.pool.setFrame f ⟨page, 1, false, true, 0⟩ with
      pageTable := Function.update c.pool.pageTable id (some f) } }

theorem filled_table (other : PageId) : (c.filled id f page).pool.pageTable other =
    if other = id then some f else c.pool.pageTable other := Function.update_apply _ _ _ _

theorem filled_frames (g : FrameId) : (c.filled id f page).pool.frames g =
    if g = f then ⟨page, 1, false, true, 0⟩ else c.pool.frames g := BufferPool.frames_setFrame _ g

theorem Quiet.of_filled (h : c.Inv (some f)) (habsent : c.pool.pageTable id = none) (hpage : c.pages.slot id = some page) :
    Quiet c (c.filled id f page) := by
  obtain ⟨-, hfree⟩ := h.pool.held_free f rfl
  have hother : ∀ other g, c.pool.pageTable other = some g → g ≠ f := by
    intro other g hg heq
    subst heq
    simp [(h.pool.table_frame other g hg).1] at hfree
  refine ⟨rfl, fun _ => rfl, rfl, fun hs => hs, ?_, rfl, ?_, ?_, ?_, fun _ _ => Or.inl rfl⟩
  · intro hs g
    rw [filled_frames]
    split
    · rfl
    · exact hs g
  · rintro other ⟨g, hg, hd⟩
    rw [filled_table] at hg
    split at hg
    · obtain rfl := Option.some.inj hg
      simp [filled_frames] at hd
    · rw [filled_frames, if_neg (hother other g hg)] at hd
      exact ⟨g, hg, hd⟩
  · intro other _
    by_cases heq : other = id
    · subst heq
      have hin : (c.filled other f page).pool.pageTable other = some f := by rw [filled_table, if_pos rfl]
      rw [view_resident hin, view_absent habsent, hpage, filled_frames, if_pos rfl]
    · have htable : (c.filled id f page).pool.pageTable other = c.pool.pageTable other := by
        rw [filled_table, if_neg heq]
      cases hg : c.pool.pageTable other with
      | none =>
        rw [view_absent hg, view_absent (htable.trans hg)]
        rfl
      | some g =>
        rw [view_resident hg, view_resident (htable.trans hg), filled_frames, if_neg (hother other g hg)]
  · intro other hc g hg hd
    rw [filled_table] at hg
    split at hg
    · rename_i heq
      obtain rfl := Option.some.inj hg
      rw [filled_frames, if_pos rfl, heq]
      exact hpage
    · rw [filled_frames, if_neg (hother other g hg)] at hd ⊢
      exact hc g hg hd

theorem Inv.of_filled (h : c.Inv (some f)) (habsent : c.pool.pageTable id = none) (hpage : c.pages.slot id = some page) :
    (c.filled id f page).Inv none := by
  obtain ⟨hindex, -, hid⟩ := PageManager.slot_eq_some hpage
  have hframe : (⟨page, 1, false, true, 0⟩ : Frame).pinCount ≠ 0 := Nat.one_ne_zero
  refine ⟨h.pages, h.pool.fill habsent rfl hid hframe, fun other g hg => ?_⟩
  rw [filled_table] at hg
  split at hg
  · rename_i heq
    rw [heq]
    exact hindex
  · exact h.resident other g hg

/-- Moving frames between the lists shows nowhere. -/
theorem Quiet.of_lists {free lru : List FrameId} :
    Quiet c { c with pool := { c.pool with freeFrames := free, lru := lru } } :=
  .of_frames rfl rfl rfl rfl (fun _ => rfl) (fun _ => rfl) fun _ => rfl

/-! ## Fetching -/

/-- A resident frame that cannot be written back. -/
def Stuck (c : Cache) (f : FrameId) : Prop :=
  ∃ id, c.pool.pageTable id = some f ∧ (c.pool.frames f).dirty = true ∧
    (¬ Writable c.walDurability (c.pool.frames f) ∨ c.pages.isPageAllocated id = false)

theorem acquireFrame_cases (h : c.Inv none) :
    (∃ e c', acquireFrame.run c = (.error e, c') ∧ c'.Inv none ∧ Quiet c c' ∧
      (c.pages.Synced → ∃ f, (c.pool.frames f).pinCount = 0 ∧ c.Stuck f)) ∨
    (acquireFrame.run c = (.ok none, c) ∧ c.pool.freeFrames = [] ∧ c.pool.lru = []) ∨
    (∃ f c', acquireFrame.run c = (.ok (some f), c') ∧ c'.Inv (some f) ∧ Quiet c c' ∧
      ∀ id, c.pool.pageTable id = none → c'.pool.pageTable id = none) := by
  rw [acquireFrame, Op.get_bind]
  cases hfree : c.pool.freeFrames with
  | cons f rest =>
    refine Or.inr (Or.inr ⟨f, { c with pool := { c.pool with freeFrames := rest } }, rfl, ?_, .of_lists, fun _ ha => ha⟩)
    exact ⟨h.pages, h.pool.takeFree hfree, h.resident⟩
  | nil =>
    cases hlru : c.pool.lru with
    | nil => exact Or.inr (Or.inl ⟨rfl, rfl, rfl⟩)
    | cons victim rest =>
      obtain ⟨hoccupied, hpin⟩ := (h.pool.lru_iff victim).mp (by rw [hlru]; exact List.mem_cons_self)
      have hf := h.pool.frame_table victim hoccupied
      rcases writeDirtyFrame_cases h hf with ⟨e, c', hrun, hinv, hquiet, hreason⟩ | ⟨c', hrun, hinv, hquiet, hpool⟩
      · refine Or.inl ⟨e, c', by rw [Op.bind_error hrun], hinv, hquiet, fun hs => ?_⟩
        exact ⟨victim, hpin, _, hf, (hreason hs).1, (hreason hs).2⟩
      · have hframe : c'.pool.frames victim = { c.pool.frames victim with dirty := false } := by
          rw [hpool, BufferPool.frames_setFrame, if_pos rfl]
        have hf' : c'.pool.pageTable (c'.pool.frames victim).page.id = some victim := by
          rw [hframe, hpool]
          exact hf
        refine Or.inr (Or.inr ⟨victim, _, by rw [Op.bind_ok hrun]; rfl, hinv.of_evict hf', ?_, ?_⟩)
        · exact hquiet.trans (.of_evict hinv hf' (by rw [hframe]))
        · intro id habsent
          change Function.update c'.pool.pageTable _ none id = none
          rw [Function.update_apply]
          split
          · rfl
          · rw [hpool]
            exact habsent

/-- The frame in hand goes back to the free list. -/
theorem giveBack_quiet (h : c.Inv (some f)) : ((giveBack f).run c).2.Inv none ∧ Quiet c ((giveBack f).run c).2 := by
  have hblank := h.pool.blank f (h.pool.held_free f rfl).2
  have hsame : c.pool.resetFrame f = c.pool := by
    rw [BufferPool.resetFrame, BufferPool.setFrame, ← hblank, Function.update_eq_self]
  refine ⟨⟨h.pages, h.pool.giveBack, h.resident⟩, ?_⟩
  change Quiet c { c with pool := (c.pool.resetFrame f).pushFree f }
  rw [hsame]
  exact .of_lists

theorem fillFrame_cases (h : c.Inv (some f)) (habsent : c.pool.pageTable id = none)
    (halloc : c.pages.isPageAllocated id = true) :
    (∃ e c', (fillFrame id f).run c = (.error e, c') ∧ c'.Inv none ∧ Quiet c c' ∧ ¬ c.pages.Synced) ∨
    (∃ c', (fillFrame id f).run c = (.ok (), c') ∧ c'.Inv none ∧ Quiet c c' ∧ c'.pool.pageTable id = some f ∧
      (c'.pool.frames f).pinCount = 1) := by
  obtain ⟨page, hslot, hid⟩ := h.pages.slot_isSome (PageManager.isPageAllocated_iff.mp halloc).2.1
  have hread : (onPages (PageManager.readPage id)).run c =
      (((PageManager.readPage id).run c.pages).1, { c with pages := ((PageManager.readPage id).run c.pages).2 }) := rfl
  have hanswered : c.pages.Unchanged c.pages.answered := ⟨rfl, rfl, rfl, fun _ => rfl, fun hs => hs.answered⟩
  have hinv : ({ c with pages := c.pages.answered } : Cache).Inv (some f) := h.of_pages hanswered rfl
  have hquiet : Quiet c { c with pages := c.pages.answered } := .of_pages hanswered rfl rfl
  rw [PageManager.readPage_run h.pages halloc hslot] at hread
  by_cases hfail : c.pages.failsNext = true
  · rw [if_pos hfail] at hread
    have hgive := giveBack_quiet hinv
    have hrun : (fillFrame id f).run c = (.error (.storage "read failed for database file"),
        ((giveBack f).run { c with pages := c.pages.answered }).2) := by
      rw [fillFrame, Op.bind_error (by rw [Op.tryCatch_error hread]; rfl)]
      rfl
    exact Or.inl ⟨_, _, hrun, hgive.1, hquiet.trans hgive.2, fun hs => hs.not_failsNext hfail⟩
  · rw [if_neg hfail] at hread
    have hblank := h.pool.blank f (h.pool.held_free f rfl).2
    have hrun : (fillFrame id f).run c = (.ok (), ({ c with pages := c.pages.answered } : Cache).filled id f page) := by
      rw [fillFrame, Op.bind_ok (Op.tryCatch_ok hread), modifyFrame, modifyPool, Op.modify_bind, Op.get_bind]
      change (match c.pool.pageTable id with | some _ => _ | none => _ : CacheOp Unit).run _ = _
      rw [habsent, modifyPool, Op.modify_run, hblank]
      rfl
    refine Or.inr ⟨_, hrun, hinv.of_filled habsent hslot, hquiet.trans (.of_filled hinv habsent hslot), ?_, ?_⟩
    · rw [filled_table, if_pos rfl]
    · rw [filled_frames, if_pos rfl]

/-- The cache with another frame and another LRU list. -/
def reframe (c : Cache) (f : FrameId) (frame : Frame) (lru : List FrameId) : Cache :=
  { c with pool := c.pool.reframe f frame lru }

theorem frames_reframe (frame : Frame) (lru : List FrameId) (g : FrameId) :
    (c.reframe f frame lru).pool.frames g = if g = f then frame else c.pool.frames g := Function.update_apply _ _ _ _

theorem Inv.reframe (h : c.Inv none) (hf : c.pool.pageTable id = some f) (frame : Frame)
    (hoccupied : frame.occupied = true) (hid : frame.page.id = id) {lru : List FrameId} (hnodup : lru.Nodup)
    (hself : f ∈ lru ↔ frame.pinCount = 0) (hother : ∀ g, g ≠ f → (g ∈ lru ↔ g ∈ c.pool.lru)) :
    (c.reframe f frame lru).Inv none := by
  obtain ⟨hold, hpage⟩ := h.pool.table_frame id f hf
  exact ⟨h.pages, h.pool.retouch hold hoccupied (hid.trans hpage.symm) hnodup hself hother, h.resident⟩

theorem Quiet.of_reframe (frame : Frame) (hpage : frame.page = (c.pool.frames f).page)
    (hpending : frame.pendingMutations = (c.pool.frames f).pendingMutations)
    (hdirty : frame.dirty = (c.pool.frames f).dirty) (lru : List FrameId) : Quiet c (c.reframe f frame lru) := by
  have hsame : ∀ {α : Type} (field : Frame → α), field frame = field (c.pool.frames f) →
      ∀ g, field ((c.reframe f frame lru).pool.frames g) = field (c.pool.frames g) := by
    intro α field hfield g
    rw [frames_reframe]
    split
    · rename_i heq
      rw [heq]
      exact hfield
    · rfl
  exact .of_frames rfl rfl rfl rfl (hsame Frame.page hpage) (hsame Frame.pendingMutations hpending)
    (hsame Frame.dirty hdirty)

/-- The LRU list of a pool in which a frame has just been pinned or unpinned. -/
theorem Inv.mem_erase_lru (h : c.Inv held) (f : FrameId) :
    f ∉ c.pool.lru.erase f ∧ ∀ g, g ≠ f → (g ∈ c.pool.lru.erase f ↔ g ∈ c.pool.lru) := by
  refine ⟨fun hmem => (h.pool.lru_nodup.mem_erase_iff.mp hmem).1 rfl, fun g hg => ?_⟩
  rw [h.pool.lru_nodup.mem_erase_iff]
  exact ⟨fun hmem => hmem.2, fun hmem => ⟨hg, hmem⟩⟩

/-- One more pin on a resident page. -/
def pinned (c : Cache) (f : FrameId) : Cache :=
  c.reframe f { c.pool.frames f with pinCount := (c.pool.frames f).pinCount + 1 } (c.pool.lru.erase f)

theorem Inv.pinned (h : c.Inv none) (hf : c.pool.pageTable id = some f) : (c.pinned f).Inv none := by
  obtain ⟨hoccupied, hid⟩ := h.pool.table_frame id f hf
  obtain ⟨hself, hother⟩ := h.mem_erase_lru f
  exact h.reframe hf { c.pool.frames f with pinCount := (c.pool.frames f).pinCount + 1 } hoccupied hid
    (h.pool.lru_nodup.erase f) (by simp [hself]) hother

theorem Quiet.pinned (c : Cache) (f : FrameId) : Quiet c (c.pinned f) :=
  .of_reframe { c.pool.frames f with pinCount := (c.pool.frames f).pinCount + 1 } rfl rfl rfl _

/-- Whatever `fetch_page` answers, nobody's view has changed; a pointer it returns is to the page, pinned. -/
theorem fetchPage_cases (h : c.Inv none) (id : PageId) : ∃ outcome c', (fetchPage id).run c = (outcome, c') ∧
    c'.Inv none ∧ Quiet c c' ∧
    ∀ f, outcome = .ok (some f) → c.pages.isPageAllocated id = true ∧ c'.pool.pageTable id = some f ∧
      (c'.pool.frames f).pinCount ≠ 0 := by
  rw [fetchPage, Op.get_bind]
  by_cases hvalid : id.isValid = false
  · exact ⟨_, _, by rw [if_pos hvalid]; rfl, h, .refl c, by simp⟩
  rw [if_neg hvalid]
  by_cases halloc : c.pages.isPageAllocated id = false
  · exact ⟨_, _, by rw [Op.throwIf_bind_pos halloc], h, .refl c, by simp⟩
  rw [Op.throwIf_bind_neg halloc]
  have halloc' : c.pages.isPageAllocated id = true := by simpa using halloc
  cases htable : c.pool.pageTable id with
  | some f =>
    dsimp only
    by_cases hmax : (c.pool.frames f).pinCount = kMaxCount
    · exact ⟨_, _, by rw [if_pos hmax]; rfl, h, .refl c, by simp⟩
    · have hrun : (do
          modifyFrame f fun frame => { frame with pinCount := frame.pinCount + 1 }
          modifyPool fun pool => pool.removeFromLru f
          return some f : CacheOp (Option FrameId)).run c = (.ok (some f), c.pinned f) := rfl
      refine ⟨_, _, by rw [if_neg hmax]; exact hrun, h.pinned htable, .pinned c f, ?_⟩
      intro g hg
      obtain rfl : f = g := by simpa using hg
      refine ⟨halloc', htable, ?_⟩
      rw [pinned, frames_reframe, if_pos rfl]
      exact Nat.succ_ne_zero _
  | none =>
    rcases acquireFrame_cases h with ⟨e, c', hrun, hinv, hquiet, -⟩ | ⟨hrun, -, -⟩ | ⟨f, c', hrun, hinv, hquiet, habsent⟩
    · exact ⟨_, _, by rw [Op.bind_error hrun], hinv, hquiet, by simp⟩
    · exact ⟨_, _, by rw [Op.bind_ok hrun]; rfl, h, .refl c, by simp⟩
    · rw [Op.bind_ok hrun]
      have halloc'' : c'.pages.isPageAllocated id = true := by rw [hquiet.allocated]; exact halloc'
      rcases fillFrame_cases hinv (habsent id htable) halloc'' with
        ⟨e, c'', hfill, hinv', hquiet', -⟩ | ⟨c'', hfill, hinv', hquiet', hin, hpin⟩
      · exact ⟨_, _, by rw [Op.bind_error hfill], hinv', hquiet.trans hquiet', by simp⟩
      · refine ⟨_, _, by rw [Op.bind_ok hfill]; rfl, hinv', hquiet.trans hquiet', ?_⟩
        intro g hg
        obtain rfl : f = g := by simpa using hg
        exact ⟨halloc', hin, by rw [hpin]; exact Nat.one_ne_zero⟩

/-- There is a frame to bring a page into. -/
def HasRoom (c : Cache) : Prop := c.pool.freeFrames ≠ [] ∨ c.pool.lru ≠ []

/-- With a working file, a frame can be had unless one that is unpinned cannot be written back. -/
theorem acquireFrame_succeeds (h : c.Inv none) (hsynced : c.pages.Synced)
    (hfree : ∀ f, (c.pool.frames f).pinCount = 0 → ¬ c.Stuck f) (hroom : c.HasRoom) :
    ∃ f c', acquireFrame.run c = (.ok (some f), c') := by
  rcases acquireFrame_cases h with ⟨e, c', hrun, -, -, hreason⟩ | ⟨-, hnone, hempty⟩ | ⟨f, c', hrun, -, -, -⟩
  · obtain ⟨f, hpin, hstuck⟩ := hreason hsynced
    exact absurd hstuck (hfree f hpin)
  · rcases hroom with hne | hne
    · exact absurd hnone hne
    · exact absurd hempty hne
  · exact ⟨f, c', hrun⟩

theorem fetchPage_succeeds (h : c.Inv none) (hsynced : c.pages.Synced)
    (hfree : ∀ f, (c.pool.frames f).pinCount = 0 → ¬ c.Stuck f) (halloc : c.pages.isPageAllocated id = true)
    (hpins : ∀ f, c.pool.pageTable id = some f → (c.pool.frames f).pinCount ≠ kMaxCount)
    (hroom : c.pool.pageTable id = none → c.HasRoom) : ∃ f c', (fetchPage id).run c = (.ok (some f), c') := by
  have hvalid := (PageManager.isPageAllocated_iff.mp halloc).1
  rw [fetchPage, Op.get_bind, if_neg (by simp [hvalid]), Op.throwIf_bind_neg (by simp [halloc])]
  cases htable : c.pool.pageTable id with
  | some f =>
    dsimp only
    rw [if_neg (hpins f htable)]
    exact ⟨f, _, rfl⟩
  | none =>
    obtain ⟨f, c', hrun⟩ := acquireFrame_succeeds h hsynced hfree (hroom htable)
    rcases acquireFrame_cases h with ⟨e, c₁, hrun', -⟩ | ⟨hrun', -⟩ | ⟨f₁, c₁, hrun', hinv, hquiet, habsent⟩
    · rw [hrun] at hrun'
      cases (Prod.mk.inj hrun').1
    · rw [hrun] at hrun'
      cases (Prod.mk.inj hrun').1
    · dsimp only
      rw [Op.bind_ok hrun']
      have halloc' : c₁.pages.isPageAllocated id = true := by rw [hquiet.allocated]; exact halloc
      rcases fillFrame_cases hinv (habsent id htable) halloc' with ⟨e, c₂, -, -, -, hsick⟩ | ⟨c₂, hfill, -⟩
      · exact absurd (hquiet.synced hsynced) hsick
      · exact ⟨f₁, c₂, by dsimp only; rw [Op.bind_ok hfill]; rfl⟩

/-! ## Writing a page

A client that holds a page pinned writes it and unpins it as dirty. -/

/-- The effect of a client's write to one page: it is what everybody sees of the page from now on, and the disk has not
changed. -/
structure Wrote (c c' : Cache) (id : PageId) (page : Page) : Prop where
  pages : c'.pages = c.pages
  wal : c'.walDurability = c.walDurability
  settled : c.Settled → c'.Settled
  capacity : c'.pool.capacity = c.pool.capacity
  dirty : ∀ other, c'.DirtyAt other → other = id ∨ c.DirtyAt other
  view : ∀ other, c'.view other = if other = id then some page else c.view other
  clean : ∀ other, c.Clean other ∨ other = id → c'.Clean other

/-- A resident frame is changed: the other pages are as they were. -/
theorem reframe_elsewhere (h : c.Inv none) (hf : c.pool.pageTable id = some f) (frame : Frame)
    (hpending : frame.pendingMutations = (c.pool.frames f).pendingMutations) (lru : List FrameId) :
    (c.Settled → (c.reframe f frame lru).Settled) ∧
    (∀ other, (c.reframe f frame lru).DirtyAt other → other = id ∨ c.DirtyAt other) ∧ ∀ other, other ≠ id →
      (c.reframe f frame lru).view other = c.view other ∧ (c.Clean other → (c.reframe f frame lru).Clean other) := by
  have hframe := @frames_reframe c f frame lru
  have hother : ∀ other g, other ≠ id → c.pool.pageTable other = some g → g ≠ f := by
    intro other g hne hg heq
    subst heq
    exact hne (by rw [← (h.pool.table_frame other g hg).2, (h.pool.table_frame id g hf).2])
  refine ⟨fun hs g => ?_, ?_, fun other hne => ⟨?_, fun hc g hg hd => ?_⟩⟩
  · rw [hframe]
    split
    · rw [hpending]
      exact hs f
    · exact hs g
  · rintro other ⟨g, hg, hd⟩
    by_cases heq : other = id
    · exact Or.inl heq
    · rw [hframe, if_neg (hother other g heq hg)] at hd
      exact Or.inr ⟨g, hg, hd⟩
  · cases hg : c.pool.pageTable other with
    | none =>
      rw [view_absent hg, @view_absent (c.reframe f frame lru) other hg]
      rfl
    | some g =>
      rw [view_resident hg, @view_resident (c.reframe f frame lru) g other hg, hframe, if_neg (hother other g hne hg)]
  · rw [hframe, if_neg (hother other g hne hg)] at hd ⊢
    exact hc g hg hd

/-- A resident frame is given another page image and marked dirty. -/
theorem Wrote.of_reframe (h : c.Inv none) (hf : c.pool.pageTable id = some f) (frame : Frame)
    (hpending : frame.pendingMutations = (c.pool.frames f).pendingMutations) (hdirty : frame.dirty = true)
    (lru : List FrameId) : Wrote c (c.reframe f frame lru) id frame.page := by
  obtain ⟨hsettled, hdirtyAt, helse⟩ := reframe_elsewhere h hf frame hpending lru
  have hself : (c.reframe f frame lru).pool.frames f = frame := (frames_reframe frame lru f).trans (if_pos rfl)
  refine ⟨rfl, rfl, hsettled, rfl, hdirtyAt, fun other => ?_, fun other hc => ?_⟩
  · split
    · rename_i heq
      rw [heq, @view_resident (c.reframe f frame lru) f id hf, hself]
    · exact (helse other ‹_›).1
  · by_cases heq : other = id
    · intro g hg hd
      obtain rfl := Option.some.inj ((heq ▸ hg).symm.trans hf)
      rw [hself, hdirty] at hd
      cases hd
    · exact (helse other heq).2 (hc.resolve_right heq)

/-! ## Unpinning -/

/-- The frame after one pin is given up. -/
def unpinnedFrame (frame : Frame) (isDirty : Bool) : Frame :=
  { frame with pinCount := frame.pinCount - 1, dirty := frame.dirty || isDirty }

/-- One pin less on a resident page; the last one puts the frame at the end of the LRU list. -/
def unpinned (c : Cache) (f : FrameId) (isDirty : Bool) : Cache :=
  c.reframe f (unpinnedFrame (c.pool.frames f) isDirty)
    (if (c.pool.frames f).pinCount - 1 = 0 then c.pool.lru.erase f ++ [f] else c.pool.lru)

theorem unpinPage_run (hf : c.pool.pageTable id = some f) (hpin : (c.pool.frames f).pinCount ≠ 0) (isDirty : Bool) :
    (unpinPage id isDirty).run c = (.ok true, c.unpinned f isDirty) := by
  rw [unpinPage, Op.get_bind, hf]
  dsimp only
  rw [if_neg hpin, modifyFrame, modifyPool, Op.modify_bind, modifyPool, Op.modify_bind]
  have hframe : ((c.pool.setFrame f (unpinnedFrame (c.pool.frames f) isDirty)).frames f).pinCount =
      (c.pool.frames f).pinCount - 1 := by
    rw [BufferPool.frames_setFrame, if_pos rfl]
    rfl
  rw [unpinned, reframe, BufferPool.reframe]
  by_cases hlast : (c.pool.frames f).pinCount - 1 = 0
  · rw [if_pos hlast]
    refine Prod.ext rfl (congrArg (fun pool => { c with pool := pool }) ?_)
    exact (if_pos (hframe.trans hlast)).trans rfl
  · rw [if_neg hlast]
    refine Prod.ext rfl (congrArg (fun pool => { c with pool := pool }) ?_)
    exact (if_neg (by rw [← hframe] at hlast; exact hlast)).trans rfl

/-- The frame a client wrote while it was pinned, after the unpin. -/
theorem Inv.rewritten (h : c.Inv none) (hf : c.pool.pageTable id = some f) (hpin : (c.pool.frames f).pinCount ≠ 0)
    (hid : page.id = id) (isDirty : Bool) :
    ((c.reframe f { c.pool.frames f with page := page } c.pool.lru).unpinned f isDirty).Inv none := by
  obtain ⟨hoccupied, -⟩ := h.pool.table_frame id f hf
  have hout : f ∉ c.pool.lru := fun hmem => hpin ((h.pool.lru_iff f).mp hmem).2
  have hwritten : (c.reframe f { c.pool.frames f with page := page } c.pool.lru).Inv none := by
    refine h.reframe hf { c.pool.frames f with page := page } hoccupied hid h.pool.lru_nodup ?_ fun _ _ => Iff.rfl
    exact ⟨fun hmem => absurd hmem hout, fun hzero => absurd hzero hpin⟩
  have hframe : (c.reframe f { c.pool.frames f with page := page } c.pool.lru).pool.frames f =
      { c.pool.frames f with page := page } := by rw [frames_reframe, if_pos rfl]
  obtain ⟨hself, hother⟩ := hwritten.mem_erase_lru f
  rw [unpinned, hframe]
  by_cases hlast : (c.pool.frames f).pinCount - 1 = 0
  · rw [if_pos hlast]
    refine hwritten.reframe hf (unpinnedFrame { c.pool.frames f with page := page } isDirty) hoccupied hid ?_ ?_ ?_
    · rw [List.nodup_append]
      refine ⟨hwritten.pool.lru_nodup.erase f, List.nodup_singleton f, fun a ha b hb => ?_⟩
      rw [List.mem_singleton.mp hb]
      exact fun heq => hself (heq ▸ ha)
    · simp [unpinnedFrame, hlast]
    · intro g hg
      rw [List.mem_append, List.mem_singleton, hother g hg]
      simp [hg]
  · rw [if_neg hlast]
    refine hwritten.reframe hf (unpinnedFrame { c.pool.frames f with page := page } isDirty) hoccupied hid
      hwritten.pool.lru_nodup ?_ fun _ _ => Iff.rfl
    exact ⟨fun hmem => absurd hmem hout, fun hzero => absurd hzero hlast⟩

theorem reframe_self (c : Cache) (f : FrameId) : c.reframe f (c.pool.frames f) c.pool.lru = c := by
  rw [reframe, BufferPool.reframe, Function.update_eq_self]

theorem Inv.unpinned (h : c.Inv none) (hf : c.pool.pageTable id = some f) (hpin : (c.pool.frames f).pinCount ≠ 0)
    (isDirty : Bool) : (c.unpinned f isDirty).Inv none := by
  have hsame := h.rewritten hf hpin (h.pool.table_frame id f hf).2 isDirty
  rwa [show ({ c.pool.frames f with page := (c.pool.frames f).page } : Frame) = c.pool.frames f from rfl,
    reframe_self] at hsame

theorem Quiet.unpinned (c : Cache) (f : FrameId) : Quiet c (c.unpinned f false) :=
  .of_reframe (unpinnedFrame (c.pool.frames f) false) rfl rfl (Bool.or_false _) _

/-- A client writes the page it holds pinned and unpins it as dirty. -/
theorem Wrote.rewritten (h : c.Inv none) (hf : c.pool.pageTable id = some f) (page : Page) :
    Wrote c ((c.reframe f { c.pool.frames f with page := page } c.pool.lru).unpinned f true) id page := by
  have hframe : (c.reframe f { c.pool.frames f with page := page } c.pool.lru).pool.frames f =
      { c.pool.frames f with page := page } := by rw [frames_reframe, if_pos rfl]
  have htwice : ∀ frame lru, (c.reframe f { c.pool.frames f with page := page } c.pool.lru).reframe f frame lru =
      c.reframe f frame lru := by
    intro frame lru
    simp only [reframe, BufferPool.reframe, Function.update_idem]
  rw [unpinned, hframe, htwice]
  exact .of_reframe h hf (unpinnedFrame { c.pool.frames f with page := page } true) rfl (Bool.or_true _) _

end Cache

end Ddb.Buffer
