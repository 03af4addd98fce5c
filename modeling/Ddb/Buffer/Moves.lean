import Ddb.Buffer.Invariant
import Ddb.Buffer.WalBeforeData

/-!
# What a call does to the frames

Whatever the page manager answers, and whether a call returns or throws, the bookkeeping of the pool stays in order. A call
that is not an unpin only takes frames off the LRU list: what is left of it stands in the old order. A page that somebody has
pinned stays in its frame, and only a client's write, or an LSN the log hands back, changes what the frame holds. Nothing here
depends on the page manager: `read_page` returns the page it was asked for or throws.
-/

namespace Ddb.Buffer

open Ddb.Lib Ddb.Storage

namespace BufferPool

variable {pool pool' : BufferPool} {held : Option FrameId} {f : FrameId} {id : PageId}

/-- No page has become unpinned, and every pinned page is where it was. -/
structure Keeps (pool pool' : BufferPool) : Prop where
  lru : pool'.lru.Sublist pool.lru
  ids : ∀ f ∈ pool'.lru, (pool'.frames f).page.id = (pool.frames f).page.id
  pinned : ∀ p f, pool.pageTable p = some f → (pool.frames f).pinCount ≠ 0 →
    pool'.pageTable p = some f ∧ (pool'.frames f).pinCount ≠ 0

/-- Nor has the contents of a pinned page changed. -/
structure Tidy (pool pool' : BufferPool) : Prop extends Keeps pool pool' where
  contents : ∀ p f, pool.pageTable p = some f → (pool.frames f).pinCount ≠ 0 → (pool'.frames f).page = (pool.frames f).page

theorem Keeps.refl (pool : BufferPool) : Keeps pool pool := ⟨List.Sublist.refl _, fun _ _ => rfl, fun _ _ hf hpin => ⟨hf, hpin⟩⟩

theorem Keeps.trans {a b c : BufferPool} (hab : Keeps a b) (hbc : Keeps b c) : Keeps a c := by
  refine ⟨hbc.lru.trans hab.lru, fun f hf => (hbc.ids f hf).trans (hab.ids f (hbc.lru.subset hf)), fun p f hf hpin => ?_⟩
  obtain ⟨hf', hpin'⟩ := hab.pinned p f hf hpin
  exact hbc.pinned p f hf' hpin'

theorem Tidy.refl (pool : BufferPool) : Tidy pool pool := ⟨.refl pool, fun _ _ _ _ => rfl⟩

theorem Tidy.trans {a b c : BufferPool} (hab : Tidy a b) (hbc : Tidy b c) : Tidy a c := by
  refine ⟨hab.toKeeps.trans hbc.toKeeps, fun p f hf hpin => ?_⟩
  obtain ⟨hf', hpin'⟩ := hab.pinned p f hf hpin
  exact (hbc.contents p f hf' hpin').trans (hab.contents p f hf hpin)

/-! ## The moves -/

/-- Another frame in the place of one, with a pin if there was one, and nothing new on the LRU list. -/
theorem Keeps.of_reframe {frame : Frame} {lru : List FrameId} (hlru : lru.Sublist pool.lru)
    (hid : frame.page.id = (pool.frames f).page.id) (hpin : (pool.frames f).pinCount ≠ 0 → frame.pinCount ≠ 0) :
    Keeps pool (pool.reframe f frame lru) := by
  refine ⟨hlru, fun g _ => ?_, fun p g hg hgpin => ⟨hg, ?_⟩⟩
  · rw [frames_reframe]
    split
    · rename_i hgf
      rw [hgf, hid]
    · rfl
  · rw [frames_reframe]
    split
    · rename_i hgf
      exact hpin (hgf ▸ hgpin)
    · exact hgpin

theorem Tidy.of_reframe {frame : Frame} {lru : List FrameId} (hlru : lru.Sublist pool.lru)
    (hpage : frame.page = (pool.frames f).page) (hpin : (pool.frames f).pinCount ≠ 0 → frame.pinCount ≠ 0) :
    Tidy pool (pool.reframe f frame lru) := by
  refine ⟨.of_reframe hlru (by rw [hpage]) hpin, fun p g hg hgpin => ?_⟩
  rw [frames_reframe]
  split
  · rename_i hgf
    rw [hgf, hpage]
  · rfl

/-- An unpinned page leaves the pool. -/
theorem Tidy.of_evict (h : pool.Inv none) (hf : pool.pageTable id = some f) (hpin : (pool.frames f).pinCount = 0) :
    Tidy pool (((pool.removeFromLru f).erasePage id).resetFrame f) := by
  have hother : ∀ g, g ≠ f → (((pool.removeFromLru f).erasePage id).resetFrame f).frames g = pool.frames g := by
    intro g hg
    exact (frames_setFrame _ g).trans (if_neg hg)
  have hpinned : ∀ p g, pool.pageTable p = some g → (pool.frames g).pinCount ≠ 0 → g ≠ f ∧ p ≠ id := by
    intro p g hg hgpin
    have hne : g ≠ f := by
      rintro rfl
      exact hgpin hpin
    refine ⟨hne, ?_⟩
    rintro rfl
    exact hne (Option.some.inj (hg.symm.trans hf))
  refine ⟨⟨List.erase_sublist, fun g hg => ?_, fun p g hg hgpin => ?_⟩, fun p g hg hgpin => ?_⟩
  · rw [hother g (h.lru_nodup.mem_erase_iff.mp hg).1]
  · obtain ⟨hne, hp⟩ := hpinned p g hg hgpin
    rw [hother g hne]
    exact ⟨(Function.update_of_ne hp _ _).trans hg, hgpin⟩
  · rw [hother g (hpinned p g hg hgpin).1]

/-- A frame that held nothing is filled or emptied. -/
theorem Tidy.of_unused (h : pool.Inv held) (hfree : (pool.frames f).occupied = false) (frame : Frame) {table : PageId → Option FrameId}
    (htable : ∀ p g, pool.pageTable p = some g → table p = some g) {free : List FrameId} :
    Tidy pool { pool.setFrame f frame with pageTable := table, freeFrames := free } := by
  have hother : ∀ g, (pool.frames g).occupied = true → (pool.setFrame f frame).frames g = pool.frames g := by
    intro g hg
    refine (frames_setFrame frame g).trans (if_neg ?_)
    rintro rfl
    rw [hfree] at hg
    cases hg
  refine ⟨⟨List.Sublist.refl _, fun g hg => ?_, fun p g hg hgpin => ⟨htable p g hg, ?_⟩⟩, fun p g hg hgpin => ?_⟩
  · exact congrArg (fun frame => frame.page.id) (hother g ((h.lru_iff g).mp hg).1)
  · exact (congrArg Frame.pinCount (hother g (h.table_frame p g hg).1)) ▸ hgpin
  · exact congrArg Frame.page (hother g (h.table_frame p g hg).1)

theorem resetFrame_idem (pool : BufferPool) (f : FrameId) : (pool.resetFrame f).resetFrame f = pool.resetFrame f := by
  simp only [resetFrame, setFrame, Function.update_idem]

/-- An unpinned page leaves the pool, and its frame goes to the free list. -/
theorem drop_tidy (h : pool.Inv none) (hf : pool.pageTable id = some f) (hpin : (pool.frames f).pinCount = 0) :
    ((((pool.removeFromLru f).erasePage id).resetFrame f).pushFree f).Inv none ∧
      Tidy pool ((((pool.removeFromLru f).erasePage id).resetFrame f).pushFree f) := by
  obtain ⟨hoccupied, hid⟩ := h.table_frame id f hf
  have hgiven := (h.evict hoccupied hid).giveBack
  rw [resetFrame_idem] at hgiven
  have htidy := Tidy.of_evict h hf hpin
  exact ⟨hgiven, htidy.trans ⟨⟨List.Sublist.refl _, fun _ _ => rfl, fun _ _ hg hgpin => ⟨hg, hgpin⟩⟩, fun _ _ _ _ => rfl⟩⟩

/-- A frame for a page that is not resident: a free one, or the one at the front of the LRU list, whose page leaves. -/
inductive Acquired (pool : BufferPool) : FrameId → BufferPool → Prop where
  | free {f : FrameId} {rest : List FrameId} (hfree : pool.freeFrames = f :: rest) :
      Acquired pool f { pool with freeFrames := rest }
  | evicted {victim : FrameId} {rest : List FrameId} (hfree : pool.freeFrames = []) (hlru : pool.lru = victim :: rest) :
      Acquired pool victim (((pool.removeFromLru victim).erasePage (pool.frames victim).page.id).resetFrame victim)

theorem Acquired.tidy {next : BufferPool} (h : pool.Inv none) (hacquired : Acquired pool f next) :
    next.Inv (some f) ∧ Tidy pool next ∧ ∀ p, pool.pageTable p = none → next.pageTable p = none := by
  cases hacquired with
  | free hfree =>
    refine ⟨h.takeFree hfree, ⟨⟨List.Sublist.refl _, fun _ _ => rfl, fun _ _ hg hgpin => ⟨hg, hgpin⟩⟩, fun _ _ _ _ => rfl⟩, ?_⟩
    exact fun _ habsent => habsent
  | evicted hfree hlru =>
    obtain ⟨hoccupied, hpin⟩ := (h.lru_iff f).mp (by rw [hlru]; exact List.mem_cons_self)
    refine ⟨h.evict hoccupied rfl, .of_evict h (h.frame_table f hoccupied) hpin, fun p habsent => ?_⟩
    change Function.update pool.pageTable _ none p = none
    rw [Function.update_apply, habsent, ite_self]

end BufferPool

namespace Cache

open BufferPool

variable {c c' : Cache} {f : FrameId} {id : PageId}

/-- A call that keeps the bookkeeping. -/
def Tidies (c c' : Cache) : Prop := c.pool.Inv none → c'.pool.Inv none ∧ Tidy c.pool c'.pool

theorem Tidies.of_pool (h : c'.pool = c.pool) : Tidies c c' := by
  intro hinv
  rw [h]
  exact ⟨hinv, .refl _⟩

theorem Tidies.refl (c : Cache) : Tidies c c := .of_pool rfl

theorem Tidies.trans (a b c : Cache) (hab : Tidies a b) (hbc : Tidies b c) : Tidies a c := by
  intro hinv
  obtain ⟨hinv', htidy⟩ := hab hinv
  obtain ⟨hinv'', htidy'⟩ := hbc hinv'
  exact ⟨hinv'', htidy.trans htidy'⟩

theorem tidies_onPages {α : Type} (x : PageOp α) : Op.Within Tidies (onPages x) := fun _ => .of_pool rfl

theorem tidies_handToDisk (id : PageId) (frame : Frame) : Op.Within Tidies (handToDisk id frame) :=
  Op.Within.bind Tidies.trans (Op.within_modify fun _ => .of_pool rfl) fun _ => tidies_onPages _

theorem tidies_requireWritable (frame : Frame) : Op.Within Tidies (requireWritable frame) := by
  intro c
  rcases requireWritable_cases frame c with ⟨hok, -⟩ | ⟨e, he, -⟩
  · rw [hok]
    exact .refl c
  · rw [he]
    exact .refl c

/-- A change of a frame that nobody can tell from its page or its pins. -/
theorem tidies_modifyFrame (change : Frame → Frame)
    (hsame : ∀ frame, (change frame).page = frame.page ∧ (change frame).pinCount = frame.pinCount ∧
      (change frame).occupied = frame.occupied)
    (hblank : change .blank = .blank) (f : FrameId) : Op.Within Tidies (modifyFrame f change) := by
  intro c hinv
  change (c.pool.setFrame f (change (c.pool.frames f))).Inv none ∧ Tidy c.pool (c.pool.setFrame f (change (c.pool.frames f)))
  obtain ⟨hpage, hpin, hoccupied⟩ := hsame (c.pool.frames f)
  cases hf : (c.pool.frames f).occupied with
  | true =>
    exact ⟨hinv.setFrame hf (hoccupied.trans hf) (by rw [hpage]) hpin,
      .of_reframe (List.Sublist.refl _) hpage fun h => hpin ▸ h⟩
  | false =>
    have hunchanged : c.pool.setFrame f (change (c.pool.frames f)) = c.pool := by
      rw [hinv.blank f hf, hblank, ← hinv.blank f hf, BufferPool.setFrame, Function.update_eq_self]
    rw [hunchanged]
    exact ⟨hinv, .refl _⟩

theorem tidies_clearDirty (f : FrameId) : Op.Within Tidies (modifyFrame f fun frame => { frame with dirty := false }) :=
  tidies_modifyFrame (fun frame => { frame with dirty := false }) (fun _ => ⟨rfl, rfl, rfl⟩) rfl f

/-- What a write-back leaves: nothing moves, and if it returns the frame is clean. -/
theorem writeDirtyFrame_pool (f : FrameId) (c : Cache) :
    (∃ e c', (writeDirtyFrame f).run c = (.error e, c') ∧ c'.pool = c.pool) ∨
    ∃ c', (writeDirtyFrame f).run c = (.ok (), c') ∧ c'.pool = c.pool.setFrame f { c.pool.frames f with dirty := false } := by
  rw [writeDirtyFrame, Op.get_bind]
  dsimp only
  by_cases hdirty : (c.pool.frames f).dirty = true
  · rw [if_pos hdirty]
    rcases requireWritable_cases (c.pool.frames f) c with ⟨hok, -⟩ | ⟨e, he, -⟩
    · rw [Op.bind_ok hok]
      cases hhand : (handToDisk (c.pool.frames f).page.id (c.pool.frames f)).run c with
      | mk outcome c' =>
        have hpool : c'.pool = c.pool := (congrArg (fun result => result.2.pool) hhand).symm
        cases outcome with
        | error e => exact Or.inl ⟨e, c', Op.bind_error hhand, hpool⟩
        | ok _ =>
          refine Or.inr ⟨_, Op.bind_ok hhand, ?_⟩
          change c'.pool.setFrame f { c'.pool.frames f with dirty := false } = _
          rw [hpool]
    · exact Or.inl ⟨e, c, Op.bind_error he, rfl⟩
  · rw [if_neg hdirty]
    refine Or.inr ⟨c, rfl, ?_⟩
    rw [BufferPool.setFrame, ← Bool.eq_false_iff.mpr hdirty, Function.update_eq_self]

theorem tidies_flushPage (id : PageId) : Op.Within Tidies (flushPage id) := by
  apply Op.within_get_bind
  intro c
  cases c.pool.pageTable id with
  | none => exact .refl c
  | some f =>
    refine Op.Within.bind Tidies.trans ?_ (fun _ => ?_) c
    · exact Op.Within.ite (fun _ => tidies_requireWritable _) fun _ => Op.within_pure Tidies.refl _
    · refine Op.Within.bind Tidies.trans (tidies_handToDisk id _) fun _ => ?_
      refine Op.Within.bind Tidies.trans (tidies_onPages _) fun _ => ?_
      exact Op.Within.bind Tidies.trans (tidies_clearDirty f) fun _ => Op.within_pure Tidies.refl _

theorem tidies_flushAllPages : Op.Within Tidies flushAllPages := by
  apply Op.within_get_bind
  intro c
  refine Op.Within.bind Tidies.trans (Op.within_forM Tidies.refl Tidies.trans _ fun f _ => ?_) (fun _ => ?_) c
  · apply Op.within_get_bind
    intro c
    refine Op.Within.ite (fun _ => ?_) (fun _ => Op.within_pure Tidies.refl _) c
    exact Op.Within.bind Tidies.trans (tidies_requireWritable _) fun _ => tidies_handToDisk _ _
  · refine Op.Within.bind Tidies.trans (tidies_onPages _) fun _ => ?_
    refine Op.within_forM Tidies.refl Tidies.trans _ fun f _ => ?_
    refine tidies_modifyFrame (fun frame => if frame.occupied then { frame with dirty := false } else frame) ?_ rfl f
    intro frame
    split <;> exact ⟨rfl, rfl, rfl⟩

theorem tidies_deletePage (id : PageId) : Op.Within Tidies (deletePage id) := by
  apply Op.within_get_bind
  intro c
  cases hf : c.pool.pageTable id with
  | none => exact .refl c
  | some f =>
    dsimp only
    by_cases hpin : (c.pool.frames f).pinCount ≠ 0
    · rw [if_pos hpin]
      exact .refl c
    rw [if_neg hpin]
    intro hinv
    rcases writeDirtyFrame_pool f c with ⟨e, c', hrun, hpool⟩ | ⟨c', hrun, hpool⟩
    · rw [Op.bind_error hrun]
      exact Tidies.of_pool hpool hinv
    · rw [Op.bind_ok hrun]
      obtain ⟨hinv', htidy⟩ := tidies_clearDirty f c hinv
      have hframe : ((c.pool.setFrame f { c.pool.frames f with dirty := false }).frames f).pinCount = 0 := by
        rw [frames_setFrame, if_pos rfl]
        exact not_not.mp hpin
      obtain ⟨hdropped, hdrop⟩ := @drop_tidy _ f id hinv' hf hframe
      change ((((c'.pool.removeFromLru f).erasePage id).resetFrame f).pushFree f).Inv none ∧
        Tidy c.pool ((((c'.pool.removeFromLru f).erasePage id).resetFrame f).pushFree f)
      rw [hpool]
      exact ⟨hdropped, htidy.trans hdrop⟩

/-! ## Fetching -/

theorem acquireFrame_pool (c : Cache) :
    (∃ e c', acquireFrame.run c = (.error e, c') ∧ c'.pool = c.pool) ∨ acquireFrame.run c = (.ok none, c) ∨
    ∃ f c', acquireFrame.run c = (.ok (some f), c') ∧ Acquired c.pool f c'.pool := by
  rw [acquireFrame, Op.get_bind]
  cases hfree : c.pool.freeFrames with
  | cons f rest => exact Or.inr (Or.inr ⟨f, _, rfl, .free hfree⟩)
  | nil =>
    cases hlru : c.pool.lru with
    | nil => exact Or.inr (Or.inl rfl)
    | cons victim rest =>
      rcases writeDirtyFrame_pool victim c with ⟨e, c', hrun, hpool⟩ | ⟨c', hrun, hpool⟩
      · exact Or.inl ⟨e, c', Op.bind_error hrun, hpool⟩
      · refine Or.inr (Or.inr ⟨victim, _, Op.bind_ok hrun, ?_⟩)
        have hevicted : ((c'.pool.removeFromLru victim).erasePage (c'.pool.frames victim).page.id).resetFrame victim =
            ((c.pool.removeFromLru victim).erasePage (c.pool.frames victim).page.id).resetFrame victim := by
          rw [hpool, frames_setFrame, if_pos rfl]
          simp only [resetFrame, BufferPool.setFrame, erasePage, removeFromLru, Function.update_idem]
        change Acquired c.pool victim (((c'.pool.removeFromLru victim).erasePage _).resetFrame victim)
        rw [hevicted]
        exact .evicted hfree hlru

/-- The frame of a page that has just been read. -/
def freshFrame (old : Frame) (page : Page) : Frame := { old with page := page, pinCount := 1, dirty := false, occupied := true }

theorem fillFrame_pool (habsent : c.pool.pageTable id = none) :
    (∃ e c', (fillFrame id f).run c = (.error e, c') ∧ c'.pool = (c.pool.resetFrame f).pushFree f) ∨
    ∃ page c', (fillFrame id f).run c = (.ok (), c') ∧ page.id = id ∧
      c'.pool = { c.pool.setFrame f (freshFrame (c.pool.frames f) page) with
        pageTable := Function.update c.pool.pageTable id (some f) } := by
  cases hread : (PageManager.readPage id).run c.pages with
  | mk outcome pages =>
    have hrun : (onPages (PageManager.readPage id)).run c = (outcome, { c with pages := pages }) := by
      change ((_ : Except Err Page × PageManager).1, ({ c with pages := _ } : Cache)) = _
      rw [hread]
    cases outcome with
    | error e =>
      refine Or.inl ⟨e, _, Op.bind_error ((Op.tryCatch_error hrun).trans rfl), rfl⟩
    | ok page =>
      refine Or.inr ⟨page, { c with
        pages := pages
        pool := { c.pool.setFrame f (freshFrame (c.pool.frames f) page) with
          pageTable := Function.update c.pool.pageTable id (some f) } }, ?_, PageManager.readPage_id hread, rfl⟩
      rw [fillFrame, Op.bind_ok (Op.tryCatch_ok hrun), modifyFrame, modifyPool, Op.modify_bind, Op.get_bind]
      dsimp only [BufferPool.setFrame]
      rw [habsent]
      rfl

/-- The ends of `fetch_page`. -/
inductive Fetches (c : Cache) (id : PageId) : Except Err (Option FrameId) → BufferPool → Prop where
  /-- Nothing was fetched, and nothing was evicted. -/
  | refused {outcome : Except Err (Option FrameId)} (hnone : ∀ f, outcome ≠ .ok (some f)) : Fetches c id outcome c.pool
  | hit {f : FrameId} (hf : c.pool.pageTable id = some f) : Fetches c id (.ok (some f))
      (c.pool.reframe f { c.pool.frames f with pinCount := (c.pool.frames f).pinCount + 1 } (c.pool.lru.erase f))
  /-- The page could not be read. -/
  | unread {f : FrameId} {e : Err} {next : BufferPool} (habsent : c.pool.pageTable id = none)
      (hacquired : Acquired c.pool f next) : Fetches c id (.error e) ((next.resetFrame f).pushFree f)
  | missed {f : FrameId} {next : BufferPool} {page : Page} (habsent : c.pool.pageTable id = none)
      (hacquired : Acquired c.pool f next) (hid : page.id = id) : Fetches c id (.ok (some f))
        { next.setFrame f (freshFrame (next.frames f) page) with pageTable := Function.update next.pageTable id (some f) }

theorem fetchPage_pool (h : c.pool.Inv none) (id : PageId) :
    Fetches c id ((fetchPage id).run c).1 ((fetchPage id).run c).2.pool := by
  rw [fetchPage, Op.get_bind]
  by_cases hvalid : id.isValid = false
  · rw [if_pos hvalid]
    exact .refused nofun
  rw [if_neg hvalid]
  by_cases halloc : c.pages.isPageAllocated id = false
  · rw [Op.throwIf_bind_pos halloc]
    exact .refused nofun
  rw [Op.throwIf_bind_neg halloc]
  cases hf : c.pool.pageTable id with
  | some f =>
    dsimp only
    split
    · exact .refused nofun
    · exact .hit hf
  | none =>
    rcases acquireFrame_pool c with ⟨e, c', hrun, hpool⟩ | hrun | ⟨f, c', hrun, hacquired⟩
    · rw [Op.bind_error hrun]
      change Fetches c id _ c'.pool
      rw [hpool]
      exact .refused nofun
    · rw [Op.bind_ok hrun]
      exact .refused nofun
    · rw [Op.bind_ok hrun]
      rcases fillFrame_pool (f := f) ((hacquired.tidy h).2.2 id hf) with ⟨e, c'', hfill, hpool⟩ | ⟨page, c'', hfill, hid, hpool⟩
      · dsimp only
        rw [Op.bind_error hfill]
        change Fetches c id _ c''.pool
        rw [hpool]
        exact .unread hf hacquired
      · dsimp only
        rw [Op.bind_ok hfill]
        change Fetches c id _ c''.pool
        rw [hpool]
        exact .missed hf hacquired hid

theorem Fetches.tidy {outcome : Except Err (Option FrameId)} {next : BufferPool} (h : c.pool.Inv none)
    (hfetch : Fetches c id outcome next) : next.Inv none ∧ Tidy c.pool next := by
  cases hfetch with
  | refused _ => exact ⟨h, .refl _⟩
  | @hit f hf =>
    obtain ⟨hoccupied, -⟩ := h.table_frame id f hf
    have hout : f ∉ c.pool.lru.erase f := fun hmem => (h.lru_nodup.mem_erase_iff.mp hmem).1 rfl
    refine ⟨?_, .of_reframe List.erase_sublist rfl fun _ => Nat.succ_ne_zero _⟩
    refine h.retouch hoccupied ?_ ?_ (h.lru_nodup.erase f) ?_ fun g hg => ?_
    · exact hoccupied
    · rfl
    · simp [hout]
    · rw [h.lru_nodup.mem_erase_iff]
      exact ⟨fun hmem => hmem.2, fun hmem => ⟨hg, hmem⟩⟩
  | @unread f e mid habsent hacquired =>
    obtain ⟨hmid, htidy, -⟩ := hacquired.tidy h
    refine ⟨hmid.giveBack, htidy.trans ?_⟩
    exact .of_unused hmid (hmid.held_free f rfl).2 .blank fun _ _ hg => hg
  | @missed f mid page habsent hacquired hid =>
    obtain ⟨hmid, htidy, hstill⟩ := hacquired.tidy h
    refine ⟨hmid.fill (hstill id habsent) rfl hid (by simp [freshFrame]), htidy.trans ?_⟩
    refine .of_unused hmid (hmid.held_free f rfl).2 _ fun p g hg => ?_
    rw [Function.update_of_ne, hg]
    rintro rfl
    rw [hstill p habsent] at hg
    cases hg

theorem tidies_fetchPage (id : PageId) : Op.Within Tidies (fetchPage id) := fun _ h => (fetchPage_pool h id).tidy h

end Cache

end Ddb.Buffer
