import Ddb.Buffer.Flush
import Ddb.Buffer.Recency

/-!
# What clients see of their pages

Clients fetch pages, write the payload and the LSN of pages they hold pinned, and unpin them, saying of a page they wrote that
it is dirty. In between the pool flushes, evicts and deletes frames as it likes, and files and gates may fail. A page that a
client fetches is always what was last written to it: as long as it is pinned its frame is not touched, and once the last pin
is gone the frame is dirty or agrees with the disk.
-/

namespace Ddb.Buffer

open Ddb.Lib Ddb.Storage

inductive ClientStep where
  | fetchPage (id : PageId)
  /-- A client writes payload and LSN of a page it holds pinned. -/
  | write (id : PageId) (payload : Payload) (lsn : Nat)
  | unpinPage (id : PageId) (isDirty : Bool)
  | flushPage (id : PageId)
  | flushAllPages
  | deletePage (id : PageId)
  /-- The log becomes durable, or another provider is set. -/
  | provider (durableLsn : Option Nat)

/-- The pool, and what its clients have done with it. -/
structure Clients where
  cache : Cache
  /-- The last write of each page. -/
  written : PageId → Option (Payload × Nat)
  /-- The page has been written since it was last unpinned as dirty. -/
  unmarked : PageId → Bool

namespace Clients

open BufferPool Cache

variable {s : Clients} {c c' : Cache} {f : FrameId} {id p : PageId} {pages : PageManager}

def step (s : Clients) : ClientStep → Clients
  | .fetchPage id => { s with cache := s.cache.step (.fetchPage id) }
  | .write id payload lsn =>
    if s.cache.pool.isPinned id then
      { cache := s.cache.step (.write id payload lsn)
        written := Function.update s.written id (some (payload, lsn))
        unmarked := Function.update s.unmarked id true }
    else s
  | .unpinPage id isDirty =>
    { s with
      cache := s.cache.step (.unpinPage id isDirty)
      unmarked := if isDirty then Function.update s.unmarked id false else s.unmarked }
  | .flushPage id => { s with cache := s.cache.step (.flushPage id) }
  | .flushAllPages => { s with cache := s.cache.step .flushAllPages }
  | .deletePage id => { s with cache := s.cache.step (.deletePage id) }
  | .provider durableLsn => { s with cache := s.cache.step (.provider durableLsn) }

/-- An empty pool on these pages. -/
def start (pages : PageManager) (capacity : Nat) (walDurability : Option Nat) : Clients :=
  ⟨⟨pages, .create capacity, walDurability, []⟩, fun _ => none, fun _ => false⟩

/-- The last pin of a page is not given up as clean if somebody has written the page and nobody has said so. -/
def MarksWrites (s : Clients) : ClientStep → Prop
  | .unpinPage id false => ∀ f, s.cache.pool.pageTable id = some f → (s.cache.pool.frames f).pinCount = 1 → s.unmarked id = false
  | _ => True

/-- What was last written to the page, or what was on the disk at the start. -/
def expected (pages : PageManager) (s : Clients) (p : PageId) : Option Page :=
  match s.written p with
  | some (payload, lsn) => some ⟨p, lsn, payload⟩
  | none => pages.slot p

/-- The view of each page is what was last written to it, and it will survive an eviction, or the page is pinned. -/
structure Faithful (pages : PageManager) (s : Clients) : Prop where
  inv : s.cache.Inv none
  view : ∀ p, s.cache.view p = expected pages s p
  safe : ∀ p, s.cache.Clean p ∨ (s.unmarked p = true ∧ s.cache.pool.isPinned p = true)

/-! ## Calls of the pool -/

/-- A call that writes nothing and gives up no pin. -/
theorem Faithful.called (h : Faithful pages s) (hcalm : Calm s.cache c) (htidies : Tidies s.cache c) :
    Faithful pages { s with cache := c } := by
  obtain ⟨hinv, hquiet⟩ := hcalm h.inv
  obtain ⟨-, htidy⟩ := htidies h.inv.pool
  refine ⟨hinv, fun p => ?_, fun p => ?_⟩
  · rcases h.safe p with hclean | ⟨-, hpinned⟩
    · exact (hquiet.view p hclean).trans (h.view p)
    · obtain ⟨f, hf, hpin⟩ := isPinned_iff.mp hpinned
      rw [view_resident (htidy.pinned p f hf hpin).1, htidy.contents p f hf hpin, ← view_resident hf]
      exact h.view p
  · rcases h.safe p with hclean | ⟨hunmarked, hpinned⟩
    · exact Or.inl (hquiet.clean p hclean)
    · obtain ⟨f, hf, hpin⟩ := isPinned_iff.mp hpinned
      exact Or.inr ⟨hunmarked, isPinned_iff.mpr ⟨f, htidy.pinned p f hf hpin⟩⟩

/-- A frame in the place of another says nothing about other pages. -/
theorem reframe_other (hinv : c.Inv none) (hf : c.pool.pageTable id = some f) (frame : Frame) (lru : List FrameId) (hp : p ≠ id) :
    (c.reframe f frame lru).view p = c.view p ∧ ((c.reframe f frame lru).Clean p ↔ c.Clean p) ∧
      (c.reframe f frame lru).pool.isPinned p = c.pool.isPinned p := by
  have hother : ∀ g, c.pool.pageTable p = some g → (c.reframe f frame lru).pool.frames g = c.pool.frames g := by
    intro g hg
    rw [Cache.frames_reframe, if_neg]
    rintro rfl
    exact hp ((hinv.pool.table_frame p g hg).2.symm.trans (hinv.pool.table_frame id g hf).2)
  have htable : (c.reframe f frame lru).pool.pageTable p = c.pool.pageTable p := rfl
  have hslot : (c.reframe f frame lru).pages.slot p = c.pages.slot p := rfl
  refine ⟨?_, ?_, ?_⟩
  · cases hg : c.pool.pageTable p with
    | none => rw [view_absent hg, view_absent (htable.trans hg), hslot]
    | some g => rw [view_resident hg, view_resident (htable.trans hg), hother g hg]
  · rw [Clean, Clean, htable, hslot]
    constructor
    · intro h g hg hdirty
      rw [← hother g hg] at hdirty ⊢
      exact h g hg hdirty
    · intro h g hg hdirty
      rw [hother g hg] at hdirty ⊢
      exact h g hg hdirty
  · rw [isPinned, isPinned, htable]
    cases hg : c.pool.pageTable p with
    | none => rfl
    | some g => rw [Option.any_some, Option.any_some, hother g hg]

/-- A client's write through the pin it holds. -/
theorem Faithful.wrote (h : Faithful pages s) (hpinned : s.cache.pool.isPinned id = true) (payload : Payload) (lsn : Nat) :
    Faithful pages (s.step (.write id payload lsn)) := by
  obtain ⟨f, hf, hpin⟩ := isPinned_iff.mp hpinned
  obtain ⟨hoccupied, hid⟩ := h.inv.pool.table_frame id f hf
  have hout : f ∉ s.cache.pool.lru := fun hmem => hpin ((h.inv.pool.lru_iff f).mp hmem).2
  let frame : Frame := { s.cache.pool.frames f with page := ⟨(s.cache.pool.frames f).page.id, lsn, payload⟩ }
  have hcache : s.cache.step (.write id payload lsn) = s.cache.reframe f frame s.cache.pool.lru := by
    rw [Cache.step, hf]
    dsimp only
    rw [if_neg hpin]
    rfl
  have hframe : (s.cache.reframe f frame s.cache.pool.lru).pool.frames f = frame := by
    rw [Cache.frames_reframe, if_pos rfl]
  rw [step, if_pos hpinned, hcache]
  refine ⟨?_, fun p => ?_, fun p => ?_⟩
  · refine h.inv.reframe hf frame hoccupied hid h.inv.pool.lru_nodup ?_ fun _ _ => Iff.rfl
    exact ⟨fun hmem => absurd hmem hout, fun hzero => absurd hzero hpin⟩
  · by_cases hp : p = id
    · subst hp
      have hview : (s.cache.reframe f frame s.cache.pool.lru).view p =
          some ((s.cache.reframe f frame s.cache.pool.lru).pool.frames f).page := view_resident hf
      rw [hframe] at hview
      simp only [expected, Function.update_self]
      exact hview.trans (congrArg (fun q => some (⟨q, lsn, payload⟩ : Page)) hid)
    · simp only [expected, Function.update_of_ne hp]
      exact (reframe_other h.inv hf frame _ hp).1.trans (h.view p)
  · by_cases hp : p = id
    · subst hp
      refine Or.inr ⟨Function.update_self _ _ _, isPinned_iff.mpr ⟨f, hf, ?_⟩⟩
      rw [hframe]
      exact hpin
    · obtain ⟨-, hclean, hsame⟩ := reframe_other h.inv hf frame s.cache.pool.lru hp
      simp only [hclean, hsame, Function.update_of_ne hp]
      exact h.safe p

/-- A pin is given up. -/
theorem Faithful.unpinned (h : Faithful pages s) {isDirty : Bool} (hmarks : s.MarksWrites (.unpinPage id isDirty)) :
    Faithful pages (s.step (.unpinPage id isDirty)) := by
  -- An unpin that returns `false` has found the page without a pin.
  have hrefused : (unpinPage id isDirty).run s.cache = (.ok false, s.cache) → s.cache.pool.isPinned id = false →
      Faithful pages (s.step (.unpinPage id isDirty)) := by
    intro hrun hnot
    have hcache : s.cache.step (.unpinPage id isDirty) = s.cache := by rw [Cache.step, hrun]
    rw [step, hcache]
    refine ⟨h.inv, h.view, fun p => ?_⟩
    rcases h.safe p with hclean | ⟨hunmarked, hpinned⟩
    · exact Or.inl hclean
    · refine Or.inr ⟨?_, hpinned⟩
      have hp : p ≠ id := by
        rintro rfl
        rw [hnot] at hpinned
        cases hpinned
      dsimp only
      split
      · rwa [Function.update_of_ne hp]
      · exact hunmarked
  cases hf : s.cache.pool.pageTable id with
  | none =>
    refine hrefused (by rw [unpinPage, Op.get_bind, hf]; rfl) ?_
    rw [isPinned, hf]
    rfl
  | some f =>
    by_cases hpin : (s.cache.pool.frames f).pinCount = 0
    · refine hrefused ?_ ?_
      · rw [unpinPage, Op.get_bind, hf]
        dsimp only
        rw [if_pos hpin]
        rfl
      · rw [isPinned, hf, Option.any_some, hpin]
        rfl
    have hcache : s.cache.step (.unpinPage id isDirty) = s.cache.unpinned f isDirty := by
      rw [Cache.step, unpinPage_run hf hpin]
    have hframe : (s.cache.unpinned f isDirty).pool.frames f = unpinnedFrame (s.cache.pool.frames f) isDirty := by
      rw [Cache.unpinned, Cache.frames_reframe, if_pos rfl]
    have hself : (s.cache.unpinned f isDirty).view id = s.cache.view id := by
      have hview : (s.cache.unpinned f isDirty).view id = some ((s.cache.unpinned f isDirty).pool.frames f).page :=
        view_resident hf
      rw [hview, view_resident hf, hframe]
      rfl
    have hother : ∀ p, p ≠ id → _ := fun p hp =>
      reframe_other (p := p) h.inv hf (unpinnedFrame (s.cache.pool.frames f) isDirty)
        (if (s.cache.pool.frames f).pinCount - 1 = 0 then s.cache.pool.lru.erase f ++ [f] else s.cache.pool.lru) hp
    rw [step, hcache]
    refine ⟨h.inv.unpinned hf hpin isDirty, fun p => ?_, fun p => ?_⟩
    · by_cases hp : p = id
      · subst hp
        exact hself.trans (h.view p)
      · exact (hother p hp).1.trans (h.view p)
    · by_cases hp : p = id
      · subst hp
        cases isDirty with
        | true =>
          -- The frame is dirty now.
          refine Or.inl fun g hg hclean => ?_
          obtain rfl : f = g := Option.some.inj (hf.symm.trans hg)
          rw [hframe] at hclean
          simp [unpinnedFrame] at hclean
        | false =>
          rcases h.safe p with hclean | ⟨hunmarked, -⟩
          · exact Or.inl ((Quiet.unpinned s.cache f).clean p hclean)
          · refine Or.inr ⟨hunmarked, isPinned_iff.mpr ⟨f, hf, ?_⟩⟩
            rw [hframe]
            intro hzero
            have hlast : (s.cache.pool.frames f).pinCount - 1 = 0 := hzero
            rw [hmarks f hf (by omega)] at hunmarked
            cases hunmarked
      · have hunmarked : (if isDirty then Function.update s.unmarked id false else s.unmarked) p = s.unmarked p := by
          split
          · exact Function.update_of_ne hp _ _
          · rfl
        obtain ⟨-, hclean, hsame⟩ := hother p hp
        dsimp only
        rw [hunmarked]
        rcases h.safe p with hsafe | ⟨hwrote, hpinned⟩
        · exact Or.inl (hclean.mpr hsafe)
        · exact Or.inr ⟨hwrote, hsame.trans hpinned⟩

theorem Faithful.next (h : Faithful pages s) {a : ClientStep} (hmarks : s.MarksWrites a) : Faithful pages (s.step a) := by
  cases a with
  | fetchPage id => exact h.called (calm_fetchPage id s.cache) (tidies_fetchPage id s.cache)
  | write id payload lsn =>
    by_cases hpinned : s.cache.pool.isPinned id = true
    · exact h.wrote hpinned payload lsn
    · rw [step, if_neg hpinned]
      exact h
  | unpinPage id isDirty => exact h.unpinned hmarks
  | flushPage id => exact h.called (calm_flushPage id s.cache) (tidies_flushPage id s.cache)
  | flushAllPages => exact h.called (calm_flushAllPages s.cache) (tidies_flushAllPages s.cache)
  | deletePage id => exact h.called (calm_deletePage id s.cache) (tidies_deletePage id s.cache)
  | provider durableLsn => exact ⟨⟨h.inv.pages, h.inv.pool, h.inv.resident⟩, h.view, h.safe⟩

theorem faithful_start (hpages : pages.WellFormed) (capacity : Nat) (walDurability : Option Nat) :
    Faithful pages (start pages capacity walDurability) where
  inv := ⟨hpages, inv_create capacity, nofun⟩
  view := fun _ => rfl
  safe := fun _ => Or.inl nofun

/-! ## What is fetched, and what is flushed -/

/-- `flush_all_pages` leaves no dirty frame behind. -/
theorem not_dirtyAt_flushAllPages (hinv : c.Inv none) (hrun : flushAllPages.run c = (.ok (), c')) (p : PageId) : ¬ c'.DirtyAt p := by
  obtain ⟨hinv', hquiet⟩ := calm_flushAllPages c hinv
  rw [hrun] at hinv' hquiet
  rw [flushAllPages, Op.get_bind] at hrun
  obtain ⟨_, c₁, -, hrun⟩ := Op.of_bind_ok hrun
  obtain ⟨_, c₂, -, hrun⟩ := Op.of_bind_ok hrun
  have hswept := (sweep_run (List.range c.pool.capacity) c₂).symm.trans hrun
  have hframes : c'.pool.frames = fun g =>
      if g ∈ List.range c.pool.capacity then swept (c₂.pool.frames g) else c₂.pool.frames g :=
    (congrArg (fun result => result.2.pool.frames) hswept).symm
  rintro ⟨f, hf, hdirty⟩
  obtain ⟨hoccupied, -⟩ := hinv'.pool.table_frame p f hf
  have hlt := hinv'.pool.occupied_lt f hoccupied
  rw [hquiet.capacity] at hlt
  rw [hframes] at hdirty hoccupied
  simp only [if_pos (List.mem_range.mpr hlt), swept] at hdirty hoccupied
  split at hdirty
  · cases hdirty
  · rename_i hfree
    rw [if_neg hfree] at hoccupied
    exact hfree hoccupied

/-- A page that is fetched shows what was last written to it. -/
def FetchesWritten (pages : PageManager) (s : Clients) : Prop :=
  ∀ id f c, (fetchPage id).run s.cache = (.ok (some f), c) → expected pages s id = some (c.pool.frames f).page

/-- A flush of all pages that returns while no page is pinned leaves the disk with what was last written. -/
def FlushesWritten (pages : PageManager) (s : Clients) : Prop :=
  ∀ c, flushAllPages.run s.cache = (.ok (), c) → (∀ p, s.cache.pool.isPinned p = false) →
    ∀ p, c.pages.slot p = expected pages s p

theorem Faithful.fetchesWritten (h : Faithful pages s) : FetchesWritten pages s := by
  intro id f c hrun
  have hcalled := h.called (calm_fetchPage id s.cache) (tidies_fetchPage id s.cache)
  rw [hrun] at hcalled
  obtain ⟨outcome, c', hrun', -, -, hpointer⟩ := fetchPage_cases h.inv id
  obtain ⟨rfl, rfl⟩ := Prod.mk.inj (hrun.symm.trans hrun')
  obtain ⟨-, hf, -⟩ := hpointer f rfl
  exact ((view_resident hf).symm.trans (hcalled.view id)).symm

theorem Faithful.flushesWritten (h : Faithful pages s) : FlushesWritten pages s := by
  intro c hrun hunpinned p
  obtain ⟨hinv, hquiet⟩ := calm_flushAllPages s.cache h.inv
  rw [hrun] at hinv hquiet
  have hclean : s.cache.Clean p := by
    refine (h.safe p).resolve_right fun hpinned => ?_
    rw [hunpinned p] at hpinned
    cases hpinned.2
  rw [← h.view p, ← hquiet.view p hclean]
  cases hf : c.pool.pageTable p with
  | none => rw [view_absent hf]
  | some f =>
    rw [view_resident hf]
    refine hquiet.clean p hclean f hf ?_
    by_contra hdirty
    exact not_dirtyAt_flushAllPages h.inv hrun p ⟨f, hf, by simpa using hdirty⟩

/-- From an empty pool on any file, whatever the file and the gates answer: if nobody gives up the last pin of a page as clean
after a write that was not marked, every page that is fetched shows what was last written to it, and a flush of all pages that
returns while no page is pinned puts exactly that on the disk. -/
theorem pool_transparent (hpages : pages.WellFormed) (capacity : Nat) (walDurability : Option Nat) (run : List ClientStep)
    (hmarks : EachStep step MarksWrites (start pages capacity walDurability) run) :
    Always step (fun s => FetchesWritten pages s ∧ FlushesWritten pages s) (start pages capacity walDurability) run :=
  (always_of_eachStep (P := Faithful pages) (fun _ _ h hmarks => h.next hmarks)
    (faithful_start hpages capacity walDurability) hmarks).mono fun _ h => ⟨h.fetchesWritten, h.flushesWritten⟩

/-- A file with two allocated pages. -/
def twoPages : PageManager := (PageManager.allocatePage.run (PageManager.allocatePage.run .empty).2).2

theorem wellFormed_twoPages : twoPages.WellFormed := by
  obtain ⟨_, first, hfirst, hgrown, -⟩ := PageManager.allocatePage_cases PageManager.wellFormed_empty
  obtain ⟨_, second, hsecond, hgrown', -⟩ := PageManager.allocatePage_cases hgrown.wellFormed
  rw [twoPages, hfirst, hsecond]
  exact hgrown'.wellFormed

/-- In a pool of one frame a client writes page 0, and page 1 takes its frame. -/
def displacedRun : List ClientStep :=
  [.fetchPage (.ofIndex 0), .write (.ofIndex 0) (.filled 1) 0, .unpinPage (.ofIndex 0) true, .fetchPage (.ofIndex 1),
    .unpinPage (.ofIndex 1) false]

theorem displacedRun_transparent : (exec step (start twoPages 1 none) displacedRun).cache.contains (.ofIndex 0) = false ∧
    Always step (fun s => FetchesWritten twoPages s ∧ FlushesWritten twoPages s) (start twoPages 1 none) displacedRun := by
  refine ⟨by decide +kernel, pool_transparent wellFormed_twoPages 1 none displacedRun ?_⟩
  exact ⟨trivial, trivial, trivial, trivial, fun _ _ _ => rfl, trivial⟩

end Clients

end Ddb.Buffer
