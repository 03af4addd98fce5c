import Ddb.Buffer.Moves
import Ddb.Buffer.Transparency

/-!
# Least recently used

The LRU list is meant to have the unpinned pages in the order in which they became unpinned. To say so, every step of the pool
is given a number, and with each page the number of the step that last took its last pin is kept: what a clock beside the pool
would show. The list is ordered by it in every state, whatever the calls return or throw, so the page that a miss evicts is the
one that has been without a pin for longest.
-/

namespace Ddb.Buffer

open Ddb.Lib Ddb.Storage

namespace BufferPool

variable {pool pool' : BufferPool} {f : FrameId} {id p : PageId}

/-- The claims of `validate_invariants`, and that the page table and the free list share the frames between them. -/
structure Represents (pool : BufferPool) : Prop where
  injective : ∀ p q f, pool.pageTable p = some f → pool.pageTable q = some f → p = q
  mapped : ∀ p f, pool.pageTable p = some f → (pool.frames f).occupied = true ∧ (pool.frames f).page.id = p
  partition : ∀ f, f < pool.capacity ↔ f ∈ pool.freeFrames ∨ ∃ p, pool.pageTable p = some f
  disjoint : ∀ p f, pool.pageTable p = some f → f ∉ pool.freeFrames
  free_nodup : pool.freeFrames.Nodup
  lru_nodup : pool.lru.Nodup
  lru_iff : ∀ f, f ∈ pool.lru ↔ (pool.frames f).occupied = true ∧ (pool.frames f).pinCount = 0

theorem Inv.represents (h : pool.Inv none) : pool.Represents where
  injective := fun p q f hp hq => (h.table_frame p f hp).2.symm.trans (h.table_frame q f hq).2
  mapped := h.table_frame
  partition := by
    intro f
    cases hf : (pool.frames f).occupied with
    | true => exact ⟨fun _ => Or.inr ⟨_, h.frame_table f hf⟩, fun _ => h.occupied_lt f hf⟩
    | false =>
      constructor
      · exact fun hlt => Or.inl ((h.free_iff f).mpr ⟨hlt, hf, nofun⟩)
      · rintro (hmem | ⟨p, hp⟩)
        · exact ((h.free_iff f).mp hmem).1
        · rw [(h.table_frame p f hp).1] at hf
          cases hf
  disjoint := by
    intro p f hp hmem
    have hfree := ((h.free_iff f).mp hmem).2.1
    rw [(h.table_frame p f hp).1] at hfree
    cases hfree
  free_nodup := h.free_nodup
  lru_nodup := h.lru_nodup
  lru_iff := h.lru_iff

/-- The page is resident and pinned. -/
def isPinned (pool : BufferPool) (p : PageId) : Bool := (pool.pageTable p).any fun f => (pool.frames f).pinCount != 0

/-- The page is resident and nobody has pinned it. -/
def isUnpinned (pool : BufferPool) (p : PageId) : Bool := (pool.pageTable p).any fun f => (pool.frames f).pinCount == 0

theorem isPinned_iff : pool.isPinned p = true ↔ ∃ f, pool.pageTable p = some f ∧ (pool.frames f).pinCount ≠ 0 := by
  cases h : pool.pageTable p <;> simp [isPinned, h]

theorem isUnpinned_iff : pool.isUnpinned p = true ↔ ∃ f, pool.pageTable p = some f ∧ (pool.frames f).pinCount = 0 := by
  cases h : pool.pageTable p <;> simp [isUnpinned, h]

/-- The pages of the LRU list are the unpinned ones. -/
theorem Inv.mem_lru_pages (h : pool.Inv none) :
    p ∈ pool.lru.map (fun f => (pool.frames f).page.id) ↔ pool.isUnpinned p = true := by
  rw [isUnpinned_iff, List.mem_map]
  constructor
  · rintro ⟨f, hf, rfl⟩
    obtain ⟨hoccupied, hpin⟩ := (h.lru_iff f).mp hf
    exact ⟨f, h.frame_table f hoccupied, hpin⟩
  · rintro ⟨f, hf, hpin⟩
    obtain ⟨hoccupied, hid⟩ := h.table_frame p f hf
    exact ⟨f, (h.lru_iff f).mpr ⟨hoccupied, hpin⟩, hid⟩

/-- One pin less on a resident page; the last one puts the frame at the end of the LRU list. -/
def unpinned (pool : BufferPool) (f : FrameId) (isDirty : Bool) : BufferPool :=
  pool.reframe f (Cache.unpinnedFrame (pool.frames f) isDirty)
    (if (pool.frames f).pinCount - 1 = 0 then pool.lru.erase f ++ [f] else pool.lru)

theorem Inv.unpinned (h : pool.Inv none) (hf : pool.pageTable id = some f) (hpin : (pool.frames f).pinCount ≠ 0)
    (isDirty : Bool) : (pool.unpinned f isDirty).Inv none := by
  obtain ⟨hoccupied, -⟩ := h.table_frame id f hf
  have hout : f ∉ pool.lru := fun hmem => hpin ((h.lru_iff f).mp hmem).2
  rw [BufferPool.unpinned, List.erase_of_not_mem hout]
  split
  · rename_i hlast
    refine h.retouch hoccupied ?_ ?_ ?_ ?_ fun g hg => ?_
    · exact hoccupied
    · rfl
    · exact List.nodup_append.mpr ⟨h.lru_nodup, List.nodup_singleton f, fun a ha b hb heq =>
        hout (List.mem_singleton.mp hb ▸ heq ▸ ha)⟩
    · simp [Cache.unpinnedFrame, hlast]
    · simp [hg]
  · rename_i hmore
    refine h.retouch hoccupied ?_ ?_ h.lru_nodup ?_ fun _ _ => Iff.rfl
    · exact hoccupied
    · rfl
    · exact ⟨fun hmem => absurd hmem hout, fun hzero => absurd hzero hmore⟩

end BufferPool

namespace Cache

open BufferPool

variable {c : Cache} {f : FrameId} {id p : PageId}

/-! ## Every step of the pool -/

/-- The last pin of a page is given up. -/
structure LastUnpin (pool pool' : BufferPool) (p : PageId) (f : FrameId) : Prop where
  page : pool.pageTable p = some f
  pin : (pool.frames f).pinCount = 1
  lru : pool'.lru = pool.lru ++ [f]
  ids : ∀ g, (pool'.frames g).page.id = (pool.frames g).page.id
  table : pool'.pageTable = pool.pageTable
  others : ∀ g, g ≠ f → pool'.frames g = pool.frames g
  unpinned : (pool'.frames f).pinCount = 0

theorem unpinPage_pool (h : c.pool.Inv none) (id : PageId) (isDirty : Bool) :
    ((unpinPage id isDirty).run c).2.pool.Inv none ∧ (Keeps c.pool ((unpinPage id isDirty).run c).2.pool ∨
      ∃ f, LastUnpin c.pool ((unpinPage id isDirty).run c).2.pool id f) := by
  cases hf : c.pool.pageTable id with
  | none =>
    have hrun : (unpinPage id isDirty).run c = (.ok false, c) := by rw [unpinPage, Op.get_bind, hf]; rfl
    rw [hrun]
    exact ⟨h, Or.inl (.refl _)⟩
  | some f =>
    by_cases hpin : (c.pool.frames f).pinCount = 0
    · have hrun : (unpinPage id isDirty).run c = (.ok false, c) := by
        rw [unpinPage, Op.get_bind, hf]
        dsimp only
        rw [if_pos hpin]
        rfl
      rw [hrun]
      exact ⟨h, Or.inl (.refl _)⟩
    · rw [unpinPage_run hf hpin]
      refine ⟨h.unpinned hf hpin isDirty, ?_⟩
      have hout : f ∉ c.pool.lru := fun hmem => hpin ((h.lru_iff f).mp hmem).2
      change Keeps c.pool (c.pool.unpinned f isDirty) ∨ ∃ g, LastUnpin c.pool (c.pool.unpinned f isDirty) id g
      by_cases hlast : (c.pool.frames f).pinCount - 1 = 0
      · refine Or.inr ⟨f, hf, by omega, ?_, fun g => ?_, rfl, fun g hg => ?_, ?_⟩
        · rw [BufferPool.unpinned, if_pos hlast, List.erase_of_not_mem hout]
          rfl
        · rw [BufferPool.unpinned, BufferPool.frames_reframe]
          split
          · rename_i hgf
            rw [hgf]
            rfl
          · rfl
        · rw [BufferPool.unpinned, BufferPool.frames_reframe, if_neg hg]
        · rw [BufferPool.unpinned, BufferPool.frames_reframe, if_pos rfl]
          exact hlast
      · refine Or.inl ?_
        rw [BufferPool.unpinned, if_neg hlast]
        exact .of_reframe (List.Sublist.refl _) rfl fun _ => hlast

/-- A change of a resident frame that leaves its id and its pins alone. -/
theorem modifyFrame_pool (h : c.pool.Inv none) (hf : c.pool.pageTable id = some f) {change : Frame → Frame}
    (hid : (change (c.pool.frames f)).page.id = (c.pool.frames f).page.id)
    (hpin : (change (c.pool.frames f)).pinCount = (c.pool.frames f).pinCount)
    (hoccupied : (change (c.pool.frames f)).occupied = (c.pool.frames f).occupied) :
    ((modifyFrame f change).run c).2.pool.Inv none ∧ Keeps c.pool ((modifyFrame f change).run c).2.pool := by
  have hold := (h.table_frame id f hf).1
  exact ⟨h.setFrame hold (hoccupied.trans hold) hid hpin, .of_reframe (List.Sublist.refl _) hid fun hne => hpin ▸ hne⟩

/-- The calls that give a resident page another LSN. -/
theorem onFrame_pool (h : c.pool.Inv none) (absent : Err) {body : FrameId → Frame → CacheOp Unit}
    (hbody : ∀ f, c.pool.pageTable id = some f → ((body f (c.pool.frames f)).run c).2.pool.Inv none ∧
      Keeps c.pool ((body f (c.pool.frames f)).run c).2.pool) :
    ((onFrame id absent body).run c).2.pool.Inv none ∧ Keeps c.pool ((onFrame id absent body).run c).2.pool := by
  rw [onFrame, Op.get_bind]
  cases hf : c.pool.pageTable id with
  | none => exact ⟨h, .refl _⟩
  | some f => exact hbody f hf

theorem throwIf_pool (h : c.pool.Inv none) {condition : Prop} [Decidable condition] {e : Err} {rest : CacheOp Unit}
    (hrest : (rest.run c).2.pool.Inv none ∧ Keeps c.pool (rest.run c).2.pool) :
    ((do throwIf condition e; rest : CacheOp Unit).run c).2.pool.Inv none ∧
      Keeps c.pool ((do throwIf condition e; rest : CacheOp Unit).run c).2.pool := by
  by_cases hcondition : condition
  · rw [Op.throwIf_bind_pos hcondition]
    exact ⟨h, .refl _⟩
  · rw [Op.throwIf_bind_neg hcondition]
    exact hrest

/-- Every step keeps the bookkeeping, and only an unpin puts a page on the LRU list. -/
theorem step_pool (h : c.pool.Inv none) (s : PoolStep) : (c.step s).pool.Inv none ∧
    (Keeps c.pool (c.step s).pool ∨ ∃ id f, LastUnpin c.pool (c.step s).pool id f) := by
  have hkeeps : ∀ {c' : Cache}, c'.pool.Inv none ∧ Keeps c.pool c'.pool →
      c'.pool.Inv none ∧ (Keeps c.pool c'.pool ∨ ∃ id f, LastUnpin c.pool c'.pool id f) :=
    fun h => ⟨h.1, Or.inl h.2⟩
  have htidies : ∀ {c' : Cache}, Tidies c c' → c'.pool.Inv none ∧ (Keeps c.pool c'.pool ∨ ∃ id f, LastUnpin c.pool c'.pool id f) :=
    fun ht => hkeeps ⟨(ht h).1, (ht h).2.toKeeps⟩
  cases s with
  | fetchPage id => exact htidies (tidies_fetchPage id c)
  | unpinPage id isDirty =>
    obtain ⟨hinv, hmoves⟩ := unpinPage_pool h id isDirty
    exact ⟨hinv, hmoves.imp_right fun hlast => ⟨id, hlast⟩⟩
  | flushPage id => exact htidies (tidies_flushPage id c)
  | flushAllPages => exact htidies (tidies_flushAllPages c)
  | deletePage id => exact htidies (tidies_deletePage id c)
  | markMutationPending id | finalizePendingMutation id lsn =>
    refine hkeeps (onFrame_pool h _ fun f hf => throwIf_pool h (throwIf_pool h (modifyFrame_pool h hf ?_ ?_ ?_))) <;> rfl
  | resolvePendingMutation id restoredPageLsn | restorePageLsnAfterUndo id restoredPageLsn =>
    refine hkeeps (onFrame_pool h _ fun f hf => throwIf_pool h (modifyFrame_pool h hf ?_ ?_ ?_)) <;> rfl
  | write id payload lsn =>
    simp only [step]
    cases hf : c.pool.pageTable id with
    | none => exact hkeeps ⟨h, .refl _⟩
    | some f =>
      dsimp only
      split
      · exact hkeeps ⟨h, .refl _⟩
      · refine hkeeps (modifyFrame_pool h hf ?_ ?_ ?_) <;> rfl
  | pages next | provider durableLsn => exact hkeeps ⟨h, .refl _⟩

end Cache

/-! ## A clock beside the pool -/

/-- A pool with the number of the steps it has made, and with each page the number of the step that last left it unpinned. -/
structure Clocked where
  cache : Cache
  clock : Nat
  unpinnedAt : PageId → Nat

namespace Clocked

open BufferPool Cache

variable {s : Clocked}

/-- The page had a pin before the step and has none after it. -/
def becomesUnpinned (pool pool' : BufferPool) (p : PageId) : Bool := pool.isPinned p && pool'.isUnpinned p

def step (s : Clocked) (a : PoolStep) : Clocked where
  cache := s.cache.step a
  clock := s.clock + 1
  unpinnedAt := fun p => if becomesUnpinned s.cache.pool (s.cache.step a).pool p then s.clock + 1 else s.unpinnedAt p

/-- An empty pool. -/
def start (pages : PageManager) (capacity : Nat) (walDurability : Option Nat) : Clocked :=
  ⟨⟨pages, .create capacity, walDurability, []⟩, 0, fun _ => 0⟩

/-- The LRU list has the pages in the order in which they became unpinned. -/
def Ordered (s : Clocked) : Prop :=
  (s.cache.pool.lru.map fun f => s.unpinnedAt (s.cache.pool.frames f).page.id).Pairwise (· < ·)

/-- No page has become unpinned in the future. -/
def Past (s : Clocked) : Prop := ∀ p, s.unpinnedAt p ≤ s.clock

theorem past_step (h : s.Past) (a : PoolStep) : (s.step a).Past := by
  intro p
  change (if _ then s.clock + 1 else s.unpinnedAt p) ≤ s.clock + 1
  split
  · exact le_rfl
  · exact Nat.le_succ_of_le (h p)

/-- A page that is on the LRU list before and after a step keeps its time. -/
theorem unpinnedAt_step (hinv : s.cache.pool.Inv none) {a : PoolStep} {f : FrameId} (hf : f ∈ s.cache.pool.lru)
    (hid : ((s.cache.step a).pool.frames f).page.id = (s.cache.pool.frames f).page.id) :
    (s.step a).unpinnedAt ((s.cache.step a).pool.frames f).page.id = s.unpinnedAt (s.cache.pool.frames f).page.id := by
  obtain ⟨hoccupied, hpin⟩ := (hinv.lru_iff f).mp hf
  have hnot : becomesUnpinned s.cache.pool (s.cache.step a).pool (s.cache.pool.frames f).page.id = false := by
    rw [becomesUnpinned, isPinned, hinv.frame_table f hoccupied, Option.any_some, hpin]
    rfl
  rw [hid]
  exact if_neg (by rw [hnot]; exact Bool.false_ne_true)

theorem ordered_step (hinv : s.cache.pool.Inv none) (hpast : s.Past) (h : s.Ordered) (a : PoolStep) : (s.step a).Ordered := by
  obtain ⟨-, hkeeps | ⟨p, f, hlast⟩⟩ := step_pool hinv a
  · -- What is left of the list is in the old order.
    have hsame : (s.step a).cache.pool.lru.map (fun f => (s.step a).unpinnedAt ((s.step a).cache.pool.frames f).page.id) =
        (s.step a).cache.pool.lru.map fun f => s.unpinnedAt (s.cache.pool.frames f).page.id :=
      List.map_congr_left fun f hf => unpinnedAt_step hinv (hkeeps.lru.subset hf) (hkeeps.ids f hf)
    rw [Ordered, hsame]
    exact h.sublist (hkeeps.lru.map _)
  · -- The new one at its end is the latest.
    have hold : (s.cache.pool.lru.map fun f => (s.step a).unpinnedAt ((s.step a).cache.pool.frames f).page.id) =
        s.cache.pool.lru.map fun f => s.unpinnedAt (s.cache.pool.frames f).page.id :=
      List.map_congr_left fun g hg => unpinnedAt_step hinv hg (hlast.ids g)
    have hnow : (s.step a).unpinnedAt ((s.step a).cache.pool.frames f).page.id = s.clock + 1 := by
      have hpage : ((s.step a).cache.pool.frames f).page.id = p := (hlast.ids f).trans (hinv.table_frame p f hlast.page).2
      have hbecomes : becomesUnpinned s.cache.pool (s.cache.step a).pool p = true := by
        refine Bool.and_eq_true_iff.mpr ⟨isPinned_iff.mpr ⟨f, hlast.page, ?_⟩, isUnpinned_iff.mpr ⟨f, ?_, hlast.unpinned⟩⟩
        · rw [hlast.pin]
          exact Nat.one_ne_zero
        · rw [hlast.table]
          exact hlast.page
      rw [hpage]
      exact if_pos hbecomes
    rw [Ordered, show (s.step a).cache.pool.lru = s.cache.pool.lru ++ [f] from hlast.lru, List.map_append, hold,
      List.map_singleton, hnow]
    refine List.pairwise_append.mpr ⟨h, List.pairwise_singleton _ _, fun x hx y hy => ?_⟩
    obtain ⟨g, -, rfl⟩ := List.mem_map.mp hx
    rw [List.mem_singleton.mp hy]
    exact Nat.lt_succ_of_le (hpast _)

/-- What holds in every state. -/
structure Sound (s : Clocked) : Prop where
  inv : s.cache.pool.Inv none
  past : s.Past
  ordered : s.Ordered

theorem Sound.next (h : s.Sound) (a : PoolStep) : (s.step a).Sound :=
  ⟨(step_pool h.inv a).1, past_step h.past a, ordered_step h.inv h.past h.ordered a⟩

theorem sound_start (pages : PageManager) (capacity : Nat) (walDurability : Option Nat) :
    (start pages capacity walDurability).Sound :=
  ⟨inv_create capacity, fun _ => le_rfl, List.Pairwise.nil⟩

/-! ## What a miss evicts -/

/-- The unpinned page that has been unpinned for longest. -/
def Oldest (s : Clocked) (p : PageId) : Prop :=
  s.cache.pool.isUnpinned p = true ∧ ∀ q, s.cache.pool.isUnpinned q = true → q ≠ p → s.unpinnedAt p < s.unpinnedAt q

theorem oldest_of_head (h : s.Sound) {victim : FrameId} {rest : List FrameId} (hlru : s.cache.pool.lru = victim :: rest) :
    s.Oldest (s.cache.pool.frames victim).page.id := by
  refine ⟨h.inv.mem_lru_pages.mp (by simp [hlru]), fun q hq hne => ?_⟩
  obtain ⟨g, hg, rfl⟩ := List.mem_map.mp (h.inv.mem_lru_pages.mpr hq)
  have hordered := h.ordered
  rw [Ordered, hlru, List.map_cons, List.pairwise_cons] at hordered
  rw [hlru, List.mem_cons] at hg
  rcases hg with rfl | hg
  · exact absurd rfl hne
  · exact hordered.1 _ (List.mem_map.mpr ⟨g, hg, rfl⟩)

/-- A miss without a free frame takes the frame of the oldest unpinned page, and leaves every other page where it is. -/
def EvictsOldest (s : Clocked) : Prop :=
  ∀ id, s.cache.pool.pageTable id = none → s.cache.pool.freeFrames = [] →
    (∀ p, s.cache.contains p = true → ((fetchPage id).run s.cache).2.contains p = false → s.Oldest p) ∧
    ∀ f, ((fetchPage id).run s.cache).1 = .ok (some f) → ∃ p, s.Oldest p ∧
      ∀ q, ((fetchPage id).run s.cache).2.contains q = true ↔ q = id ∨ (s.cache.contains q = true ∧ q ≠ p)

theorem contains_acquired (h : s.Sound) {f : FrameId} {next : BufferPool} (hfree : s.cache.pool.freeFrames = [])
    (hacquired : Acquired s.cache.pool f next) : ∃ p, s.Oldest p ∧
      ∀ q, (next.pageTable q).isSome = true ↔ s.cache.contains q = true ∧ q ≠ p := by
  cases hacquired with
  | free hsome =>
    rw [hfree] at hsome
    cases hsome
  | evicted _ hlru =>
    refine ⟨_, oldest_of_head h hlru, fun q => ?_⟩
    change (Function.update s.cache.pool.pageTable _ none q).isSome = true ↔ _
    by_cases hq : q = (s.cache.pool.frames f).page.id
    · simp [hq]
    · rw [Function.update_of_ne hq]
      exact ⟨fun hsome => ⟨hsome, hq⟩, fun hboth => hboth.1⟩

theorem evictsOldest (h : s.Sound) : s.EvictsOldest := by
  intro id habsent hfree
  have hfetch := fetchPage_pool h.inv id
  have hcontains : ∀ q, ((fetchPage id).run s.cache).2.contains q = (((fetchPage id).run s.cache).2.pool.pageTable q).isSome :=
    fun _ => rfl
  simp only [hcontains]
  generalize ((fetchPage id).run s.cache).2.pool = next at hfetch
  generalize ((fetchPage id).run s.cache).1 = outcome at hfetch
  cases hfetch with
  | refused hnone =>
    refine ⟨fun p hp hgone => ?_, fun f hf => absurd hf (hnone f)⟩
    rw [← Cache.contains, hp] at hgone
    cases hgone
  | hit hf =>
    rw [habsent] at hf
    cases hf
  | unread _ hacquired =>
    obtain ⟨oldest, holdest, hothers⟩ := contains_acquired h hfree hacquired
    refine ⟨fun p hp hgone => ?_, nofun⟩
    have hpage : p = oldest := by
      by_contra hne
      cases ((hothers p).mpr ⟨hp, hne⟩).symm.trans hgone
    rwa [hpage]
  | @missed f next page _ hacquired hid =>
    obtain ⟨oldest, holdest, hothers⟩ := contains_acquired h hfree hacquired
    have htable : ∀ q, (Function.update next.pageTable id (some f) q).isSome = true ↔
        q = id ∨ (s.cache.contains q = true ∧ q ≠ oldest) := by
      intro q
      by_cases hq : q = id
      · simp [hq]
      · rw [Function.update_of_ne hq, hothers]
        simp [hq]
    refine ⟨fun p hp hgone => ?_, fun _ _ => ⟨oldest, holdest, htable⟩⟩
    have hpage : p = oldest := by
      by_contra hne
      rw [(htable p).mpr (Or.inr ⟨hp, hne⟩)] at hgone
      cases hgone
    rwa [hpage]

/-- Whatever a call of the pool does, a pinned page stays in its frame. -/
def KeepsPinned (s : Clocked) : Prop :=
  ∀ a p, s.cache.pool.isPinned p = true → (s.cache.step a).pool.pageTable p = s.cache.pool.pageTable p

theorem keepsPinned (h : s.Sound) : s.KeepsPinned := by
  intro a p hp
  obtain ⟨f, hf, hpin⟩ := isPinned_iff.mp hp
  obtain ⟨-, hkeeps | ⟨q, g, hlast⟩⟩ := step_pool h.inv a
  · rw [(hkeeps.pinned p f hf hpin).1, hf]
  · rw [hlast.table]

/-- From an empty pool of any capacity, over any page manager and provider, which may change between the calls, and whatever
the calls return or throw: the bookkeeping agrees, the LRU list has the unpinned pages in the order in which they became
unpinned, a miss without a free frame evicts the first of them, and no pinned page is ever evicted. -/
theorem pool_bookkeeping (pages : PageManager) (capacity : Nat) (walDurability : Option Nat) (run : List PoolStep) :
    Always step (fun s => s.cache.pool.Represents ∧ s.Ordered ∧ s.EvictsOldest ∧ s.KeepsPinned)
      (start pages capacity walDurability) run := by
  have hall : Always step Sound (start pages capacity walDurability) run :=
    always_iff_forall.mpr fun _ _ => exec_keeps (fun _ a h => Sound.next h a) (sound_start pages capacity walDurability)
  exact hall.mono fun _ h => ⟨h.inv.represents, h.ordered, evictsOldest h, keepsPinned h⟩

end Clocked

end Ddb.Buffer
