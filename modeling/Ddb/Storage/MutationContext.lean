import Ddb.Buffer.SingleClient
import Ddb.Lib.Images
import Ddb.Lib.PagedChange

/-!
# A mutation context of its own

Without a finalizer a mutation context keeps what it captures until it is drained; there is no transaction and no log. Every
page access of a client goes through it: a page that is to be changed is watched, written and finished while it is pinned.
However such a run ends, the images it has captured lead from the pages at its start to the pages as they are now. A page
that is not in the file reads as zero here, which is what a new page holds.
-/

namespace Ddb.Storage

open Ddb.Lib Ddb.Buffer

structure Capture.Pending where
  id : PageId
  before : Payload
  previousPageLsn : Nat

/-- A mutation context without a finalizer, and the pool it watches. -/
structure Capture where
  cache : Cache
  pending : List Capture.Pending
  mutations : List PhysicalMutation
  nextSequence : UInt64

abbrev CaptureOp := Op Err Capture

def applyAfterImage (mutation : PhysicalMutation) : CacheOp Unit := applyImage mutation.pageId mutation.afterImage

namespace Capture

/-- The constructor. -/
def new (cache : Cache) : Capture := ⟨cache, [], [], 0⟩

def onCache {α : Type} (x : CacheOp α) : CaptureOp α := x.zoom cache fun k c => { k with cache := c }

def watch (id : PageId) : CaptureOp Unit := do
  throwIf (id.isValid = false) (.invalidArgument "invalid mutation page")
  let page ← onCache (image id)
  modify fun k => { k with pending := k.pending ++ [⟨id, page.payload, page.lsn⟩] }

def capture (id : PageId) (after : Payload) : CaptureOp Unit := do
  let k ← get
  match k.pending.find? fun entry => entry.id = id with
  | none => throw (.logic "finish without watch")
  | some entry =>
    (if after ≠ entry.before then
      modify fun k => { k with
        mutations := k.mutations ++ [⟨id, .payloadWrite, k.nextSequence, entry.before, after, entry.previousPageLsn⟩]
        nextSequence := k.nextSequence + 1 }
    else pure ())
    modify fun k => { k with pending := k.pending.eraseP fun entry => entry.id = id }

/-- `finish(id, page)`. -/
def finish (id : PageId) (frameId : FrameId) : CaptureOp Unit := do
  let page := ((← get).cache.pool.frames frameId).page
  throwIf (page.id ≠ id) (.invalidArgument "mutation page does not match finish target")
  capture id page.payload

def drainCaptured : CaptureOp (List PhysicalMutation) := do
  let k ← get
  throwIf (k.pending.isEmpty = false) (.logic "unfinished mutation capture")
  set { k with mutations := [] }
  return k.mutations

/-- A client changes the page it has pinned. -/
def changePinned (id : PageId) (frameId : FrameId) (after : Payload) : CaptureOp Unit := do
  watch id
  onCache (writePayload frameId after)
  finish id frameId
  let _ ← onCache (Cache.unpinPage id true)

/-- One page access: pin the page, read it, change it under the context or not, unpin it. -/
def access (id : PageId) (change : Payload → Option Payload) : CaptureOp (Option Payload) := do
  match ← onCache (Cache.fetchPage id) with
  | none => return none
  | some frameId =>
    let payload := ((← get).cache.pool.frames frameId).page.payload
    match change payload with
    | some after =>
      changePinned id frameId after
      return some payload
    | none =>
      let _ ← onCache (Cache.unpinPage id false)
      return some payload

def allocate : CaptureOp PageId := onCache (Cache.onPages PageManager.allocatePage)

def pager : Pager PageId Payload Err Capture where
  access id change k := (access id change).run k
  allocate k := allocate.run k

/-! ## One access -/

variable {k : Capture} {id : PageId} {change : Payload → Option Payload}

theorem onCache_run {α : Type} {x : CacheOp α} {outcome : Except Err α} {c : Cache} (h : x.run k.cache = (outcome, c)) :
    (onCache x).run k = (outcome, { k with cache := c }) := by
  change ((x.run k.cache).1, ({ k with cache := (x.run k.cache).2 } : Capture)) = _
  rw [h]

/-- The context after the change of a page. -/
def captured (k : Capture) (c : Cache) (id : PageId) (old : Page) (after : Payload) : Capture :=
  if after ≠ old.payload then
    ⟨c, k.pending, k.mutations ++ [⟨id, .payloadWrite, k.nextSequence, old.payload, after, old.lsn⟩], k.nextSequence + 1⟩
  else { k with cache := c }

theorem finish_run {c : Cache} {f : FrameId} {old : Page} (hpending : k.pending = []) (hid : (c.pool.frames f).page.id = id) :
    (finish id f).run { k with cache := c, pending := k.pending ++ [⟨id, old.payload, old.lsn⟩] } =
      (.ok (), k.captured c id old (c.pool.frames f).page.payload) := by
  obtain ⟨cache, pending, mutations, sequence⟩ := k
  obtain rfl : pending = [] := hpending
  rw [finish, Op.get_bind, Op.throwIf_bind_neg (by simp [hid]), capture, Op.get_bind]
  simp only [List.nil_append, List.find?_singleton, decide_true, if_true, captured]
  split <;> simp

theorem cache_captured (c : Cache) (old : Page) (after : Payload) : (k.captured c id old after).cache = c := by
  unfold captured
  split <;> rfl

theorem captured_withCache (c c' : Cache) (old : Page) (after : Payload) :
    ({ k.captured c id old after with cache := c' } : Capture) = k.captured c' id old after := by
  unfold captured
  split <;> rfl

theorem changePinned_run {c c' : Cache} {f : FrameId} {after : Payload} (hpending : k.pending = []) (hvalid : id.isValid = true)
    (hid : (c.pool.frames f).page.id = id) (himage : (image id).run c = (.ok (c.pool.frames f).page, c))
    (hunpin : (Cache.unpinPage id true).run (c.written f ((c.pool.frames f).page.withPayload after)) = (.ok true, c')) :
    (changePinned id f after).run { k with cache := c } = (.ok (), k.captured c' id (c.pool.frames f).page after) := by
  have hwatch : (watch id).run { k with cache := c } = (.ok (),
      { k with cache := c, pending := k.pending ++ [⟨id, (c.pool.frames f).page.payload, (c.pool.frames f).page.lsn⟩] }) := by
    rw [watch, Op.throwIf_bind_neg (by simp [hvalid]), Op.bind_ok (onCache_run himage)]
    rfl
  have hframe : ((c.written f ((c.pool.frames f).page.withPayload after)).pool.frames f).page =
      (c.pool.frames f).page.withPayload after := congrArg Frame.page ((Cache.frames_written f).trans (if_pos rfl))
  have hpage : (((c.written f ((c.pool.frames f).page.withPayload after)).pool.frames f).page).payload = after := by
    rw [hframe]
    rfl
  have hfinish := @finish_run k id (c.written f ((c.pool.frames f).page.withPayload after)) f (c.pool.frames f).page hpending
    (by rw [hframe]; exact hid)
  rw [hpage] at hfinish
  rw [changePinned, Op.bind_ok hwatch, Op.bind_ok (onCache_run (Cache.writePayload_run c f after)), Op.bind_ok hfinish]
  refine (Op.bind_ok (onCache_run (by rw [cache_captured]; exact hunpin))).trans ?_
  rw [captured_withCache]
  rfl

/-- The ends of an access. -/
inductive Accessed (k : Capture) (id : PageId) (change : Payload → Option Payload) :
    Except Err (Option Payload) × Capture → Prop where
  | failed {outcome : Except Err (Option Payload)} {c : Cache} (houtcome : ∀ payload, outcome ≠ .ok (some payload))
      (hquiet : k.cache.Quiet c) : Accessed k id change (outcome, { k with cache := c })
  | read {old : Page} {c : Cache} (hview : k.cache.view id = some old) (hchange : change old.payload = none)
      (hquiet : k.cache.Quiet c) : Accessed k id change (.ok (some old.payload), { k with cache := c })
  | changed {old : Page} {after : Payload} {c : Cache} (hview : k.cache.view id = some old)
      (hchange : change old.payload = some after) (halloc : k.cache.pages.isPageAllocated id = true)
      (hwrote : k.cache.Rewrote c id (old.withPayload after)) :
      Accessed k id change (.ok (some old.payload), k.captured c id old after)

theorem access_cases (hinv : k.cache.Inv none) (hpending : k.pending = []) (id : PageId) (change : Payload → Option Payload) :
    Accessed k id change ((access id change).run k) ∧ ((access id change).run k).2.cache.Inv none := by
  have hfetch := Cache.fetched_fetchPage hinv id
  rcases hrun : (Cache.fetchPage id).run k.cache with ⟨outcome, c⟩
  rw [hrun] at hfetch
  generalize hresult : (outcome, c) = result at hfetch
  cases hfetch with
  | failed houtcome hinv' hquiet =>
    obtain ⟨rfl, rfl⟩ := Prod.mk.inj hresult
    match outcome, houtcome with
    | .error e, _ =>
      rw [access, Op.bind_error (onCache_run hrun)]
      exact ⟨.failed nofun hquiet, hinv'⟩
    | .ok none, _ =>
      rw [access, Op.bind_ok (onCache_run hrun)]
      exact ⟨.failed nofun hquiet, hinv'⟩
    | .ok (some f), houtcome => exact absurd rfl (houtcome f)
  | @fetched f c' hinv' hquiet hview halloc hf hpin =>
    obtain ⟨rfl, rfl⟩ := Prod.mk.inj hresult
    have hold : k.cache.view id = some (c.pool.frames f).page := by rw [← hview, Cache.view_resident hf]
    have hid := (hinv'.pool.table_frame id f hf).2
    have hvalid := (PageManager.isPageAllocated_iff.mp halloc).1
    rw [access, Op.bind_ok (onCache_run hrun)]
    dsimp only
    rw [Op.get_bind]
    cases hchange : change (c.pool.frames f).page.payload with
    | none =>
      dsimp only
      rw [Op.bind_ok (onCache_run (Cache.unpinPage_run hf hpin false))]
      exact ⟨.read hold hchange (hquiet.trans (.unpinned c f)), hinv'.unpinned hf hpin false⟩
    | some after =>
      dsimp only
      obtain ⟨hunpin, hinv'', hwrote⟩ := @Cache.unpin_written c f id ((c.pool.frames f).page.withPayload after) hinv' hf hpin hid
      rcases Cache.image_pinned hinv' ((hquiet.allocated id).trans halloc) hf hpin with ⟨e, himage⟩ | himage
      · have hrefused : (changePinned id f after).run { k with cache := c } = (.error e, { k with cache := c }) := by
          rw [changePinned]
          apply Op.bind_error
          rw [watch, Op.throwIf_bind_neg (by simp [hvalid]), Op.bind_error (onCache_run himage)]
        rw [Op.bind_error hrefused]
        exact ⟨.failed nofun hquiet, hinv'⟩
      · rw [Op.bind_ok (changePinned_run hpending hvalid hid himage hunpin)]
        refine ⟨.changed hold hchange halloc (hquiet.then_wrote hwrote), ?_⟩
        change (k.captured _ id (c.pool.frames f).page after).cache.Inv none
        rw [cache_captured]
        exact hinv''

/-! ## What the images say -/

/-- The payload of a page, from the pool or from the file. -/
def contents (c : Cache) (id : PageId) : Payload := ((c.view id).map Page.payload).getD .zero

end Capture

def PhysicalMutation.change (mutation : PhysicalMutation) : Change PageId Payload :=
  ⟨mutation.pageId, mutation.beforeImage, mutation.afterImage⟩

namespace Capture

variable {c c' : Cache} {pages : PageManager} {k : Capture} {id : PageId}

theorem contents_quiet (hclean : ∀ id, c.Clean id) (h : c.Quiet c') : contents c' = contents c := by
  funext id
  rw [contents, contents, h.view id (hclean id)]

theorem contents_rewrote {page : Page} (hclean : ∀ id, c.Clean id) (h : c.Rewrote c' id page) :
    contents c' = Function.update (contents c) id page.payload := by
  funext other
  by_cases hother : other = id
  · subst hother
    rw [Function.update_self, contents, h.self]
    rfl
  · rw [Function.update_of_ne hother, contents, contents, h.view other hother (hclean other)]

theorem clean_rewrote {page : Page} (hclean : ∀ id, c.Clean id) (h : c.Rewrote c' id page) (other : PageId) : c'.Clean other := by
  by_cases hother : other = id
  · exact hother ▸ h.clean_self
  · exact h.clean other hother (hclean other)

/-! New pages in the file, under the same pool. -/

theorem view_grown (hgrown : c.pages.Grown pages) (id : PageId) :
    Cache.view { c with pages := pages } id = c.view id ∨
      c.view id = none ∧ Cache.view { c with pages := pages } id = some ⟨id, 0, .zero⟩ := by
  cases htable : c.pool.pageTable id with
  | some f => exact .inl (by simp only [Cache.view, htable])
  | none =>
    simp only [Cache.view, htable]
    by_cases hindex : id.index < c.pages.pageCount
    · exact .inl (hgrown.slot id hindex)
    · have hnone : c.pages.slot id = none := by rw [PageManager.slot, if_neg hindex]
      rw [hnone]
      cases hslot : pages.slot id with
      | none => exact .inl rfl
      | some page => exact .inr ⟨rfl, congrArg some (hgrown.fresh id page (Nat.le_of_not_lt hindex) hslot)⟩

theorem contents_grown (hgrown : c.pages.Grown pages) : contents { c with pages := pages } = contents c := by
  funext id
  rcases view_grown hgrown id with hsame | ⟨hnone, hnew⟩
  · rw [contents, contents, hsame]
  · rw [contents, contents, hnone, hnew]
    rfl

theorem inv_grown (h : c.Inv none) (hgrown : c.pages.Grown pages) : Cache.Inv { c with pages := pages } none :=
  ⟨hgrown.wellFormed, h.pool, fun id f hf => (h.resident id f hf).trans_le hgrown.pageCount⟩

theorem clean_grown (h : c.Inv none) (hclean : ∀ id, c.Clean id) (hgrown : c.pages.Grown pages) (id : PageId) :
    Cache.Clean { c with pages := pages } id := by
  intro f hf hdirty
  exact (hgrown.slot id (h.resident id f hf)).trans (hclean id f hf hdirty)

/-- Between two accesses nothing is watched, the sequence numbers count the mutations, and the images lead from the pages at
the start to the pages now. -/
structure Faithful (start : PageId → Payload) (k : Capture) : Prop where
  inv : k.cache.Inv none
  clean : ∀ id, k.cache.Clean id
  pending : k.pending = []
  next : k.nextSequence = UInt64.ofNat k.mutations.length
  sequences : k.mutations.map PhysicalMutation.sequence = (List.range k.mutations.length).map UInt64.ofNat
  lead : Change.Lead start (k.mutations.map PhysicalMutation.change) (contents k.cache)
  allocated : ∀ mutation ∈ k.mutations, k.cache.pages.isPageAllocated mutation.pageId = true

variable {start : PageId → Payload}

theorem faithful_new (hinv : c.Inv none) (hclean : ∀ id, c.Clean id) : Faithful (contents c) (new c) :=
  ⟨hinv, hclean, rfl, rfl, rfl, rfl, nofun⟩

theorem Faithful.access (h : Faithful start k) (id : PageId) (change : Payload → Option Payload) :
    Faithful start ((access id change).run k).2 := by
  obtain ⟨hends, hinv⟩ := access_cases h.inv h.pending id change
  generalize (Capture.access id change).run k = result at hends hinv
  have hquietly : ∀ c, k.cache.Quiet c → c.Inv none → Faithful start { k with cache := c } := by
    intro c hquiet hinv
    refine ⟨hinv, fun id => hquiet.clean id (h.clean id), h.pending, h.next, h.sequences, ?_, fun mutation hmem => ?_⟩
    · rw [contents_quiet h.clean hquiet]
      exact h.lead
    · exact (hquiet.allocated _).trans (h.allocated mutation hmem)
  cases hends with
  | failed _ hquiet | read _ _ hquiet => exact hquietly _ hquiet hinv
  | @changed old after c hview hchange halloc hwrote =>
    have hcontents := contents_rewrote h.clean hwrote
    have hbefore : contents k.cache id = old.payload := by
      rw [contents, hview]
      rfl
    rw [cache_captured] at hinv
    have hallocated : ∀ p, k.cache.pages.isPageAllocated p = true → c.pages.isPageAllocated p = true :=
      fun p hp => (hwrote.allocated p).trans hp
    dsimp only [captured]
    split
    · refine ⟨hinv, clean_rewrote h.clean hwrote, h.pending, ?_, ?_, ?_, fun mutation hmem => ?_⟩
      · rw [h.next, List.length_append, List.length_singleton, UInt64.ofNat_add]
        rfl
      · rw [List.map_append, h.sequences, List.length_append, List.length_singleton, List.range_succ, List.map_append]
        exact congrArg (_ ++ ·) (congrArg (fun n => [n]) h.next)
      · rw [List.map_append, hcontents]
        exact h.lead.snoc hbefore
      · rcases List.mem_append.mp hmem with hmem | hmem
        · exact hallocated _ (h.allocated mutation hmem)
        · obtain rfl := List.mem_singleton.mp hmem
          exact hallocated id halloc
    · rename_i hsame
      have hafter : after = old.payload := not_not.mp hsame
      refine ⟨hinv, clean_rewrote h.clean hwrote, h.pending, h.next, h.sequences, ?_,
        fun mutation hmem => hallocated _ (h.allocated mutation hmem)⟩
      have hkept : contents c = contents k.cache := by
        rw [hcontents, ← hbefore.trans hafter.symm]
        exact Function.update_eq_self _ _
      rw [hkept]
      exact h.lead

theorem allocate_run (hinv : k.cache.Inv none) : ∃ pages, (allocate.run k).2 = { k with cache := { k.cache with pages := pages } } ∧
    k.cache.pages.Grown pages := by
  obtain ⟨outcome, pages, hrun, hgrown, -, -⟩ := PageManager.allocatePage_cases hinv.pages
  have hpages : (Cache.onPages PageManager.allocatePage).run k.cache = (outcome, { k.cache with pages := pages }) := by
    change ((PageManager.allocatePage.run k.cache.pages).1,
      ({ k.cache with pages := (PageManager.allocatePage.run k.cache.pages).2 } : Cache)) = _
    rw [hrun]
  refine ⟨pages, ?_, hgrown⟩
  rw [allocate, onCache_run hpages]

theorem Faithful.allocate (h : Faithful start k) : Faithful start (allocate.run k).2 := by
  obtain ⟨pages, hrun, hgrown⟩ := allocate_run h.inv
  rw [hrun]
  refine ⟨inv_grown h.inv hgrown, clean_grown h.inv h.clean hgrown, h.pending, h.next, h.sequences, ?_, fun mutation hmem => ?_⟩
  · rw [contents_grown hgrown]
    exact h.lead
  · have halloc := h.allocated mutation hmem
    exact (hgrown.bit _ (PageManager.isPageAllocated_iff.mp halloc).2.1).trans halloc

/-- Whatever a program does under the context, and however it ends. -/
theorem Faithful.run {α : Type} (h : Faithful start k) (prog : PageProg PageId Payload Err α) :
    Faithful start (prog.run pager k).2 :=
  PageProg.run_keeps (fun _ id change h => h.access id change) (fun _ h => h.allocate) h

theorem Faithful.drain (h : Faithful start k) : drainCaptured.run k = (.ok k.mutations, { k with mutations := [] }) := by
  rw [drainCaptured, Op.get_bind, Op.throwIf_bind_neg (by simp [h.pending])]
  rfl

/-! ## Putting images back -/

/-- Images of pages, put back one after the other. -/
theorem contents_applied {pick : PhysicalMutation → Payload} {mutations : List PhysicalMutation} (hinv : c.Inv none)
    (hclean : ∀ id, c.Clean id)
    (hrun : (mutations.forM fun mutation => applyImage mutation.pageId (pick mutation)).run c = (.ok (), c')) :
    contents c' = mutations.foldl (fun m mutation => Function.update m mutation.pageId (pick mutation)) (contents c) ∧
      c'.Inv none ∧ ∀ id, c'.Clean id := by
  induction mutations generalizing c with
  | nil =>
    obtain ⟨-, rfl⟩ := Prod.mk.inj hrun
    exact ⟨rfl, hinv, hclean⟩
  | cons mutation rest ih =>
    rcases Cache.applyImage_cases hinv mutation.pageId (pick mutation) with
      ⟨e, c₁, hfirst, -⟩ | ⟨c₁, f, old, hfirst, hinv₁, -, -, -, hwrote, -⟩
    · rw [Op.forM_cons_error (b := mutation) hfirst] at hrun
      cases hrun
    · rw [Op.forM_cons_ok (b := mutation) hfirst] at hrun
      have hrest := ih hinv₁ (clean_rewrote hclean hwrote) hrun
      rw [contents_rewrote hclean hwrote] at hrest
      exact hrest

/-- The pool of a single client, with a log that is durable through every PageLSN. -/
structure Alone (c : Cache) : Prop where
  solo : c.Solo
  durable : ∀ id page, c.view id = some page → Cache.LsnDurable c.walDurability page.lsn

theorem Alone.quiet (h : Alone c) (hsolo : c'.Solo) (hquiet : c.Quiet c') : Alone c' := by
  refine ⟨hsolo, fun id page hview => ?_⟩
  rw [hquiet.view id (h.solo.clean id)] at hview
  rw [hquiet.wal]
  exact h.durable id page hview

/-- The client writes the page it holds. -/
theorem Alone.write {c₁ : Cache} {f : FrameId} (h : Alone c) (hheld : Cache.Held c c₁ id f)
    (halloc : c.pages.isPageAllocated id = true) (bytes : Payload) :
    ∃ c', (Cache.unpinPage id true).run (c₁.written f ((c₁.pool.frames f).page.withPayload bytes)) = (.ok true, c') ∧
      Alone c' ∧ c.Rewrote c' id ((c₁.pool.frames f).page.withPayload bytes) := by
  have hpin : (c₁.pool.frames f).pinCount ≠ 0 := by rw [hheld.pin]; exact Nat.one_ne_zero
  have hid := (hheld.inv.pool.table_frame id f hheld.table).2
  have hold : c.view id = some (c₁.pool.frames f).page := by rw [← hheld.view, Cache.view_resident hheld.table]
  have hdurable := h.durable id _ hold
  obtain ⟨hunpin, hinv, hwrote⟩ :=
    @Cache.unpin_written c₁ f id ((c₁.pool.frames f).page.withPayload bytes) hheld.inv hheld.table hpin hid
  have hrewrote := hheld.quiet.then_wrote hwrote
  refine ⟨_, hunpin, ⟨h.solo.of_rewrote hinv hrewrote (fun g => hheld.unpinned_pins true g) halloc hdurable, ?_⟩, hrewrote⟩
  intro other page hview
  rw [hrewrote.wal]
  by_cases hother : other = id
  · subst hother
    rw [hrewrote.self] at hview
    obtain rfl := Option.some.inj hview
    exact hdurable
  · rw [hrewrote.view other hother (h.solo.clean other)] at hview
    exact h.durable other page hview

theorem Alone.applyImage (h : Alone c) (halloc : c.pages.isPageAllocated id = true) (bytes : Payload) :
    ∃ c', (applyImage id bytes).run c = (.ok (), c') ∧ Alone c' ∧
      ∀ other, c'.pages.isPageAllocated other = c.pages.isPageAllocated other := by
  obtain ⟨f, c₁, hfetch, hheld⟩ := h.solo.fetchPage halloc
  obtain ⟨c', hunpin, halone, hwrote⟩ := h.write hheld halloc bytes
  refine ⟨c', ?_, halone, hwrote.allocated⟩
  rw [Storage.applyImage, Op.bind_ok hfetch]
  dsimp only
  rw [Op.bind_ok (Cache.writePayload_run c₁ f bytes), Op.bind_ok hunpin, Op.throwIf_run_neg (by simp)]

theorem Alone.applied (h : Alone c) (pick : PhysicalMutation → Payload) {mutations : List PhysicalMutation}
    (halloc : ∀ mutation ∈ mutations, c.pages.isPageAllocated mutation.pageId = true) :
    ∃ c', (mutations.forM fun mutation => Storage.applyImage mutation.pageId (pick mutation)).run c = (.ok (), c') ∧ Alone c' ∧
      ∀ other, c'.pages.isPageAllocated other = c.pages.isPageAllocated other := by
  induction mutations generalizing c with
  | nil => exact ⟨c, rfl, h, fun _ => rfl⟩
  | cons mutation rest ih =>
    obtain ⟨hfirst, hrest⟩ := List.forall_mem_cons.mp halloc
    obtain ⟨c₁, hrun, halone, hsame⟩ := h.applyImage hfirst (pick mutation)
    obtain ⟨c', hrun', halone', hsame'⟩ := ih halone fun other hmem => (hsame _).trans (hrest other hmem)
    exact ⟨c', by rw [Op.forM_cons_ok (b := mutation) hrun, hrun'], halone', fun other => (hsame' other).trans (hsame other)⟩

theorem Alone.access (h : Alone k.cache) (hpending : k.pending = []) (id : PageId) (change : Payload → Option Payload) :
    Alone ((access id change).run k).2.cache := by
  by_cases halloc : k.cache.pages.isPageAllocated id = true
  · obtain ⟨f, c₁, hfetch, hheld⟩ := h.solo.fetchPage halloc
    have hvalid := (PageManager.isPageAllocated_iff.mp halloc).1
    have hid := (hheld.inv.pool.table_frame id f hheld.table).2
    have hpin : (c₁.pool.frames f).pinCount ≠ 0 := by rw [hheld.pin]; exact Nat.one_ne_zero
    rw [Capture.access, Op.bind_ok (onCache_run hfetch)]
    dsimp only
    rw [Op.get_bind]
    cases hchange : change (c₁.pool.frames f).page.payload with
    | none =>
      obtain ⟨c', hunpin, hsolo, hquiet⟩ := hheld.release h.solo
      dsimp only
      rw [Op.bind_ok (onCache_run hunpin)]
      exact h.quiet hsolo hquiet
    | some after =>
      obtain ⟨c', hunpin, halone, -⟩ := h.write hheld halloc after
      have himage := Cache.image_hit hheld.inv ((hheld.quiet.allocated id).trans halloc) hheld.table hpin
        (by rw [hheld.pin]; decide)
      dsimp only
      rw [Op.bind_ok (changePinned_run hpending hvalid hid himage hunpin)]
      change Alone (k.captured c' id (c₁.pool.frames f).page after).cache
      rw [cache_captured]
      exact halone
  · -- Nothing is fetched, and nothing moves.
    have hfetch : ∃ outcome, (Cache.fetchPage id).run k.cache = (outcome, k.cache) ∧ ∀ f, outcome ≠ .ok (some f) := by
      rw [Cache.fetchPage, Op.get_bind]
      split
      · exact ⟨_, rfl, by simp⟩
      · rw [Op.throwIf_bind_pos (by simpa using halloc)]
        exact ⟨_, rfl, by simp⟩
    obtain ⟨outcome, hfetch, hnone⟩ := hfetch
    rcases outcome with e | _ | f
    · rw [Capture.access, Op.bind_error (onCache_run hfetch)]
      exact h
    · rw [Capture.access, Op.bind_ok (onCache_run hfetch)]
      exact h
    · exact absurd rfl (hnone f)

theorem Alone.grown (h : Alone c) (hgrown : c.pages.Grown pages) : Alone { c with pages := pages } := by
  refine ⟨⟨inv_grown h.solo.inv hgrown, hgrown.synced h.solo.synced, h.solo.settled, clean_grown h.solo.inv h.solo.clean hgrown,
    h.solo.unpinned, h.solo.room, ?_⟩, ?_⟩
  · rintro id page ⟨f, hf, hdirty⟩ hview
    have hsame : Cache.view { c with pages := pages } id = c.view id := by
      exact (Cache.view_resident hf).trans (@Cache.view_resident c f id hf).symm
    rw [hsame] at hview
    obtain ⟨halloc, hdurable⟩ := h.solo.writable id page ⟨f, hf, hdirty⟩ hview
    exact ⟨(hgrown.bit id (h.solo.inv.resident id f hf)).trans halloc, hdurable⟩
  · intro id page hview
    rcases view_grown hgrown id with hsame | ⟨-, hnew⟩
    · exact h.durable id page (hsame ▸ hview)
    · rw [hnew] at hview
      obtain rfl := Option.some.inj hview
      exact .inl rfl

theorem Alone.run {α : Type} (h : Alone k.cache) (hfaithful : Faithful start k) (prog : PageProg PageId Payload Err α) :
    Alone (prog.run pager k).2.cache := by
  have hkeeps : Faithful start (prog.run pager k).2 ∧ Alone (prog.run pager k).2.cache := by
    refine PageProg.run_keeps (I := fun k => Faithful start k ∧ Alone k.cache) ?_ ?_ ⟨hfaithful, h⟩
    · exact fun k id change h => ⟨h.1.access id change, h.2.access h.1.pending id change⟩
    · rintro k ⟨hfaithful, h⟩
      refine ⟨hfaithful.allocate, ?_⟩
      obtain ⟨pages, hrun, hgrown⟩ := allocate_run hfaithful.inv
      change Alone (Capture.allocate.run k).2.cache
      rw [hrun]
      exact h.grown hgrown
  exact hkeeps.2

/-- A program that is idle with respect to its answer has captured nothing. -/
theorem Faithful.idle {α : Type} (h : Faithful start k) {prog : PageProg PageId Payload Err α} {P : α → Prop}
    (hidle : prog.IdleIf P) (hend : P (prog.run pager k).1) : (prog.run pager k).2.mutations = k.mutations := by
  refine hidle.run_eq (I := Faithful start) (g := mutations) ?_ ?_ h hend
  · intro k id change h
    refine ⟨h.access id change, fun hquiet => ?_⟩
    have hends := (access_cases h.inv h.pending id change).1
    change ((Capture.access id change).run k).2.mutations = k.mutations
    replace hquiet : ∀ page, ((Capture.access id change).run k).1 = .ok (some page) → change page = none := hquiet
    generalize (Capture.access id change).run k = result at hends hquiet
    cases hends with
    | failed _ _ => rfl
    | read _ _ _ => rfl
    | changed _ hchange _ _ => rw [hquiet _ rfl] at hchange; cases hchange
  · intro k h
    obtain ⟨pages, hrun, -⟩ := allocate_run h.inv
    refine ⟨h.allocate, ?_⟩
    change (Capture.allocate.run k).2.mutations = k.mutations
    rw [hrun]

end Capture

end Ddb.Storage
