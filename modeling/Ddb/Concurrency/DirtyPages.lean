import Ddb.Concurrency.Steps

/-!
# Dirty pages are allocated

A dirty frame can be written back only while its page is logically allocated. Every write of a page goes through a fetch,
which asks for that; but the pages a transaction allocated are released at the end of its rollback by the page manager, and
the pool is not told. A frame of such a page that is dirty then, and the rollback has just written all of them, can never be
written back: it stops `flush_all_pages`, and it stops every fetch that finds it at the head of the LRU list.
-/

namespace Ddb.Concurrency

open Ddb.Lib Ddb.Storage Ddb.Buffer

namespace System

variable {s : System} {step : Step}

/-- Every dirty resident frame belongs to a logically allocated page. -/
def DirtyAllocated (s : System) : Prop := ∀ p, s.db.cache.DirtyAt p → s.db.pages.isPageAllocated p = true

/-- The page that the next piece of a call releases. -/
def nextRelease : List Action → Option PageId
  | .release page :: _ => some page
  | _ => none

/-- The condition on a step: a page that is released by a rollback has no dirty frame. -/
def ReleasesClean (s : System) : Step → Prop
  | .resume t => ∀ page ∈ nextRelease (s.calls t), ¬ s.db.cache.DirtyAt page
  | _ => True

instance (s : System) : (step : Step) → Decidable (s.ReleasesClean step)
  | .resume t => inferInstanceAs (Decidable (∀ page ∈ nextRelease (s.calls t), ¬ s.db.cache.DirtyAt page))
  | .begin | .access .. | .allocate _ | .commit _ | .abort _ | .lock _ | .wake _ | .unlock .. | .pin _ | .unpin _
  | .flushPage _ | .flushAllPages | .deletePage _ | .flushLog => .isTrue trivial

/-- The log is durable through the PageLSN of every resident page. -/
def WalDurable (s : System) : Prop :=
  ∀ p f, s.db.pool.pageTable p = some f → (s.db.pool.frames f).page.lsn ≤ s.db.log.durableLsn

theorem dirtyAllocated_moved {db : Database} {id : PageId} (h : s.DirtyAllocated) (hmoved : s.db.cache.Moved db.cache id)
    (halloc : s.db.pages.isPageAllocated id = true) (p : PageId) (hdirty : db.cache.DirtyAt p) :
    db.pages.isPageAllocated p = true := by
  refine (hmoved.allocated p).trans ?_
  rcases hmoved.dirty p hdirty with rfl | hold
  · exact halloc
  · exact h p hold

theorem dirtyAllocated_step (hinv : s.db.Inv) (h : s.DirtyAllocated) (hclean : s.ReleasesClean step) :
    (s.step step).DirtyAllocated := by
  have hpool : (s.step step).db.pool = s.db.pool → ∀ {p}, (s.step step).db.cache.DirtyAt p → s.db.cache.DirtyAt p := by
    rintro hsame p ⟨f, hf, hdirty⟩
    change (s.step step).db.pool.pageTable p = some f at hf
    change ((s.step step).db.pool.frames f).dirty = true at hdirty
    rw [hsame] at hf hdirty
    exact ⟨f, hf, hdirty⟩
  intro p hdirty
  cases (step_cases hinv step).1.pages_change with
  | same hsame hpages => exact hpages ▸ h p (hpool hsame hdirty)
  | quiet hquiet => exact (hquiet.allocated p).trans (h p (hquiet.dirty p hdirty))
  | wrote halloc hwrote => exact dirtyAllocated_moved h hwrote.toMoved halloc p hdirty
  | moved halloc hmoved _ => exact dirtyAllocated_moved h hmoved halloc p hdirty
  | grown hsame hpages =>
    obtain ⟨f, hf, hold⟩ := hpool hsame hdirty
    exact (hpages.bit p (hinv.cache.resident p f hf)).trans (h p ⟨f, hf, hold⟩)
  | @bitSet page value t rest hsame hbit hstep hcall =>
    -- A bit that is set harms nobody, and one that is cleared is that of a page without a dirty frame.
    have hold := hpool hsame hdirty
    rw [hbit.bit]
    split
    · rename_i heq
      cases value with
      | true => rfl
      | false =>
        subst hstep heq
        exact absurd hold (hclean p (by rw [hcall]; rfl))
    · exact h p hold

/-- The condition is forced: the release of a page with a dirty frame breaks the invariant, whatever the file answers. -/
theorem releasesClean_of_step (hinv : s.db.Inv) (h : s.DirtyAllocated) (hnext : (s.step step).DirtyAllocated) :
    s.ReleasesClean step := by
  cases step with
  | resume t =>
    intro page hpage hdirty
    obtain ⟨rest, hcall⟩ : ∃ rest, s.calls t = .release page :: rest := by
      unfold nextRelease at hpage
      split at hpage
      · rename_i first rest hcall
        exact ⟨rest, by rw [hcall, Option.some.inj hpage]⟩
      · cases hpage
    obtain ⟨hpiece, -⟩ := Database.perform_cases hinv t (.release page)
    have hstate : (s.step (.resume t)).db = ((Database.perform t (.release page)).run s.db).2 := by
      rw [System.step, resume, hcall]
      dsimp only
      cases (Database.perform t (.release page)).run s.db with
      | mk outcome db => cases outcome <;> rfl
    have hbroken := hnext page
    rw [hstate] at hbroken
    generalize (Database.perform t (.release page)).run s.db = result at hpiece hbroken
    cases hpiece with
    | unallocated halloc =>
      rw [h page hdirty] at halloc
      cases halloc
    | released halloc hbit _ =>
      have hgone := hbroken hdirty
      rw [hbit.bit, if_pos rfl] at hgone
      cases hgone
    | logged htype _ _ => cases htype
    | notLogged htype _ _ => cases htype
  | _ => trivial

/-- With the log durable, nothing keeps a dirty frame of an allocated page from the disk. -/
theorem not_stuck (hinv : s.db.Inv) (h : s.DirtyAllocated) (hdurable : s.WalDurable) (f : FrameId) : ¬ s.db.cache.Stuck f := by
  rintro ⟨p, hf, hdirty, hreason⟩
  rcases hreason with hblocked | hunallocated
  · exact hblocked (Cache.writable_iff.mpr ⟨hinv.settled f, Or.inr ⟨s.db.log.durableLsn, rfl, hdurable p f hf⟩⟩)
  · rw [show s.db.cache.pages.isPageAllocated p = true from h p ⟨f, hf, hdirty⟩] at hunallocated
    cases hunallocated

/-- Whatever is needed can be written back and fetched. -/
structure Unblocked (s : System) : Prop where
  flush : (Cache.flushAllPages.run s.db.cache).1 = .ok ()
  evict : s.db.cache.HasRoom → ∃ f c, Cache.acquireFrame.run s.db.cache = (.ok (some f), c)
  fetch : ∀ p, s.db.pages.isPageAllocated p = true →
    (∀ f, s.db.pool.pageTable p = some f → (s.db.pool.frames f).pinCount ≠ kMaxCount) →
    (s.db.pool.pageTable p = none → s.db.cache.HasRoom) → ∃ f c, (Cache.fetchPage p).run s.db.cache = (.ok (some f), c)

theorem unblocked (hinv : s.db.Inv) (h : s.DirtyAllocated) (hdurable : s.WalDurable) (hsynced : s.db.pages.Synced) :
    s.Unblocked := by
  have hstuck := not_stuck hinv h hdurable
  refine ⟨?_, ?_, ?_⟩
  · obtain ⟨outcome, c, hrun, -, -, hok⟩ := Cache.flushAllPages_cases hinv.cache
    rw [hrun]
    exact hok hsynced hstuck
  · exact Cache.acquireFrame_succeeds hinv.cache hsynced fun f _ => hstuck f
  · intro p halloc hpins hroom
    exact Cache.fetchPage_succeeds hinv.cache hsynced (fun f _ => hstuck f) halloc hpins hroom

/-- The dirty frames of a run belong to allocated pages in every state exactly when no page is released with a dirty frame;
and then, with a file that works, in every state in which the log is durable nothing is blocked. -/
theorem dirtyAllocated_iff_releasesClean (hinit : s.Initial) (run : List Step) :
    (Always System.step DirtyAllocated s run ↔ EachStep System.step ReleasesClean s run) ∧
    (EachStep System.step ReleasesClean s run → s.db.pages.Synced →
      Always System.step (fun s => s.WalDurable → s.Unblocked) s run) := by
  have hstart : s.db.Inv ∧ s.DirtyAllocated := by
    refine ⟨hinit.inv, ?_⟩
    obtain ⟨pages, capacity, log, rfl, -, -⟩ := hinit
    rintro p ⟨f, hf, -⟩
    cases hf
  constructor
  · have hboth : Always System.step (fun s : System => s.db.Inv ∧ s.DirtyAllocated) s run ↔
        EachStep System.step ReleasesClean s run := by
      refine always_iff_eachStep (fun s step h => ⟨fun hnext => ?_, fun hclean => ?_⟩) hstart
      · exact releasesClean_of_step h.1 h.2 hnext.2
      · exact ⟨inv_step h.1 step, dirtyAllocated_step h.1 h.2 hclean⟩
    rw [← hboth]
    constructor
    · intro h
      refine always_iff_forall.mpr fun done hdone => ⟨inv_exec hinit.inv done, ?_⟩
      exact always_iff_forall.mp h done hdone
    · exact fun h => h.mono fun _ h => h.2
  · intro hclean hsynced
    have hall := always_of_eachStep (P := fun s : System => s.db.Inv ∧ s.DirtyAllocated ∧ s.db.pages.Synced)
      (fun s step h hclean => ⟨inv_step h.1 step, dirtyAllocated_step h.1 h.2.1 hclean, synced_step h.1 h.2.2 step⟩)
      ⟨hstart.1, hstart.2, hsynced⟩ hclean
    exact hall.mono fun _ h hdurable => unblocked h.1 h.2.1 hdurable h.2.2

/-- A transaction writes page 0 and allocates page 1, which evicts nothing, and is aborted. -/
def cleanRun : List Step :=
  [.allocate none, .begin, .access (some 1) (.ofIndex 0) (fun _ => some (.filled 1)), .allocate (some 1), .resume 1,
    .resume 1, .resume 1, .abort 1, .resume 1, .resume 1, .resume 1, .resume 1, .resume 1, .resume 1]

theorem cleanRun_unblocked : Always System.step DirtyAllocated (new 1) cleanRun ∧
    Always System.step (fun s => s.WalDurable → s.Unblocked) (new 1) cleanRun := by
  obtain ⟨hdirty, hunblocked⟩ := dirtyAllocated_iff_releasesClean (initial_new 1) cleanRun
  have hclean : EachStep System.step ReleasesClean (new 1) cleanRun := by decide +kernel
  exact ⟨hdirty.mpr hclean, hunblocked hclean PageManager.synced_empty⟩

theorem not_dirtyAllocated (p : PageId) (f : FrameId) (h : s.db.pool.pageTable p = some f ∧ (s.db.pool.frames f).dirty = true ∧
    s.db.pages.isPageAllocated p = false) : ¬ s.DirtyAllocated := by
  obtain ⟨hresident, hdirty, hreleased⟩ := h
  intro hall
  rw [hall p ⟨f, hresident, hdirty⟩] at hreleased
  cases hreleased

/-- In a pool of one frame, page 0 is allocated and left alone; a transaction allocates page 1, writes it, and is aborted. -/
def blockingRun : List Step :=
  [.allocate none, .begin, .allocate (some 1), .resume 1, .resume 1, .resume 1,
    .access (some 1) (.ofIndex 1) (fun _ => some (.filled 1)),
    .abort 1, .resume 1, .resume 1, .resume 1, .resume 1, .resume 1, .resume 1]

/-- The abort has returned, the log is durable to its end, and page 1 has a dirty frame and is not allocated: neither
`flush_all_pages` nor a fetch of page 0 succeeds. -/
theorem blockingRun_blocks : (exec System.step (new 1) blockingRun).db.state 1 = .aborted ∧
    (exec System.step (new 1) blockingRun).calls 1 = [] ∧
    (exec System.step (new 1) blockingRun).db.log.durableLsn + 1 = (exec System.step (new 1) blockingRun).db.log.nextLsn ∧
    ¬ (exec System.step (new 1) blockingRun).DirtyAllocated ∧
    (Cache.flushAllPages.run (exec System.step (new 1) blockingRun).db.cache).1.toBool = false ∧
    (exec System.step (new 1) blockingRun).db.pages.isPageAllocated (.ofIndex 0) = true ∧
    ((Cache.fetchPage (.ofIndex 0)).run (exec System.step (new 1) blockingRun).db.cache).1.toBool = false := by
  refine And.imp_right (And.imp_right (And.imp_right (And.imp_left (not_dirtyAllocated (.ofIndex 1) 0)))) ?_
  decide +kernel

end System

end Ddb.Concurrency
