import Ddb.Lib.Run
import Ddb.Buffer.BufferPool

/-!
# WAL before data

The pool is meant to hand a page image to the disk only when no captured mutation of it waits for its LSN and the log is
durable through its PageLSN. Eviction, `delete_page` and `flush_all_pages` ask the gates of every image they write.
`flush_page` asks them only when the frame is dirty, and writes in any case. The dirty flag is raised by `unpin_page`,
long after a client that holds the page pinned may have changed it, so a clean frame can carry an image the gates would
stop. The promise is kept by exactly those runs in which no `flush_page` meets such a frame.
-/

namespace Ddb.Buffer

open Ddb.Lib Ddb.Storage

/-- The image had no pending mutation, and a PageLSN of zero or one the log was durable through. -/
def WriteBack.Safe (w : WriteBack) : Prop :=
  w.pendingMutations = 0 ∧ (w.page.lsn = 0 ∨ ∃ durableLsn, w.durableLsn = some durableLsn ∧ w.page.lsn ≤ durableLsn)

namespace Cache

/-- Every image the pool has handed to `write_page` was safe at that moment. -/
def WalBeforeData (c : Cache) : Prop := ∀ w ∈ c.handed, w.Safe

/-- The gates let the frame pass. -/
def Writable (walDurability : Option Nat) (frame : Frame) : Prop :=
  frame.pendingMutations = 0 ∧ (frame.page.lsn = 0 ∨ walDurable walDurability frame = true)

theorem walDurable_iff {walDurability : Option Nat} {frame : Frame} : walDurable walDurability frame = true ↔
    ∃ durableLsn, walDurability = some durableLsn ∧ frame.page.lsn ≤ durableLsn := by
  cases walDurability with
  | none => simp [walDurable]
  | some durableLsn => simp [walDurable]

theorem requireWritable_cases (frame : Frame) (c : Cache) :
    ((requireWritable frame).run c = (.ok (), c) ∧ Writable c.walDurability frame) ∨
    (∃ e, (requireWritable frame).run c = (.error e, c) ∧ ¬ Writable c.walDurability frame) := by
  by_cases hpending : frame.pendingMutations ≠ 0
  · refine Or.inr ⟨.logic "page write blocked until captured mutations have PageLSNs", ?_, fun h => hpending h.1⟩
    rw [requireWritable, requireMutationsFinalized, Op.throwIf_bind_pos hpending]
  by_cases hlsn : frame.page.lsn ≠ 0 ∧ walDurable c.walDurability frame = false
  · refine Or.inr ⟨.walDurability "page write blocked until WAL is durable through PageLSN", ?_, fun h => ?_⟩
    · rw [requireWritable, requireMutationsFinalized, Op.throwIf_bind_neg hpending, requireWalDurable, Op.get_bind]
      exact Op.throwIf_run_pos hlsn c
    · rcases h.2 with hzero | hdurable
      · exact hlsn.1 hzero
      · simp [hlsn.2] at hdurable
  · refine Or.inl ⟨?_, by simpa using hpending, ?_⟩
    · rw [requireWritable, requireMutationsFinalized, Op.throwIf_bind_neg hpending, requireWalDurable, Op.get_bind]
      exact Op.throwIf_run_neg hlsn c
    · by_cases hzero : frame.page.lsn = 0
      · exact Or.inl hzero
      · exact Or.inr (by simpa [hzero] using hlsn)

/-! ## What each call hands over -/

/-- Between the two states the pool has handed over safe images only. -/
def HandsSafe (c c' : Cache) : Prop := ∃ writes, c'.handed = writes ++ c.handed ∧ ∀ w ∈ writes, w.Safe

theorem HandsSafe.of_eq {c c' : Cache} (h : c'.handed = c.handed) : HandsSafe c c' := ⟨[], h, by simp⟩

theorem HandsSafe.refl (c : Cache) : HandsSafe c c := .of_eq rfl

theorem HandsSafe.trans (a b c : Cache) (hab : HandsSafe a b) (hbc : HandsSafe b c) : HandsSafe a c := by
  obtain ⟨first, hfirst, hsafe⟩ := hab
  obtain ⟨second, hsecond, hsafe'⟩ := hbc
  refine ⟨second ++ first, by rw [hsecond, hfirst, List.append_assoc], fun w hw => ?_⟩
  rcases List.mem_append.mp hw with hw | hw
  · exact hsafe' w hw
  · exact hsafe w hw

theorem HandsSafe.walBeforeData_iff {c c' : Cache} (h : HandsSafe c c') : c'.WalBeforeData ↔ c.WalBeforeData := by
  obtain ⟨writes, hwrites, hsafe⟩ := h
  unfold WalBeforeData
  rw [hwrites]
  refine ⟨fun hall w hw => hall w (List.mem_append_right _ hw), fun hall w hw => ?_⟩
  rcases List.mem_append.mp hw with hw | hw
  · exact hsafe w hw
  · exact hall w hw

theorem handsSafe_modifyPool (f : BufferPool → BufferPool) : Op.Within HandsSafe (modifyPool f) :=
  Op.within_modify fun _ => .of_eq rfl

theorem handsSafe_onPages {α : Type} (x : PageOp α) : Op.Within HandsSafe (onPages x) := fun _ => .of_eq rfl

theorem handsSafe_handToDisk (id : PageId) {frame : Frame} {c : Cache} (h : Writable c.walDurability frame) :
    HandsSafe c ((handToDisk id frame).run c).2 := by
  refine ⟨[⟨frame.page, frame.pendingMutations, c.walDurability⟩], rfl, fun w hw => ?_⟩
  rw [List.mem_singleton.mp hw]
  exact ⟨h.1, h.2.imp_right walDurable_iff.mp⟩

/-- What is done behind the gates need only be safe for an image they let pass. -/
theorem handsSafe_gated {α : Type} {frame : Frame} {rest : CacheOp α}
    (hrest : ∀ c, Writable c.walDurability frame → HandsSafe c (rest.run c).2) :
    Op.Within HandsSafe (do requireWritable frame; rest) := by
  intro c
  rcases requireWritable_cases frame c with ⟨hok, hwritable⟩ | ⟨e, he, -⟩
  · rw [Op.bind_ok hok]
    exact hrest c hwritable
  · rw [Op.bind_error he]
    exact .refl c

theorem handsSafe_writeDirtyFrame (frameId : FrameId) : Op.Within HandsSafe (writeDirtyFrame frameId) := by
  refine Op.within_get_bind fun c => ?_
  refine Op.Within.ite (fun _ => handsSafe_gated fun c hwritable => ?_) (fun _ => Op.within_pure HandsSafe.refl _) c
  exact Op.related_bind HandsSafe.trans (handsSafe_handToDisk _ hwritable) fun _ => handsSafe_modifyPool _

theorem handsSafe_acquireFrame : Op.Within HandsSafe acquireFrame := by
  refine Op.within_get_bind fun c => ?_
  split
  · exact .of_eq rfl
  · exact .refl c
  · refine Op.Within.bind HandsSafe.trans (handsSafe_writeDirtyFrame _) (fun _ => ?_) c
    exact Op.Within.bind HandsSafe.trans (handsSafe_modifyPool _) fun _ => Op.within_pure HandsSafe.refl _

theorem handsSafe_fillFrame (id : PageId) (frameId : FrameId) : Op.Within HandsSafe (fillFrame id frameId) := by
  refine Op.Within.bind HandsSafe.trans ?_ fun page => ?_
  · refine Op.Within.tryCatch HandsSafe.trans (handsSafe_onPages _) fun e => ?_
    exact Op.Within.bind HandsSafe.trans (handsSafe_modifyPool _) fun _ => Op.within_throw HandsSafe.refl e
  · refine Op.Within.bind HandsSafe.trans (handsSafe_modifyPool _) fun _ => Op.within_get_bind fun c => ?_
    split
    · exact .of_eq rfl
    · exact .of_eq rfl

theorem handsSafe_fetchPage (id : PageId) : Op.Within HandsSafe (fetchPage id) := by
  refine Op.within_get_bind fun c => ?_
  refine Op.Within.ite (fun _ => Op.within_pure HandsSafe.refl _) (fun _ => ?_) c
  refine Op.Within.bind HandsSafe.trans (Op.within_throwIf HandsSafe.refl _ _) fun _ => ?_
  split
  · refine Op.Within.ite (fun _ => Op.within_pure HandsSafe.refl _) fun _ => ?_
    refine Op.Within.bind HandsSafe.trans (handsSafe_modifyPool _) fun _ => ?_
    exact Op.Within.bind HandsSafe.trans (handsSafe_modifyPool _) fun _ => Op.within_pure HandsSafe.refl _
  · refine Op.Within.bind HandsSafe.trans handsSafe_acquireFrame fun acquired => ?_
    cases acquired with
    | none => exact Op.within_pure HandsSafe.refl _
    | some frameId =>
      exact Op.Within.bind HandsSafe.trans (handsSafe_fillFrame id frameId) fun _ => Op.within_pure HandsSafe.refl _

theorem handsSafe_unpinPage (id : PageId) (isDirty : Bool) : Op.Within HandsSafe (unpinPage id isDirty) := by
  refine Op.within_get_bind fun c => ?_
  split
  · exact .refl c
  · refine Op.Within.ite (fun _ => Op.within_pure HandsSafe.refl _) (fun _ => ?_) c
    refine Op.Within.bind HandsSafe.trans (handsSafe_modifyPool _) fun _ => ?_
    exact Op.Within.bind HandsSafe.trans (handsSafe_modifyPool _) fun _ => Op.within_pure HandsSafe.refl _

theorem handsSafe_deletePage (id : PageId) : Op.Within HandsSafe (deletePage id) := by
  refine Op.within_get_bind fun c => ?_
  split
  · exact .refl c
  · refine Op.Within.ite (fun _ => Op.within_pure HandsSafe.refl _) (fun _ => ?_) c
    refine Op.Within.bind HandsSafe.trans (handsSafe_writeDirtyFrame _) fun _ => ?_
    exact Op.Within.bind HandsSafe.trans (handsSafe_modifyPool _) fun _ => Op.within_pure HandsSafe.refl _

theorem handsSafe_writeBackFrame (frameId : FrameId) : Op.Within HandsSafe (writeBackFrame frameId) := by
  refine Op.within_get_bind fun c => ?_
  refine Op.Within.ite (fun _ => ?_) (fun _ => Op.within_pure HandsSafe.refl _) c
  exact handsSafe_gated fun c hwritable => handsSafe_handToDisk _ hwritable

theorem handsSafe_flushAllPages : Op.Within HandsSafe flushAllPages := by
  refine Op.within_get_bind fun c => ?_
  refine Op.Within.bind HandsSafe.trans ?_ (fun _ => ?_) c
  · exact Op.within_forM HandsSafe.refl HandsSafe.trans _ fun frameId _ => handsSafe_writeBackFrame frameId
  · refine Op.Within.bind HandsSafe.trans (handsSafe_onPages _) fun _ => ?_
    exact Op.within_forM HandsSafe.refl HandsSafe.trans _ fun frameId _ => handsSafe_modifyPool _

theorem handsSafe_onFrame (id : PageId) (absent : Err) {body : FrameId → Frame → CacheOp Unit}
    (hbody : ∀ frameId frame, Op.Within HandsSafe (body frameId frame)) :
    Op.Within HandsSafe (onFrame id absent body) := by
  apply Op.within_get_bind
  intro c
  split
  · exact .refl c
  · exact hbody _ _ c

theorem handsSafe_throwIf {condition : Prop} [Decidable condition] (e : Err) {rest : CacheOp Unit}
    (hrest : Op.Within HandsSafe rest) : Op.Within HandsSafe (do throwIf condition e; rest) :=
  Op.Within.bind HandsSafe.trans (Op.within_throwIf HandsSafe.refl _ _) fun _ => hrest

/-- The image a `flush_page` that reaches the disk hands over. -/
def flushed (c : Cache) (frameId : FrameId) : WriteBack :=
  ⟨(c.pool.frames frameId).page, (c.pool.frames frameId).pendingMutations, c.walDurability⟩

theorem flushed_safe_iff {c : Cache} {frameId : FrameId} :
    (c.flushed frameId).Safe ↔ Writable c.walDurability (c.pool.frames frameId) := by
  unfold WriteBack.Safe Writable
  rw [walDurable_iff]
  rfl

/-- The part of `flush_page` behind its gates. -/
theorem handed_flushFrame (id : PageId) (frameId : FrameId) (c : Cache) : ((do
    handToDisk id (c.pool.frames frameId)
    onPages PageManager.flush
    modifyFrame frameId fun frame => { frame with dirty := false }
    return true : CacheOp Bool).run c).2.handed = c.flushed frameId :: c.handed := by
  rw [Op.bind_run]
  have hhand : ((handToDisk id (c.pool.frames frameId)).run c).2.handed = c.flushed frameId :: c.handed := rfl
  cases hrun : (handToDisk id (c.pool.frames frameId)).run c with
  | mk outcome c' =>
    rw [hrun] at hhand
    cases outcome with
    | error e => exact hhand
    | ok _ =>
      -- Nothing after the write touches the record.
      have hkeep : Op.Within (fun a b : Cache => b.handed = a.handed) (do
          onPages PageManager.flush
          modifyFrame frameId fun frame => { frame with dirty := false }
          return true : CacheOp Bool) := by
        refine Op.Within.bind (fun a b c (h : b.handed = a.handed) (h' : c.handed = b.handed) => h'.trans h) ?_ ?_
        · exact fun _ => rfl
        · exact fun _ _ => rfl
      exact (hkeep c').trans hhand

/-- `flush_page` hands nothing over when the page is not resident or a gate stops it, and its frame's image when the
frame is clean or the gates let it pass. -/
theorem flushPage_handed {id : PageId} {c : Cache} {frameId : FrameId} (htable : c.pool.pageTable id = some frameId) :
    ((c.pool.frames frameId).dirty = true ∧ ¬ Writable c.walDurability (c.pool.frames frameId) →
      ((flushPage id).run c).2.handed = c.handed) ∧
    (((c.pool.frames frameId).dirty = true → Writable c.walDurability (c.pool.frames frameId)) →
      ((flushPage id).run c).2.handed = c.flushed frameId :: c.handed) := by
  rw [flushPage, Op.get_bind, htable]
  dsimp only
  by_cases hdirty : (c.pool.frames frameId).dirty = true
  · rw [if_pos hdirty]
    rcases requireWritable_cases (c.pool.frames frameId) c with ⟨hok, hwritable⟩ | ⟨e, he, hblocked⟩
    · rw [Op.bind_ok hok]
      exact ⟨fun h => absurd hwritable h.2, fun _ => handed_flushFrame id frameId c⟩
    · rw [Op.bind_error he]
      exact ⟨fun _ => rfl, fun h => absurd (h hdirty) hblocked⟩
  · rw [if_neg hdirty, Op.pure_bind_run]
    exact ⟨fun h => absurd h.1 hdirty, fun _ => handed_flushFrame id frameId c⟩

end Cache

/-! ## Runs of the pool -/

/-- One call of the pool, or what goes on around it. -/
inductive PoolStep where
  | fetchPage (id : PageId)
  | unpinPage (id : PageId) (isDirty : Bool)
  | flushPage (id : PageId)
  | flushAllPages
  | deletePage (id : PageId)
  | markMutationPending (id : PageId)
  | finalizePendingMutation (id : PageId) (lsn : Nat)
  | resolvePendingMutation (id : PageId) (restoredPageLsn : Nat)
  | restorePageLsnAfterUndo (id : PageId) (restoredPageLsn : Nat)
  /-- A client writes payload and PageLSN of a page it holds pinned. -/
  | write (id : PageId) (payload : Payload) (lsn : Nat)
  /-- The page manager's other clients allocate and deallocate, and its file answers as it will. -/
  | pages (next : PageManager)
  /-- The log becomes durable, or another provider is set. -/
  | provider (durableLsn : Option Nat)

namespace Cache

/-- The state after a step, whether the call returned or threw. -/
def step (c : Cache) : PoolStep → Cache
  | .fetchPage id => ((fetchPage id).run c).2
  | .unpinPage id isDirty => ((unpinPage id isDirty).run c).2
  | .flushPage id => ((flushPage id).run c).2
  | .flushAllPages => (flushAllPages.run c).2
  | .deletePage id => ((deletePage id).run c).2
  | .markMutationPending id => ((markMutationPending id).run c).2
  | .finalizePendingMutation id lsn => ((finalizePendingMutation id lsn).run c).2
  | .resolvePendingMutation id restoredPageLsn => ((resolvePendingMutation id restoredPageLsn).run c).2
  | .restorePageLsnAfterUndo id restoredPageLsn => ((restorePageLsnAfterUndo id restoredPageLsn).run c).2
  | .write id payload lsn =>
    match c.pool.pageTable id with
    | none => c
    | some frameId => if (c.pool.frames frameId).pinCount = 0 then c else ((writeThrough frameId payload lsn).run c).2
  | .pages next => { c with pages := next }
  | .provider durableLsn => { c with walDurability := durableLsn }

/-- A `flush_page` that finds its frame clean finds it with nothing pending and a PageLSN the gate would let pass. -/
def FlushesGuarded (c : Cache) : PoolStep → Prop
  | .flushPage id => ∀ frameId, c.pool.pageTable id = some frameId → (c.pool.frames frameId).dirty = false →
      Writable c.walDurability (c.pool.frames frameId)
  | _ => True

theorem handsSafe_step (c : Cache) {s : PoolStep} (hs : ∀ id, s ≠ .flushPage id) : HandsSafe c (c.step s) := by
  cases s with
  | fetchPage id => exact handsSafe_fetchPage id c
  | unpinPage id isDirty => exact handsSafe_unpinPage id isDirty c
  | flushPage id => exact absurd rfl (hs id)
  | flushAllPages => exact handsSafe_flushAllPages c
  | deletePage id => exact handsSafe_deletePage id c
  | markMutationPending id | finalizePendingMutation id lsn =>
    apply handsSafe_onFrame
    exact fun _ _ => handsSafe_throwIf _ (handsSafe_throwIf _ (handsSafe_modifyPool _))
  | resolvePendingMutation id restoredPageLsn | restorePageLsnAfterUndo id restoredPageLsn =>
    apply handsSafe_onFrame
    exact fun _ _ => handsSafe_throwIf _ (handsSafe_modifyPool _)
  | write id payload lsn =>
    simp only [step]
    split
    · exact .refl c
    · split
      · exact .refl c
      · exact .of_eq rfl
  | pages next => exact .of_eq rfl
  | provider durableLsn => exact .of_eq rfl

theorem walBeforeData_step_iff {c : Cache} (s : PoolStep) (h : c.WalBeforeData) :
    (c.step s).WalBeforeData ↔ c.FlushesGuarded s := by
  cases s with
  | flushPage id =>
    cases htable : c.pool.pageTable id with
    | none =>
      have hsame : c.step (.flushPage id) = c := by rw [step, flushPage, Op.get_bind, htable]; rfl
      rw [hsame]
      exact ⟨fun _ frameId hframe => by simp [htable] at hframe, fun _ => h⟩
    | some frameId =>
      obtain ⟨hblocked, hhanded⟩ := flushPage_handed htable
      have hguard : c.FlushesGuarded (.flushPage id) ↔
          ((c.pool.frames frameId).dirty = false → Writable c.walDurability (c.pool.frames frameId)) := by
        simp [FlushesGuarded, htable]
      have hhand : (c.step (.flushPage id)).handed = ((flushPage id).run c).2.handed := rfl
      rw [hguard]
      unfold WalBeforeData at h ⊢
      by_cases hstop : (c.pool.frames frameId).dirty = true ∧ ¬ Writable c.walDurability (c.pool.frames frameId)
      · rw [hhand, hblocked hstop]
        exact ⟨fun _ hclean => by simp [hstop.1] at hclean, fun _ => h⟩
      · have hpass : (c.pool.frames frameId).dirty = true → Writable c.walDurability (c.pool.frames frameId) :=
          fun hdirty => by_contra fun hblock => hstop ⟨hdirty, hblock⟩
        rw [hhand, hhanded hpass, List.forall_mem_cons, flushed_safe_iff]
        refine ⟨fun hall _ => hall.1, fun hclean => ⟨?_, h⟩⟩
        cases hdirty : (c.pool.frames frameId).dirty with
        | true => exact hpass hdirty
        | false => exact hclean hdirty
  | _ =>
    rw [(handsSafe_step c (by simp)).walBeforeData_iff]
    exact ⟨fun _ => trivial, fun _ => h⟩

/-- The pool keeps WAL before data on exactly the runs in which every `flush_page` of a clean frame finds it with nothing
pending and a PageLSN the log is durable through. -/
theorem walBeforeData_iff_flushesGuarded (pages : PageManager) (pool : BufferPool) (walDurability : Option Nat)
    (run : List PoolStep) : Always step WalBeforeData ⟨pages, pool, walDurability, []⟩ run ↔
      EachStep step FlushesGuarded ⟨pages, pool, walDurability, []⟩ run := by
  apply always_iff_eachStep
  · exact fun c s h => walBeforeData_step_iff s h
  · intro w hw
    simp at hw

/-- A file with one allocated page. -/
def onePage : PageManager := (PageManager.allocatePage.run
  { file := ⟨fun _ => .blank, 1, []⟩
    pageCount := 0
    allocationBitmap := List.replicate PageManager.kCatalogBytes 0
    allocatedPageCount := 0 }).2

/-- A client pins the page, changes it under LSN 5, and the page is flushed before it is unpinned. The log is durable
through nothing. -/
def earlyFlush : List PoolStep :=
  [.fetchPage (.ofIndex 0), .write (.ofIndex 0) .zero 5, .flushPage (.ofIndex 0)]

theorem earlyFlush_leaks : ¬ Always step WalBeforeData ⟨onePage, .create 1, some 0, []⟩ earlyFlush := by
  intro h
  have hhanded : (exec step ⟨onePage, .create 1, some 0, []⟩ earlyFlush).handed =
      [⟨⟨.ofIndex 0, 5, .zero⟩, 0, some 0⟩] := rfl
  have hsafe := h.last ⟨⟨.ofIndex 0, 5, .zero⟩, 0, some 0⟩ (by rw [hhanded]; exact List.mem_singleton_self _)
  simp [WriteBack.Safe] at hsafe

end Cache

end Ddb.Buffer
