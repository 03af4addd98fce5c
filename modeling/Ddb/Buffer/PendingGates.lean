import Ddb.Buffer.Moves
import Ddb.Storage.PhysicalMutation

/-!
# The gates of a page

A frame counts the captured mutations of its page that have no LSN yet, and is not written back while there are any. The count
is lost with the frame, so it must not be evicted: it is not as long as every frame with a pending mutation is pinned or dirty,
since a dirty frame is evicted by way of its gate. This file says what each call of the pool does to the counts, page by page.
-/

namespace Ddb.Buffer

open Ddb.Lib Ddb.Storage

namespace BufferPool

def pendingMutationCount (pool : BufferPool) (id : PageId) : Option Nat :=
  (pool.pageTable id).map fun f => (pool.frames f).pendingMutations

/-- The gates before the write-back of a page. -/
def gates (pool : BufferPool) (id : PageId) : Nat := (pool.pendingMutationCount id).getD 0

/-- A frame with a pending mutation is pinned or dirty. -/
def Guarded (pool : BufferPool) : Prop :=
  ∀ f, (pool.frames f).pendingMutations ≠ 0 → (pool.frames f).pinCount ≠ 0 ∨ (pool.frames f).dirty = true

variable {pool : BufferPool} {f : FrameId} {id p : PageId}

theorem gates_resident (h : pool.pageTable p = some f) : pool.gates p = (pool.frames f).pendingMutations := by
  rw [gates, pendingMutationCount, h]
  rfl

theorem gates_absent (h : pool.pageTable p = none) : pool.gates p = 0 := by
  rw [gates, pendingMutationCount, h]
  rfl

/-- A frame is given other contents under the same page. -/
theorem gates_reframe (h : pool.Inv none) (hf : pool.pageTable id = some f) (frame : Frame) (lru : List FrameId) :
    (pool.reframe f frame lru).gates = Function.update pool.gates id frame.pendingMutations := by
  funext p
  by_cases hp : p = id
  · subst hp
    rw [Function.update_self, gates_resident (show (pool.reframe f frame lru).pageTable p = some f from hf), frames_reframe,
      if_pos rfl]
  · rw [Function.update_of_ne hp]
    cases hg : pool.pageTable p with
    | none => rw [gates_absent hg, gates_absent (show (pool.reframe f frame lru).pageTable p = none from hg)]
    | some g =>
      have hne : g ≠ f := by
        intro heq
        rw [heq] at hg
        exact hp ((h.table_frame p f hg).2.symm.trans (h.table_frame id f hf).2)
      rw [gates_resident hg, gates_resident (show (pool.reframe f frame lru).pageTable p = some g from hg), frames_reframe,
        if_neg hne]

theorem Guarded.reframe (h : pool.Guarded) {frame : Frame} (lru : List FrameId)
    (hframe : frame.pendingMutations ≠ 0 → frame.pinCount ≠ 0 ∨ frame.dirty = true) : (pool.reframe f frame lru).Guarded := by
  intro g
  rw [frames_reframe]
  split
  · exact hframe
  · exact h g

/-- A frame without a pending mutation is taken out of the pool or filled with another page. -/
theorem gates_refilled {next : BufferPool} {table : PageId → Option FrameId}
    (hempty : (pool.frames f).pendingMutations = 0) {frame : Frame} (hframe : frame.pendingMutations = 0)
    (hframes : next.frames = Function.update pool.frames f frame) (htable : next.pageTable = table)
    (hother : ∀ p g, g ≠ f → (table p = some g ↔ pool.pageTable p = some g)) : next.gates = pool.gates := by
  subst htable
  funext p
  have hzero : ∀ p, pool.pageTable p = some f → pool.gates p = 0 := by
    intro p hp
    rw [gates_resident hp, hempty]
  cases hg : next.pageTable p with
  | none =>
    rw [gates_absent hg]
    cases hold : pool.pageTable p with
    | none => rw [gates_absent hold]
    | some g =>
      by_cases hgf : g = f
      · rw [hzero p (hgf ▸ hold)]
      · rw [(hother p g hgf).mpr hold] at hg
        cases hg
  | some g =>
    rw [gates_resident hg, hframes, Function.update_apply]
    by_cases hgf : g = f
    · rw [if_pos hgf, hframe]
      cases hold : pool.pageTable p with
      | none => rw [gates_absent hold]
      | some g' =>
        by_cases hgf' : g' = f
        · rw [hzero p (hgf' ▸ hold)]
        · rw [(hother p g' hgf').mpr hold] at hg
          exact absurd ((Option.some.inj hg).trans hgf) hgf'
    · rw [if_neg hgf, gates_resident ((hother p g hgf).mp hg)]

end BufferPool

namespace Cache

open BufferPool

variable {c c' : Cache} {f : FrameId} {id : PageId} {gates : PageId → Nat}

/-- The pool is in order, no gate can be lost by an eviction, and the gates are these. -/
structure HasGates (c : Cache) (gates : PageId → Nat) : Prop where
  inv : c.Inv none
  guarded : c.pool.Guarded
  gates : c.pool.gates = gates

theorem HasGates.resident (h : HasGates c gates) (hf : c.pool.pageTable id = some f) :
    gates id = (c.pool.frames f).pendingMutations := h.gates ▸ gates_resident hf

/-- The frame of a page with the same pins and other contents. -/
theorem Inv.retouched (h : c.Inv none) (hf : c.pool.pageTable id = some f) {frame : Frame}
    (hoccupied : frame.occupied = (c.pool.frames f).occupied) (hid : frame.page.id = (c.pool.frames f).page.id)
    (hpin : frame.pinCount = (c.pool.frames f).pinCount) : (c.reframe f frame c.pool.lru).Inv none := by
  obtain ⟨hold, hpage⟩ := h.pool.table_frame id f hf
  refine h.reframe hf frame (hoccupied.trans hold) (hid.trans hpage) h.pool.lru_nodup ?_ fun _ _ => Iff.rfl
  rw [hpin, h.pool.lru_iff]
  exact ⟨fun hmem => hmem.2, fun hzero => ⟨hold, hzero⟩⟩

/-! ## Fetching -/

/-- A dirty page at the front of the LRU list that may not be written keeps its frame. -/
theorem fetchPage_blocked {victim : FrameId} {rest : List FrameId} (habsent : c.pool.pageTable id = none)
    (hfree : c.pool.freeFrames = []) (hlru : c.pool.lru = victim :: rest) (hdirty : (c.pool.frames victim).dirty = true)
    (hpending : (c.pool.frames victim).pendingMutations ≠ 0) : ((fetchPage id).run c).2.pool = c.pool := by
  obtain ⟨e, hgate⟩ : ∃ e, (requireWritable (c.pool.frames victim)).run c = (.error e, c) := by
    rw [requireWritable, requireMutationsFinalized, Op.throwIf_bind_pos hpending]
    exact ⟨_, rfl⟩
  have hwrite : (writeDirtyFrame victim).run c = (.error e, c) := by
    rw [writeDirtyFrame, Op.get_bind]
    dsimp only
    rw [if_pos hdirty, Op.bind_error hgate]
  have hacquire : acquireFrame.run c = (.error e, c) := by
    rw [acquireFrame, Op.get_bind, hfree, hlru]
    exact Op.bind_error hwrite
  rw [fetchPage, Op.get_bind]
  by_cases hvalid : id.isValid = false
  · rw [if_pos hvalid]
    rfl
  rw [if_neg hvalid]
  by_cases halloc : c.pages.isPageAllocated id = false
  · rw [Op.throwIf_bind_pos halloc]
  rw [Op.throwIf_bind_neg halloc, habsent]
  dsimp only
  rw [Op.bind_error hacquire]

/-- The frame a fetch takes has no gate, or nothing was fetched. -/
theorem acquired_settled {next : BufferPool} (h : c.Inv none) (hguarded : c.pool.Guarded)
    (habsent : c.pool.pageTable id = none) (hacquired : Acquired c.pool f next) :
    (c.pool.frames f).pendingMutations = 0 ∨ ((fetchPage id).run c).2.pool = c.pool := by
  cases hacquired with
  | free hfree =>
    have hunused := ((h.pool.free_iff f).mp (by rw [hfree]; exact List.mem_cons_self)).2.1
    rw [h.pool.blank f hunused]
    exact Or.inl rfl
  | evicted hfree hlru =>
    by_cases hpending : (c.pool.frames f).pendingMutations = 0
    · exact Or.inl hpending
    · have hpin := ((h.pool.lru_iff f).mp (by rw [hlru]; exact List.mem_cons_self)).2
      have hdirty := (hguarded f hpending).resolve_left (not_not_intro hpin)
      exact Or.inr (fetchPage_blocked habsent hfree hlru hdirty hpending)

/-- What the frame a fetch takes was before. -/
theorem acquired_frames {next : BufferPool} (h : c.Inv none) (hacquired : Acquired c.pool f next) :
    next.frames = Function.update c.pool.frames f .blank ∧
      ∀ p g, g ≠ f → (next.pageTable p = some g ↔ c.pool.pageTable p = some g) := by
  cases hacquired with
  | free hfree =>
    have hunused := ((h.pool.free_iff f).mp (by rw [hfree]; exact List.mem_cons_self)).2.1
    refine ⟨?_, fun _ _ _ => Iff.rfl⟩
    rw [← h.pool.blank f hunused, Function.update_eq_self]
  | evicted hfree hlru =>
    obtain ⟨hoccupied, -⟩ := (h.pool.lru_iff f).mp (by rw [hlru]; exact List.mem_cons_self)
    refine ⟨rfl, fun p g hg => ?_⟩
    change Function.update c.pool.pageTable _ none p = some g ↔ _
    rw [Function.update_apply]
    split
    · rename_i heq
      rw [heq, h.pool.frame_table f hoccupied]
      exact ⟨nofun, fun hsame => absurd (Option.some.inj hsame).symm hg⟩
    · rfl

/-- A frame without gates is refilled. -/
theorem HasGates.refilled (h : HasGates c gates) (hinv : c'.Inv none)
    (hempty : (c.pool.frames f).pendingMutations = 0) {frame : Frame} (hframe : frame.pendingMutations = 0)
    (hframes : c'.pool.frames = Function.update c.pool.frames f frame)
    (hother : ∀ p g, g ≠ f → (c'.pool.pageTable p = some g ↔ c.pool.pageTable p = some g)) : HasGates c' gates := by
  refine ⟨hinv, fun g hpending => ?_, (gates_refilled hempty hframe hframes rfl hother).trans h.gates⟩
  rw [hframes, Function.update_apply] at hpending ⊢
  split at hpending
  · exact absurd hframe hpending
  · rename_i hg
    rw [if_neg hg]
    exact h.guarded g hpending

/-- A fetch releases no gate. The page it returns can be given up again without a mark, unless others hold it. -/
theorem HasGates.fetchPage (h : HasGates c gates) (id : PageId) :
    HasGates ((fetchPage id).run c).2 gates ∧ ∀ f, ((fetchPage id).run c).1 = .ok (some f) →
      (((fetchPage id).run c).2.pool.frames f).pinCount = 1 →
        (((fetchPage id).run c).2.pool.frames f).dirty = true ∨ (((fetchPage id).run c).2.pool.frames f).pendingMutations = 0 := by
  have hfetches := fetchPage_pool h.inv.pool id
  obtain ⟨outcome, c', hrun, hinv, -, -⟩ := fetchPage_cases h.inv id
  have hsame : ((Cache.fetchPage id).run c).2.pool = c.pool → HasGates c' gates := by
    rw [hrun]
    intro hpool
    exact ⟨hinv, hpool ▸ h.guarded, hpool ▸ h.gates⟩
  rw [hrun] at hfetches hsame ⊢
  dsimp only at hfetches hsame ⊢
  generalize hpool : c'.pool = pool at hfetches
  cases hfetches with
  | refused hnone => exact ⟨hsame hpool, fun f hf => absurd hf (hnone f)⟩
  | @hit g hg =>
    have hframe := h.guarded g
    refine ⟨⟨hinv, ?_, ?_⟩, fun f hf hpin => ?_⟩
    · rw [hpool]
      exact h.guarded.reframe _ fun _ => Or.inl (Nat.succ_ne_zero _)
    · rw [hpool, gates_reframe h.inv.pool hg, h.gates]
      exact (congrArg _ (h.resident hg).symm).trans (Function.update_eq_self id gates)
    · obtain rfl : g = f := Option.some.inj (Except.ok.inj hf)
      rw [BufferPool.frames_reframe, if_pos rfl] at hpin ⊢
      dsimp only at hpin ⊢
      by_contra hnot
      obtain ⟨hclean, hpending⟩ := not_or.mp hnot
      rcases hframe hpending with hpinned | hdirty
      · omega
      · exact hclean hdirty
  | @unread g e next habsent hacquired =>
    obtain ⟨hframes, hother⟩ := acquired_frames h.inv hacquired
    refine ⟨?_, nofun⟩
    rcases acquired_settled h.inv h.guarded habsent hacquired with hempty | hstayed
    · refine h.refilled hinv hempty (show Frame.blank.pendingMutations = 0 from rfl) ?_ ?_
      · rw [hpool]
        change Function.update next.frames g .blank = _
        rw [hframes, Function.update_idem]
      · rw [hpool]
        exact hother
    · rw [hrun] at hstayed
      exact hsame hstayed
  | @missed g next page habsent hacquired hid =>
    obtain ⟨hframes, hother⟩ := acquired_frames h.inv hacquired
    have hnew : next.frames g = .blank := by rw [hframes, Function.update_self]
    rcases acquired_settled h.inv h.guarded habsent hacquired with hempty | hstayed
    · have hfresh : (freshFrame .blank page).pendingMutations = 0 := rfl
      refine ⟨h.refilled hinv hempty hfresh ?_ ?_, fun f hf _ => ?_⟩
      · rw [hpool]
        change Function.update next.frames g (freshFrame (next.frames g) page) = _
        rw [hnew, hframes, Function.update_idem]
      · rw [hpool]
        intro p g' hg'
        change Function.update next.pageTable id (some g) p = some g' ↔ _
        rw [Function.update_apply]
        split
        · rename_i hp
          rw [hp, habsent]
          exact ⟨fun heq => absurd (Option.some.inj heq).symm hg', nofun⟩
        · exact hother p g' hg'
      · obtain rfl : g = f := Option.some.inj (Except.ok.inj hf)
        right
        change ((next.setFrame g (freshFrame (next.frames g) page)).frames g).pendingMutations = 0
        rw [frames_setFrame, if_pos rfl, hnew]
        rfl
    · -- The page would be resident after all.
      rw [hrun] at hstayed
      have hresident : c'.pool.pageTable id = some g := by
        rw [hpool]
        exact Function.update_self _ _ _
      rw [hstayed, habsent] at hresident
      cases hresident

/-! ## Unpinning and writing -/

/-- An unpin releases no gate, unless it leaves a page unmarked that was captured and has no other pin. -/
theorem HasGates.unpinPage (h : HasGates c gates) (id : PageId) (isDirty : Bool)
    (hlast : isDirty = false → ∀ f, c.pool.pageTable id = some f → (c.pool.frames f).pinCount = 1 →
      (c.pool.frames f).dirty = true ∨ (c.pool.frames f).pendingMutations = 0) :
    HasGates ((unpinPage id isDirty).run c).2 gates := by
  cases hf : c.pool.pageTable id with
  | none =>
    rw [Cache.unpinPage, Op.get_bind, hf]
    exact h
  | some f =>
    by_cases hpin : (c.pool.frames f).pinCount = 0
    · rw [Cache.unpinPage, Op.get_bind, hf]
      dsimp only
      rw [if_pos hpin]
      exact h
    · rw [unpinPage_run hf hpin]
      refine ⟨h.inv.unpinned hf hpin isDirty, h.guarded.reframe _ fun hpending => ?_, ?_⟩
      · change (c.pool.frames f).pinCount - 1 ≠ 0 ∨ ((c.pool.frames f).dirty || isDirty) = true
        change (c.pool.frames f).pendingMutations ≠ 0 at hpending
        by_cases hone : (c.pool.frames f).pinCount = 1
        · right
          cases isDirty with
          | true => exact Bool.or_true _
          | false =>
            rw [Bool.or_false]
            exact (hlast rfl f hf hone).resolve_right hpending
        · left
          omega
      · refine (gates_reframe h.inv.pool hf _ _).trans ?_
        rw [h.gates]
        exact (congrArg _ (h.resident hf).symm).trans (Function.update_eq_self id gates)

theorem HasGates.image (h : HasGates c gates) (id : PageId) : HasGates ((image id).run c).2 gates := by
  obtain ⟨hkeeps, hfetched⟩ := h.fetchPage id
  obtain ⟨outcome, c', hrun, -, -, hfound⟩ := fetchPage_cases h.inv id
  rw [hrun] at hkeeps hfetched
  rw [Storage.image]
  rcases outcome with e | _ | f
  · rw [Op.bind_error hrun]
    exact hkeeps
  · rw [Op.bind_ok hrun]
    exact hkeeps
  · obtain ⟨-, hf, -⟩ := hfound f rfl
    have hunpin := hkeeps.unpinPage id false (by
      intro _ g hg
      rw [hf] at hg
      obtain rfl := Option.some.inj hg
      exact hfetched f rfl)
    rw [Op.bind_ok hrun]
    dsimp only
    rw [Op.get_bind, Op.bind_run]
    cases hend : (Cache.unpinPage id false).run c' with
    | mk outcome c'' =>
      rw [hend] at hunpin
      cases outcome with
      | error e => exact hunpin
      | ok unpinned =>
        dsimp only
        rw [Op.bind_run]
        by_cases hbad : unpinned = false
        · rw [Op.throwIf_run_pos hbad]
          exact hunpin
        · rw [Op.throwIf_run_neg hbad]
          exact hunpin

section Frame

variable (h : HasGates c gates) (hf : c.pool.pageTable id = some f) (change : Frame → Frame)
  (hoccupied : (change (c.pool.frames f)).occupied = (c.pool.frames f).occupied)
  (hid : (change (c.pool.frames f)).page.id = (c.pool.frames f).page.id)
  (hpin : (change (c.pool.frames f)).pinCount = (c.pool.frames f).pinCount)
  (hdirty : (change (c.pool.frames f)).dirty = (c.pool.frames f).dirty)

include h hf hoccupied hid hpin hdirty

/-- The frame of a page is changed; its pins and its dirty mark stay. -/
theorem HasGates.modifyFrame (hpending : (change (c.pool.frames f)).pendingMutations ≠ 0 →
      (c.pool.frames f).pendingMutations ≠ 0 ∨ (c.pool.frames f).pinCount ≠ 0) :
    HasGates ((modifyFrame f change).run c).2 (Function.update gates id (change (c.pool.frames f)).pendingMutations) := by
  have hrun : ((Cache.modifyFrame f change).run c).2 = c.reframe f (change (c.pool.frames f)) c.pool.lru := rfl
  rw [hrun]
  refine ⟨h.inv.retouched hf hoccupied hid hpin, h.guarded.reframe _ fun hnew => ?_, ?_⟩
  · rw [hpin, hdirty]
    rcases hpending hnew with hold | hpinned
    · exact h.guarded f hold
    · exact Or.inl hpinned
  · exact (gates_reframe h.inv.pool hf _ _).trans (by rw [h.gates])

/-- A change that leaves the number of pending mutations alone. -/
theorem HasGates.keepFrame (hpending : (change (c.pool.frames f)).pendingMutations = (c.pool.frames f).pendingMutations) :
    HasGates ((Cache.modifyFrame f change).run c).2 gates := by
  have hgates := h.modifyFrame hf change hoccupied hid hpin hdirty fun hne => Or.inl (hpending ▸ hne)
  rwa [hpending, ← h.resident hf, Function.update_eq_self] at hgates

end Frame

theorem HasGates.writePayload (h : HasGates c gates) (hf : c.pool.pageTable id = some f) (payload : Payload) :
    HasGates ((writePayload f payload).run c).2 gates := h.keepFrame hf _ rfl rfl rfl rfl rfl

/-! ## The calls that move a gate -/

theorem of_onFrame_ok {absent : Err} {body : FrameId → Frame → CacheOp Unit}
    (hrun : (onFrame id absent body).run c = (.ok (), c')) :
    ∃ f, c.pool.pageTable id = some f ∧ (body f (c.pool.frames f)).run c = (.ok (), c') := by
  rw [onFrame, Op.get_bind] at hrun
  cases hf : c.pool.pageTable id with
  | none =>
    rw [hf] at hrun
    cases (Prod.mk.inj hrun).1
  | some f =>
    rw [hf] at hrun
    exact ⟨f, rfl, hrun⟩

theorem HasGates.markMutationPending (h : HasGates c gates) (hrun : (markMutationPending id).run c = (.ok (), c')) :
    HasGates c' (Function.update gates id (gates id + 1)) := by
  obtain ⟨f, hf, hbody⟩ := of_onFrame_ok hrun
  obtain ⟨hpin, hbody⟩ := Op.of_throwIf_bind_ok hbody
  obtain ⟨-, hbody⟩ := Op.of_throwIf_bind_ok hbody
  have hgates := h.modifyFrame hf (fun frame => { frame with pendingMutations := frame.pendingMutations + 1 }) rfl rfl rfl rfl
    fun _ => Or.inr hpin
  rw [hbody] at hgates
  rwa [h.resident hf]

theorem HasGates.finalizePendingMutation {lsn : Nat} (h : HasGates c gates)
    (hrun : (finalizePendingMutation id lsn).run c = (.ok (), c')) :
    gates id ≠ 0 ∧ HasGates c' (Function.update gates id (gates id - 1)) := by
  obtain ⟨f, hf, hbody⟩ := of_onFrame_ok hrun
  obtain ⟨hpending, hbody⟩ := Op.of_throwIf_bind_ok hbody
  obtain ⟨-, hbody⟩ := Op.of_throwIf_bind_ok hbody
  have hgates := h.modifyFrame hf (fun frame => { setLsn lsn frame with pendingMutations := frame.pendingMutations - 1 })
    rfl rfl rfl rfl fun _ => Or.inl hpending
  rw [hbody] at hgates
  rw [h.resident hf]
  exact ⟨hpending, hgates⟩

theorem HasGates.resolvePendingMutation {restored : Nat} (h : HasGates c gates)
    (hrun : (resolvePendingMutation id restored).run c = (.ok (), c')) :
    gates id ≠ 0 ∧ HasGates c' (Function.update gates id (gates id - 1)) := by
  obtain ⟨f, hf, hbody⟩ := of_onFrame_ok hrun
  obtain ⟨hpending, hbody⟩ := Op.of_throwIf_bind_ok hbody
  have hgates := h.modifyFrame hf (fun frame => { setLsn restored frame with pendingMutations := frame.pendingMutations - 1 })
    rfl rfl rfl rfl fun _ => Or.inl hpending
  rw [hbody] at hgates
  rw [h.resident hf]
  exact ⟨hpending, hgates⟩

theorem HasGates.restorePageLsnAfterUndo {restored : Nat} (h : HasGates c gates)
    (hrun : (restorePageLsnAfterUndo id restored).run c = (.ok (), c')) : HasGates c' gates := by
  obtain ⟨f, hf, hbody⟩ := of_onFrame_ok hrun
  obtain ⟨-, hbody⟩ := Op.of_throwIf_bind_ok hbody
  have hgates := h.keepFrame hf (setLsn restored) rfl rfl rfl rfl rfl
  rwa [hbody] at hgates

end Cache

end Ddb.Buffer
