import Ddb.Buffer.Transparency

/-!
# Flushing and deleting

The calls of the pool that write frames back are quiet too, and they fail for one reason only once the file works: a
dirty frame whose gates are closed or whose page is not allocated. `flush_all_pages` stops at the first such frame, so a
single one keeps every frame behind it from the disk.
-/

namespace Ddb.Buffer

open Ddb.Lib Ddb.Storage

namespace Cache

variable {c c' : Cache} {f : FrameId} {id : PageId}

/-- The call keeps the invariant and is quiet. -/
def Calm (c c' : Cache) : Prop := c.Inv none → c'.Inv none ∧ Quiet c c'

theorem Calm.refl (c : Cache) : Calm c c := fun h => ⟨h, .refl c⟩

theorem Calm.trans (a b c : Cache) (hab : Calm a b) (hbc : Calm b c) : Calm a c := by
  intro h
  obtain ⟨hb, hquiet⟩ := hab h
  obtain ⟨hc, hquiet'⟩ := hbc hb
  exact ⟨hc, hquiet.trans hquiet'⟩

theorem calm_fetchPage (id : PageId) : Op.Within Calm (fetchPage id) := by
  intro c h
  obtain ⟨outcome, c', hrun, hinv, hquiet, -⟩ := fetchPage_cases h id
  rw [hrun]
  exact ⟨hinv, hquiet⟩

theorem calm_unpinPage (id : PageId) : Op.Within Calm (unpinPage id false) := by
  intro c h
  cases hf : c.pool.pageTable id with
  | none =>
    have hrun : (unpinPage id false).run c = (.ok false, c) := by rw [unpinPage, Op.get_bind, hf]; rfl
    rw [hrun]
    exact ⟨h, .refl c⟩
  | some f =>
    by_cases hpin : (c.pool.frames f).pinCount = 0
    · have hrun : (unpinPage id false).run c = (.ok false, c) := by
        rw [unpinPage, Op.get_bind, hf]
        dsimp only
        rw [if_pos hpin]
        rfl
      rw [hrun]
      exact ⟨h, .refl c⟩
    · rw [unpinPage_run hf hpin]
      exact ⟨h.unpinned hf hpin false, .unpinned c f⟩

theorem calm_deletePage (id : PageId) : Op.Within Calm (deletePage id) := by
  intro c h
  rw [deletePage, Op.get_bind]
  cases hf : c.pool.pageTable id with
  | none => exact ⟨h, .refl c⟩
  | some f =>
    dsimp only
    by_cases hpin : (c.pool.frames f).pinCount ≠ 0
    · rw [if_pos hpin]
      exact ⟨h, .refl c⟩
    rw [if_neg hpin]
    rcases writeDirtyFrame_cases h hf with ⟨e, c', hrun, hinv, hquiet, -⟩ | ⟨c', hrun, hinv, hquiet, hpool⟩
    · rw [Op.bind_error hrun]
      exact ⟨hinv, hquiet⟩
    · have hframe : c'.pool.frames f = { c.pool.frames f with dirty := false } := by
        rw [hpool, BufferPool.frames_setFrame, if_pos rfl]
      have hf' : c'.pool.pageTable id = some f := by
        rw [hpool]
        exact hf
      have hevicted := hinv.of_evict hf'
      obtain ⟨hgiven, hgive⟩ := giveBack_quiet hevicted
      have hblank : ∀ pool : BufferPool, (pool.resetFrame f).resetFrame f = pool.resetFrame f := by
        intro pool
        simp only [BufferPool.resetFrame, BufferPool.setFrame, Function.update_idem]
      have hdropped : ((giveBack f).run { c' with pool := ((c'.pool.removeFromLru f).erasePage id).resetFrame f }).2 =
          { c' with pool := (((c'.pool.removeFromLru f).erasePage id).resetFrame f).pushFree f } := by
        change ({ c' with pool := ((((c'.pool.removeFromLru f).erasePage id).resetFrame f).resetFrame f).pushFree f }
          : Cache) = _
        rw [hblank]
      rw [hdropped] at hgiven hgive
      rw [Op.bind_ok hrun]
      exact ⟨hgiven, (hquiet.trans (.of_evict hinv hf' (by rw [hframe]))).trans hgive⟩

theorem onPages_flush_cases (c : Cache) : ∃ outcome pages, (onPages PageManager.flush).run c =
    (outcome, { c with pages := pages }) ∧ c.pages.Unchanged pages ∧ (c.pages.Synced → outcome = .ok ()) := by
  have hrun : (onPages PageManager.flush).run c =
      ((PageManager.flush.run c.pages).1, { c with pages := (PageManager.flush.run c.pages).2 }) := rfl
  rw [PageManager.flush, PageManager.access_run] at hrun
  refine ⟨_, _, hrun, ?_, ?_⟩
  · split
    · exact ⟨rfl, rfl, rfl, fun _ => rfl, fun hs => hs.answered⟩
    · exact ⟨rfl, rfl, rfl, fun _ => rfl, fun hs => hs.answered⟩
  · intro hs
    rw [if_neg hs.not_failsNext]

/-- The part of `flush_page` behind its gates. -/
theorem calm_flushFrame (hf : c.pool.pageTable id = some f)
    (hdurable : (c.pool.frames f).dirty = true → LsnDurable c.walDurability (c.pool.frames f).page.lsn) : Calm c ((do
      handToDisk id (c.pool.frames f)
      onPages PageManager.flush
      modifyFrame f fun frame => { frame with dirty := false }
      return true : CacheOp Bool).run c).2 := by
  intro h
  rcases handToDisk_cases h hf with ⟨e, c', hrun, hpages, hpool, hwal, -⟩ | ⟨handed, hrun, -⟩
  · rw [Op.bind_error hrun]
    exact ⟨h.of_pages hpages hpool, .of_pages hpages hpool hwal⟩
  rw [Op.bind_ok hrun]
  have hquiet := Quiet.of_stored h hf hdurable handed
  obtain ⟨outcome, pages, hflush, hpages, -⟩ := onPages_flush_cases (c.stored id f handed)
  have hinv : ({ c.stored id f handed with pages := pages } : Cache).Inv none := (h.of_stored hf handed).of_pages hpages rfl
  have hquiet' : Quiet c { c.stored id f handed with pages := pages } := hquiet.trans (.of_pages hpages rfl rfl)
  cases outcome with
  | error e =>
    rw [Op.bind_error hflush]
    exact ⟨hinv, hquiet'⟩
  | ok _ =>
    rw [Op.bind_ok hflush]
    refine ⟨hinv.of_clearDirty hf, hquiet'.trans (.of_clearDirty hinv hf ?_)⟩
    change pages.slot id = some (c.pool.frames f).page
    rw [hpages.slot, slot_stored h hf, if_pos rfl]

theorem calm_flushPage (id : PageId) : Op.Within Calm (flushPage id) := by
  intro c
  rw [flushPage, Op.get_bind]
  cases hf : c.pool.pageTable id with
  | none => exact .refl c
  | some f =>
    dsimp only
    by_cases hdirty : (c.pool.frames f).dirty = true
    · rw [if_pos hdirty]
      rcases requireWritable_cases (c.pool.frames f) c with ⟨hok, hwritable⟩ | ⟨e, he, -⟩
      · rw [Op.bind_ok hok]
        exact calm_flushFrame hf fun _ => (writable_iff.mp hwritable).2
      · rw [Op.bind_error he]
        exact .refl c
    · rw [if_neg hdirty, Op.pure_bind_run]
      exact calm_flushFrame hf fun h => absurd h hdirty

/-- The disk holds the image of a frame, if it is dirty. -/
def Backed (c : Cache) (f : FrameId) : Prop :=
  (c.pool.frames f).occupied = true → (c.pool.frames f).dirty = true →
    c.pages.slot (c.pool.frames f).page.id = some (c.pool.frames f).page

/-- One turn of the first loop of `flush_all_pages`. -/
theorem writeBackFrame_cases (h : c.Inv none) (f : FrameId) : ∃ outcome c', (writeBackFrame f).run c = (outcome, c') ∧
    c'.Inv none ∧ Quiet c c' ∧ c'.pool = c.pool ∧ (∀ g, c.Backed g → c'.Backed g) ∧
    (outcome = .ok () → c'.Backed f) ∧
    (c.pages.Synced → ¬ c.Stuck f → outcome = .ok ()) := by
  rw [writeBackFrame, Op.get_bind]
  by_cases hwrite : ((c.pool.frames f).occupied && (c.pool.frames f).dirty) = true
  swap
  · refine ⟨_, _, by rw [if_neg hwrite]; rfl, h, .refl c, rfl, fun _ hb => hb, fun _ hoccupied hdirty => ?_, fun _ _ => rfl⟩
    simp [hoccupied, hdirty] at hwrite
  rw [if_pos hwrite]
  obtain ⟨hoccupied, hdirty⟩ := Bool.and_eq_true_iff.mp hwrite
  have hf := h.pool.frame_table f hoccupied
  rcases requireWritable_cases (c.pool.frames f) c with ⟨hok, hwritable⟩ | ⟨e, he, hblocked⟩
  swap
  · refine ⟨_, _, by rw [Op.bind_error he], h, .refl c, rfl, fun _ hb => hb, by simp, fun _ hnone => ?_⟩
    exact absurd ⟨_, hf, hdirty, Or.inl hblocked⟩ hnone
  rw [Op.bind_ok hok]
  rcases handToDisk_cases h hf with ⟨e, c', hrun, hpages, hpool, hwal, hreason⟩ | ⟨handed, hrun, -⟩
  · refine ⟨_, _, hrun, h.of_pages hpages hpool, .of_pages hpages hpool hwal, hpool, ?_, by simp, fun hs hnone => ?_⟩
    · intro g hb
      rw [Backed, hpool, hpages.slot]
      exact hb
    · exact absurd ⟨_, hf, hdirty, Or.inr (hreason hs)⟩ hnone
  · have hslot := slot_stored h hf handed
    refine ⟨_, _, hrun, h.of_stored hf handed, .of_stored h hf (fun _ => (writable_iff.mp hwritable).2) handed, rfl, ?_, ?_,
      fun _ _ => rfl⟩
    · intro g hb hgo hgd
      refine (hslot _).trans ?_
      split
      · rename_i heq
        by_cases hgf : g = f
        · rw [hgf]
          rfl
        · exact absurd heq (h.pool.page_ne hoccupied hgo hgf)
      · exact hb hgo hgd
    · intro _ _ _
      exact (hslot _).trans (if_pos rfl)

theorem Quiet.stuck_iff (h : Quiet c c') (hpool : c'.pool = c.pool) (f : FrameId) : c'.Stuck f ↔ c.Stuck f := by
  simp only [Stuck, hpool, h.wal, h.allocated]

theorem writeBackFrames_cases (h : c.Inv none) (frames : List FrameId) : ∃ outcome c',
    (frames.forM writeBackFrame).run c = (outcome, c') ∧ c'.Inv none ∧ Quiet c c' ∧ c'.pool = c.pool ∧
    (∀ g, c.Backed g → c'.Backed g) ∧ (outcome = .ok () → ∀ f ∈ frames, c'.Backed f) ∧
    (c.pages.Synced → (∀ f ∈ frames, ¬ c.Stuck f) → outcome = .ok ()) := by
  induction frames generalizing c with
  | nil => exact ⟨_, _, rfl, h, .refl c, rfl, fun _ hb => hb, by simp, fun _ _ => rfl⟩
  | cons f rest ih =>
    obtain ⟨outcome, c', hrun, hinv, hquiet, hpool, hkeep, hback, hok⟩ := writeBackFrame_cases h f
    change ∃ outcome c', (writeBackFrame f >>= fun _ => rest.forM writeBackFrame).run c = (outcome, c') ∧ _
    cases outcome with
    | error e =>
      refine ⟨_, _, by rw [Op.bind_error hrun], hinv, hquiet, hpool, hkeep, by simp, fun hs hnone => ?_⟩
      exact absurd (hok hs (hnone f List.mem_cons_self)) (by simp)
    | ok _ =>
      obtain ⟨outcome, c'', hrun', hinv', hquiet', hpool', hkeep', hback', hok'⟩ := ih hinv
      refine ⟨outcome, c'', by rw [Op.bind_ok hrun, hrun'], hinv', hquiet.trans hquiet', hpool'.trans hpool,
        fun g hb => hkeep' g (hkeep g hb), ?_, ?_⟩
      · intro hdone g hg
        rcases List.mem_cons.mp hg with rfl | hg
        · exact hkeep' g (hback rfl)
        · exact hback' hdone g hg
      · intro hs hnone
        refine hok' (hquiet.synced hs) fun g hg => ?_
        rw [hquiet.stuck_iff hpool]
        exact hnone g (List.mem_cons_of_mem f hg)

/-- What the last loop of `flush_all_pages` does to a frame. -/
def swept (frame : Frame) : Frame := if frame.occupied then { frame with dirty := false } else frame

theorem swept_page (frame : Frame) : (swept frame).page = frame.page := by
  unfold swept
  split <;> rfl

theorem sweep_run (frames : List FrameId) (c : Cache) : (frames.forM fun f => modifyFrame f swept).run c =
    (.ok (), { c with pool := { c.pool with
      frames := fun g => if g ∈ frames then swept (c.pool.frames g) else c.pool.frames g } }) := by
  induction frames generalizing c with
  | nil => simp only [List.not_mem_nil, if_false]; rfl
  | cons f rest ih =>
    have hfirst : (modifyFrame f swept).run c =
        (.ok (), { c with pool := c.pool.setFrame f (swept (c.pool.frames f)) }) := rfl
    change ((modifyFrame f swept) >>= fun _ => rest.forM fun f => modifyFrame f swept).run c = _
    rw [Op.bind_ok hfirst, ih]
    refine Prod.ext rfl (congrArg (fun frames => { c with pool := { c.pool with frames := frames } }) ?_)
    funext g
    simp only [BufferPool.frames_setFrame, List.mem_cons]
    by_cases hgf : g = f
    · subst hgf
      have htwice : swept (swept (c.pool.frames g)) = swept (c.pool.frames g) := by
        simp only [swept]
        split <;> simp_all
      simp [htwice]
    · simp [hgf]

/-- Every frame swept of its dirty flag. -/
def sweep (c : Cache) : Cache := { c with pool := { c.pool with frames := fun g => swept (c.pool.frames g) } }

theorem frames_sweep (g : FrameId) : c.sweep.pool.frames g = swept (c.pool.frames g) := rfl

theorem calm_sweep (hinv : c.Inv none) (hbacked : ∀ f, c.Backed f) : c.sweep.Inv none ∧ Quiet c c.sweep := by
  have hoccupied : ∀ frame, (swept frame).occupied = frame.occupied := by
    intro frame
    unfold swept
    split <;> rfl
  have hpin : ∀ frame, (swept frame).pinCount = frame.pinCount := by
    intro frame
    unfold swept
    split <;> rfl
  have hclean : ∀ frame, frame.occupied = true → (swept frame).dirty = false := by
    intro frame h
    rw [swept, if_pos h]
  refine ⟨⟨hinv.pages, ⟨?_, ?_, ?_, ?_, hinv.pool.free_nodup, ?_, hinv.pool.lru_nodup, ?_, ?_⟩, hinv.resident⟩,
    ⟨rfl, fun _ => rfl, rfl, fun hs => hs, ?_, rfl, ?_, ?_, ?_, fun _ _ => Or.inl rfl⟩⟩
  · intro g hg
    exact hinv.pool.occupied_lt g (by rwa [frames_sweep, hoccupied] at hg)
  · intro id g hg
    rw [frames_sweep, hoccupied, swept_page]
    exact hinv.pool.table_frame id g hg
  · intro g hg
    rw [frames_sweep, hoccupied] at hg
    rw [frames_sweep, swept_page]
    exact hinv.pool.frame_table g hg
  · intro g
    rw [frames_sweep, hoccupied]
    exact hinv.pool.free_iff g
  · intro g
    rw [frames_sweep, hoccupied, hpin]
    exact hinv.pool.lru_iff g
  · intro g hg
    rw [frames_sweep, hoccupied] at hg
    rw [frames_sweep, hinv.pool.blank g hg]
    rfl
  · intro g hg
    rw [frames_sweep, hoccupied]
    exact hinv.pool.held_free g hg
  · intro hs g
    rw [frames_sweep, swept]
    split
    · exact hs g
    · exact hs g
  · intro id hd
    obtain ⟨g, hg, hd⟩ := hd
    simp [frames_sweep, hclean _ (hinv.pool.table_frame id g hg).1] at hd
  · intro id _
    cases hg : c.pool.pageTable id with
    | none =>
      rw [view_absent hg, @view_absent c.sweep id hg]
      rfl
    | some g => rw [view_resident hg, @view_resident c.sweep g id hg, frames_sweep, swept_page]
  · intro id hc g hg _
    obtain ⟨hocc, hid⟩ := hinv.pool.table_frame id g hg
    rw [frames_sweep, swept_page]
    cases hd : (c.pool.frames g).dirty with
    | false => exact hc g hg hd
    | true =>
      have hb := hbacked g hocc hd
      rwa [hid] at hb

/-- `flush_all_pages` is quiet, and with a working file it succeeds as soon as no frame is stuck. -/
theorem flushAllPages_cases (h : c.Inv none) : ∃ outcome c', flushAllPages.run c = (outcome, c') ∧ c'.Inv none ∧
    Quiet c c' ∧ (c.pages.Synced → (∀ f, ¬ c.Stuck f) → outcome = .ok ()) := by
  obtain ⟨outcome, c', hrun, hinv, hquiet, hpool, -, hback, hok⟩ :=
    writeBackFrames_cases h (List.range c.pool.capacity)
  rw [flushAllPages, Op.get_bind]
  cases outcome with
  | error e =>
    refine ⟨_, _, by rw [Op.bind_error hrun], hinv, hquiet, fun hs hnone => ?_⟩
    exact absurd (hok hs fun f _ => hnone f) (by simp)
  | ok _ =>
    rw [Op.bind_ok hrun]
    obtain ⟨outcome, pages, hflush, hpages, hworks⟩ := onPages_flush_cases c'
    have hinv' : ({ c' with pages := pages } : Cache).Inv none := hinv.of_pages hpages rfl
    have hquiet' : Quiet c { c' with pages := pages } := hquiet.trans (.of_pages hpages rfl rfl)
    cases outcome with
    | error e =>
      refine ⟨_, _, by rw [Op.bind_error hflush], hinv', hquiet', fun hs _ => ?_⟩
      exact absurd (hworks (hquiet.synced hs)) (by simp)
    | ok _ =>
      rw [Op.bind_ok hflush]
      have hbacked : ∀ f, ({ c' with pages := pages } : Cache).Backed f := by
        intro f hocc hd
        change pages.slot _ = _
        rw [hpages.slot]
        have hlt := hinv.pool.occupied_lt f hocc
        rw [hpool] at hlt
        exact hback rfl f (List.mem_range.mpr hlt) hocc hd
      obtain ⟨hswept, hsweep⟩ := calm_sweep hinv' hbacked
      have hframes : (fun g => if g ∈ List.range c.pool.capacity then swept (c'.pool.frames g) else c'.pool.frames g) =
          fun g => swept (c'.pool.frames g) := by
        funext g
        split
        · rfl
        · rename_i hg
          have hfree : (c'.pool.frames g).occupied = false := by
            rw [Bool.eq_false_iff]
            intro hocc
            have hlt := hinv.pool.occupied_lt g hocc
            rw [hpool] at hlt
            exact hg (List.mem_range.mpr hlt)
          simp [swept, hfree]
      refine ⟨_, _, sweep_run _ _, ?_, ?_, fun _ _ => rfl⟩
      · simp only [hframes]
        exact hswept
      · simp only [hframes]
        exact hquiet'.trans hsweep

theorem calm_flushAllPages : Op.Within Calm flushAllPages := by
  intro c h
  obtain ⟨outcome, c', hrun, hinv, hquiet, -⟩ := flushAllPages_cases h
  rw [hrun]
  exact ⟨hinv, hquiet⟩

end Cache

end Ddb.Buffer
