import Ddb.Storage.PhysicalMutation

/-!
# A pool with a single client

Recovery works alone on its pool and holds one page at a time: it fetches a page, reads or overwrites it, and unpins it.
Between two such uses no frame is pinned, so a pool with at least one frame always has one to give, and with a working file
and a log that is durable through every PageLSN in the pool a fetch cannot fail.
-/

namespace Ddb.Buffer.Cache

open Ddb.Lib Ddb.Storage

variable {c c₁ c' : Cache} {f : FrameId} {id : PageId} {page : Page}

/-- A pool between two uses by its only client. -/
structure Solo (c : Cache) : Prop where
  inv : c.Inv none
  synced : c.pages.Synced
  settled : c.Settled
  clean : ∀ id, c.Clean id
  unpinned : ∀ f, (c.pool.frames f).pinCount = 0
  room : 0 < c.pool.capacity
  /-- Every dirty page can be written back. -/
  writable : ∀ id page, c.DirtyAt id → c.view id = some page →
    c.pages.isPageAllocated id = true ∧ LsnDurable c.walDurability page.lsn

theorem Solo.not_stuck (h : c.Solo) (f : FrameId) : ¬ c.Stuck f := by
  rintro ⟨id, hf, hdirty, hreason⟩
  obtain ⟨halloc, hdurable⟩ := h.writable id _ ⟨f, hf, hdirty⟩ (view_resident hf)
  rcases hreason with hgate | hbit
  · exact hgate (writable_iff.mpr ⟨h.settled f, hdurable⟩)
  · rw [halloc] at hbit
    cases hbit

theorem Solo.hasRoom (h : c.Solo) : c.HasRoom := by
  cases hoccupied : (c.pool.frames 0).occupied with
  | true => exact Or.inr (List.ne_nil_of_mem ((h.inv.pool.lru_iff 0).mpr ⟨hoccupied, h.unpinned 0⟩))
  | false => exact Or.inl (List.ne_nil_of_mem ((h.inv.pool.free_iff 0).mpr ⟨h.room, hoccupied, nofun⟩))

/-! ## Pins -/

/-- No frame has gained a pin, except perhaps those in `except`. -/
def Eased (except : Option FrameId) (c c' : Cache) : Prop :=
  ∀ f, except ≠ some f → (c'.pool.frames f).pinCount ≤ (c.pool.frames f).pinCount

variable {except : Option FrameId}

theorem Eased.refl (c : Cache) : Eased except c c := fun _ _ => le_rfl

theorem Eased.trans (a b c : Cache) (hab : Eased except a b) (hbc : Eased except b c) : Eased except a c :=
  fun f hf => (hbc f hf).trans (hab f hf)

theorem Eased.of_pool (h : c'.pool.frames = c.pool.frames) : Eased except c c' := fun f _ => by rw [h]

theorem eased_onPages {α : Type} (x : PageOp α) : Op.Within (Eased except) (onPages x) := fun _ => .of_pool rfl

theorem eased_modifyFrame {g : Frame → Frame} (h : ∀ frame, (g frame).pinCount ≤ frame.pinCount ∨ except = some f) :
    Op.Within (Eased except) (modifyFrame f g) := by
  intro c other hother
  change ((c.pool.setFrame f _).frames other).pinCount ≤ _
  rw [BufferPool.frames_setFrame]
  split
  · rename_i heq
    subst heq
    exact (h _).resolve_right hother
  · exact le_rfl

theorem eased_writeDirtyFrame (f : FrameId) : Op.Within (Eased except) (writeDirtyFrame f) := by
  refine Op.within_get_bind fun c => ?_
  refine Op.Within.ite (fun _ => ?_) (fun _ => Op.within_pure Eased.refl _) c
  refine Op.Within.bind Eased.trans ?_ fun _ => Op.Within.bind Eased.trans ?_ fun _ => eased_modifyFrame fun _ => Or.inl le_rfl
  · exact Op.Within.bind Eased.trans (Op.within_throwIf Eased.refl _ _) fun _ =>
      Op.within_get_bind fun c => Op.within_throwIf Eased.refl _ _ c
  · exact Op.Within.bind Eased.trans (Op.within_modify fun _ => .of_pool rfl) fun _ => eased_onPages _

theorem Eased.of_reset (f : FrameId) (pool : BufferPool) (h : pool.frames = c.pool.frames) :
    Eased except c { c with pool := pool.resetFrame f } := by
  intro other _
  change ((pool.setFrame f .blank).frames other).pinCount ≤ _
  rw [BufferPool.frames_setFrame, h]
  split
  · exact Nat.zero_le _
  · exact le_rfl

theorem eased_acquireFrame : Op.Within (Eased except) acquireFrame := by
  refine Op.within_get_bind fun c => ?_
  split
  · exact .of_pool rfl
  · exact .refl c
  · refine Op.Within.bind Eased.trans (eased_writeDirtyFrame _) (fun _ => ?_) c
    refine Op.Within.bind Eased.trans (Op.within_modify fun c => ?_) fun _ => Op.within_pure Eased.refl _
    exact .of_reset _ _ rfl

theorem eased_giveBack (f : FrameId) : Op.Within (Eased except) (giveBack f) := fun c => .of_reset f (c.pool.pushFree f) rfl

theorem eased_fillFrame (id : PageId) (f : FrameId) : Op.Within (Eased (some f)) (fillFrame id f) := by
  refine Op.Within.bind Eased.trans ?_ fun page => ?_
  · refine Op.Within.tryCatch Eased.trans (eased_onPages _) fun e => ?_
    exact Op.Within.bind Eased.trans (eased_giveBack f) fun _ => Op.within_throw Eased.refl e
  · refine Op.Within.bind Eased.trans (eased_modifyFrame fun _ => Or.inr rfl) fun _ => Op.within_get_bind fun c => ?_
    split
    · exact Op.Within.bind Eased.trans (eased_giveBack f) (fun _ => Op.within_throw Eased.refl _) c
    · exact .of_pool rfl

theorem eased_deletePage (id : PageId) : Op.Within (Eased except) (deletePage id) := by
  refine Op.within_get_bind fun c => ?_
  split
  · exact .refl c
  · refine Op.Within.ite (fun _ => Op.within_pure Eased.refl _) (fun _ => ?_) c
    refine Op.Within.bind Eased.trans (eased_writeDirtyFrame _) fun _ => ?_
    refine Op.Within.bind Eased.trans (Op.within_modify fun c => ?_) fun _ => Op.within_pure Eased.refl _
    exact .of_reset _ (((c.pool.removeFromLru _).erasePage _).pushFree _) rfl

/-! ## Fetching and unpinning -/

/-- The client holds one page. -/
structure Held (c c₁ : Cache) (id : PageId) (f : FrameId) : Prop where
  inv : c₁.Inv none
  quiet : Quiet c c₁
  view : c₁.view id = c.view id
  table : c₁.pool.pageTable id = some f
  pin : (c₁.pool.frames f).pinCount = 1
  others : ∀ g, g ≠ f → (c₁.pool.frames g).pinCount = 0

theorem Solo.fetchPage (h : c.Solo) (halloc : c.pages.isPageAllocated id = true) :
    ∃ f c₁, (fetchPage id).run c = (.ok (some f), c₁) ∧ Held c c₁ id f := by
  obtain ⟨f, c₁, hrun⟩ := fetchPage_succeeds h.inv h.synced (fun g _ => h.not_stuck g) halloc
    (fun g _ => by rw [h.unpinned g]; decide) fun _ => h.hasRoom
  refine ⟨f, c₁, hrun, ?_⟩
  have hfetched := fetched_fetchPage h.inv id
  rw [hrun] at hfetched
  generalize hresult : (Except.ok (some f), c₁) = result at hfetched
  cases hfetched with
  | failed houtcome _ _ =>
    obtain ⟨rfl, -⟩ := Prod.mk.inj hresult
    exact absurd rfl (houtcome f)
  | @fetched f' c' hinv hquiet hview _ hf _ =>
    obtain ⟨hok, rfl⟩ := Prod.mk.inj hresult
    obtain rfl : f = f' := Option.some.inj (Except.ok.inj hok)
    -- Which pins there are is seen on the two paths of the fetch.
    have hpins : (c₁.pool.frames f).pinCount = 1 ∧ ∀ g, g ≠ f → (c₁.pool.frames g).pinCount = 0 := by
      cases htable : c.pool.pageTable id with
      | some g =>
        rw [fetchPage_hit halloc htable, if_neg (by rw [h.unpinned g]; decide)] at hrun
        obtain ⟨hg, rfl⟩ := Prod.mk.inj hrun
        obtain rfl : g = f := Option.some.inj (Except.ok.inj hg)
        constructor
        · rw [pinned, frames_reframe, if_pos rfl, h.unpinned g]
        · intro other hother
          rw [pinned, frames_reframe, if_neg hother, h.unpinned other]
      | none =>
        have hvalid := (PageManager.isPageAllocated_iff.mp halloc).1
        rw [Cache.fetchPage, Op.get_bind, if_neg (by simp [hvalid]), Op.throwIf_bind_neg (by simp [halloc]), htable] at hrun
        obtain ⟨acquired, c₂, hacquire, hrest⟩ := Op.of_bind_ok hrun
        have heased := @eased_acquireFrame none c
        rw [hacquire] at heased
        cases acquired with
        | none => cases (Prod.mk.inj hrest).1
        | some g =>
          obtain ⟨_, c₃, hfill, hreturn⟩ := Op.of_bind_ok hrest
          obtain ⟨hg, rfl⟩ := Prod.mk.inj hreturn
          obtain rfl : g = f := Option.some.inj (Except.ok.inj hg)
          rcases acquireFrame_cases h.inv with ⟨e, c', hrun', -⟩ | ⟨hrun', -, -⟩ | ⟨g', c', hrun', hinv', hquiet', habsent⟩
          · rw [hacquire] at hrun'
            cases (Prod.mk.inj hrun').1
          · rw [hacquire] at hrun'
            cases (Prod.mk.inj hrun').1
          · rw [hacquire] at hrun'
            obtain ⟨hg', rfl⟩ := Prod.mk.inj hrun'
            obtain rfl : g = g' := Option.some.inj (Except.ok.inj hg')
            have halloc' : c₂.pages.isPageAllocated id = true := by rw [hquiet'.allocated]; exact halloc
            have hfilled := eased_fillFrame id g c₂
            rw [hfill] at hfilled
            refine ⟨?_, fun other hother => ?_⟩
            · rcases fillFrame_cases hinv' (habsent id htable) halloc' with ⟨e, c', hrun', -⟩ | ⟨c', hrun', -, -, -, hpin⟩
              · rw [hfill] at hrun'
                cases (Prod.mk.inj hrun').1
              · rw [hfill] at hrun'
                obtain ⟨-, rfl⟩ := Prod.mk.inj hrun'
                exact hpin
            · have hle := (hfilled other fun heq => hother (Option.some.inj heq).symm).trans (heased other (by simp))
              rw [h.unpinned other] at hle
              exact Nat.le_zero.mp hle
    exact ⟨hinv, hquiet, hview, hf, hpins.1, hpins.2⟩

/-- The pins after the page has been given up. -/
theorem Held.unpinned_pins (h : Held c c₁ id f) {page : Page} (isDirty : Bool) (g : FrameId) :
    (((c₁.written f page).unpinned f isDirty).pool.frames g).pinCount = 0 := by
  rw [Cache.unpinned, frames_reframe]
  split
  · rw [frames_written, if_pos rfl]
    change (c₁.pool.frames f).pinCount - 1 = 0
    rw [h.pin]
  · rename_i hg
    rw [frames_written, if_neg hg]
    exact h.others g hg

theorem written_self (c : Cache) (f : FrameId) : c.written f (c.pool.frames f).page = c := reframe_self c f

/-- What is dirty and writable stays so while nothing is written. -/
theorem Solo.writable_quiet (h : c.Solo) (hquiet : Quiet c c') (hdirty : c'.DirtyAt id) (hview : c'.view id = some page) :
    c'.pages.isPageAllocated id = true ∧ LsnDurable c'.walDurability page.lsn := by
  rw [hquiet.allocated, hquiet.wal]
  rw [hquiet.view id (h.clean id)] at hview
  exact h.writable id page (hquiet.dirty id hdirty) hview

theorem Solo.of_quiet (h : c.Solo) (hinv : c'.Inv none) (hquiet : Quiet c c')
    (hunpinned : ∀ f, (c'.pool.frames f).pinCount = 0) : c'.Solo where
  inv := hinv
  synced := hquiet.synced h.synced
  settled := hquiet.settled h.settled
  clean := fun id => hquiet.clean id (h.clean id)
  unpinned := hunpinned
  room := hquiet.capacity ▸ h.room
  writable := fun _ _ => h.writable_quiet hquiet

/-- The page is given up as it was. -/
theorem Held.release (hsolo : c.Solo) (h : Held c c₁ id f) :
    ∃ c', (unpinPage id false).run c₁ = (.ok true, c') ∧ c'.Solo ∧ Quiet c c' := by
  have hpin : (c₁.pool.frames f).pinCount ≠ 0 := by rw [h.pin]; exact Nat.one_ne_zero
  have hquiet := h.quiet.trans (.unpinned c₁ f)
  refine ⟨c₁.unpinned f false, unpinPage_run h.table hpin false, hsolo.of_quiet (h.inv.unpinned h.table hpin false) hquiet ?_,
    hquiet⟩
  intro g
  have hpins := @Held.unpinned_pins _ _ _ _ h (c₁.pool.frames f).page false g
  rwa [written_self] at hpins

theorem writeThrough_run (hid : (c₁.pool.frames f).page.id = id) (payload : Payload) (lsn : Nat) :
    (writeThrough f payload lsn).run c₁ = (.ok (), c₁.written f ⟨id, lsn, payload⟩) := by
  subst hid
  rfl

theorem Solo.of_rewrote (h : c.Solo) (hinv : c'.Inv none) (hwrote : Rewrote c c' id page)
    (hunpinned : ∀ f, (c'.pool.frames f).pinCount = 0) (halloc : c.pages.isPageAllocated id = true)
    (hdurable : LsnDurable c.walDurability page.lsn) : c'.Solo where
  inv := hinv
  synced := hwrote.synced h.synced
  settled := hwrote.settled h.settled
  clean := by
    intro other
    by_cases heq : other = id
    · exact heq ▸ hwrote.clean_self
    · exact hwrote.clean other heq (h.clean other)
  unpinned := hunpinned
  room := hwrote.capacity ▸ h.room
  writable := by
    intro other image hdirty hview
    rw [hwrote.allocated, hwrote.wal]
    by_cases heq : other = id
    · subst heq
      rw [hwrote.self] at hview
      obtain rfl := Option.some.inj hview
      exact ⟨halloc, hdurable⟩
    · rw [hwrote.view other heq (h.clean other)] at hview
      exact h.writable other image ((hwrote.dirty other hdirty).resolve_left heq) hview

/-- The page is overwritten and given up as dirty. -/
theorem Held.write (hsolo : c.Solo) (h : Held c c₁ id f) (halloc : c.pages.isPageAllocated id = true) (payload : Payload)
    {lsn : Nat} (hdurable : LsnDurable c.walDurability lsn) :
    ∃ c', (writeThrough f payload lsn).run c₁ = (.ok (), c₁.written f ⟨id, lsn, payload⟩) ∧
      (unpinPage id true).run (c₁.written f ⟨id, lsn, payload⟩) = (.ok true, c') ∧ c'.Solo ∧
      Rewrote c c' id ⟨id, lsn, payload⟩ := by
  have hpin : (c₁.pool.frames f).pinCount ≠ 0 := by rw [h.pin]; exact Nat.one_ne_zero
  have hid := (h.inv.pool.table_frame id f h.table).2
  obtain ⟨hunpin, hinv, hwrote⟩ := @unpin_written c₁ f id ⟨id, lsn, payload⟩ h.inv h.table hpin rfl
  have hrewrote := h.quiet.then_wrote hwrote
  exact ⟨_, writeThrough_run hid payload lsn, hunpin,
    hsolo.of_rewrote hinv hrewrote (fun g => h.unpinned_pins true g) halloc hdurable, hrewrote⟩

/-- A page nobody holds can be dropped from the pool. -/
theorem Solo.deletePage (h : c.Solo) (id : PageId) :
    ∃ c', (deletePage id).run c = (.ok true, c') ∧ c'.Solo ∧ Quiet c c' ∧ c'.pool.pageTable id = none := by
  obtain ⟨hinv, hquiet⟩ := calm_deletePage id c h.inv
  have heased := @eased_deletePage none id c
  have hunpinned : ∀ f, (((Cache.deletePage id).run c).2.pool.frames f).pinCount = 0 := by
    intro f
    have hle := heased f nofun
    rw [h.unpinned f] at hle
    exact Nat.le_zero.mp hle
  have hsolo := h.of_quiet hinv hquiet hunpinned
  have hrun : ((Cache.deletePage id).run c).1 = .ok true ∧ ((Cache.deletePage id).run c).2.pool.pageTable id = none := by
    rw [Cache.deletePage, Op.get_bind]
    cases hf : c.pool.pageTable id with
    | none => exact ⟨rfl, hf⟩
    | some f =>
      dsimp only
      rw [if_neg (by simp [h.unpinned f])]
      rcases writeDirtyFrame_cases h.inv hf with ⟨e, c', -, -, -, hreason⟩ | ⟨c', hrun, -, -, -⟩
      · obtain ⟨hdirty, hstuck⟩ := hreason h.synced
        exact absurd ⟨id, hf, hdirty, hstuck⟩ (h.not_stuck f)
      · rw [Op.bind_ok hrun]
        refine ⟨rfl, ?_⟩
        change Function.update c'.pool.pageTable id none id = none
        exact Function.update_self _ _ _
  exact ⟨_, Prod.ext hrun.1 rfl, hsolo, hquiet, hrun.2⟩

end Ddb.Buffer.Cache
