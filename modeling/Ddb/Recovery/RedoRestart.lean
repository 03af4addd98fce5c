import Ddb.Recovery.LostSlots

/-!
# Restarting REDO

REDO may be stopped after any record, with any part of the pages it has changed not yet in the file, and run again from the
beginning. The second run ends as the first would have ended.

What makes this work is one relation between the file and the pool. A page in the file is some earlier state of the page in
the pool, and the records done so far, applied to the one, give the other. A record that a page has already changes nothing,
because the page then has its LSN or a later one, and no record takes a PageLSN back.
-/

namespace Ddb.Recovery

open Ddb.Lib Ddb.Storage Ddb.Buffer

variable {records done rest : List WalRecord} {record : WalRecord} {state : RecoveryState} {r r₁ r₂ r' : Replay} {p : PageId}
  {held : Option Page}

/-! ## One page -/

/-- A record, as REDO applies it to one page. -/
def restoredImage (records : List WalRecord) (p : PageId) (image : Option Page) (record : WalRecord) : Option Page :=
  match allocating records record, writing records record with
  | some page, _ => if p = page then some (image.getD ⟨page, 0, .zero⟩) else image
  | none, some mutation => if p = mutation.pageId then image.map (Store.redo record.lsn mutation.afterImage) else image
  | none, none => image

theorem restored_image (store : Store) (p : PageId) :
    (restored records store record).image p = restoredImage records p (store.image p) record := by
  rw [restored, restoredImage]
  cases allocating records record with
  | some page => rfl
  | none => cases writing records record <;> rfl

/-- The page is still there, and its LSN is the same or a later one. -/
def NotBefore (old new : Option Page) : Prop := ∀ page, old = some page → ∃ page', new = some page' ∧ page.lsn ≤ page'.lsn

theorem NotBefore.refl (image : Option Page) : NotBefore image image := fun page h => ⟨page, h, le_rfl⟩

theorem NotBefore.trans {a b c : Option Page} (hab : NotBefore a b) (hbc : NotBefore b c) : NotBefore a c := by
  intro page hpage
  obtain ⟨page₁, hpage₁, hle⟩ := hab page hpage
  obtain ⟨page₂, hpage₂, hle'⟩ := hbc page₁ hpage₁
  exact ⟨page₂, hpage₂, hle.trans hle'⟩

theorem NotBefore.isSome {old new : Option Page} (h : NotBefore old new) (hold : old.isSome = true) : new.isSome = true := by
  obtain ⟨page, hpage⟩ := Option.isSome_iff_exists.mp hold
  obtain ⟨page', hpage', -⟩ := h page hpage
  rw [hpage']
  rfl

theorem le_lsn_redo (lsn : Nat) (after : Payload) (page : Page) : page.lsn ≤ (Store.redo lsn after page).lsn := by
  rw [Store.redo]
  split
  · exact le_rfl
  · rename_i hnew
    exact (Nat.lt_of_not_le hnew).le

theorem lsn_le_redo (lsn : Nat) (after : Payload) (page : Page) : lsn ≤ (Store.redo lsn after page).lsn := by
  rw [Store.redo]
  split
  · assumption
  · exact le_rfl

theorem notBefore_restoredImage (records : List WalRecord) (p : PageId) (image : Option Page) (record : WalRecord) :
    NotBefore image (restoredImage records p image record) := by
  rw [restoredImage]
  cases allocating records record with
  | some page =>
    dsimp only
    split
    · rintro old rfl
      exact ⟨old, rfl, le_rfl⟩
    · exact .refl image
  | none =>
    cases writing records record with
    | none => exact .refl image
    | some mutation =>
      dsimp only
      split
      · rintro old rfl
        exact ⟨_, rfl, le_lsn_redo record.lsn mutation.afterImage old⟩
      · exact .refl image

theorem notBefore_foldl (records : List WalRecord) (p : PageId) (image : Option Page) (rest : List WalRecord) :
    NotBefore image (rest.foldl (restoredImage records p) image) := by
  induction rest generalizing image with
  | nil => exact .refl image
  | cons record rest ih => exact (notBefore_restoredImage records p image record).trans (ih _)

/-- The page has what the record tells about it. -/
structure Has (records : List WalRecord) (p : PageId) (image : Option Page) (record : WalRecord) : Prop where
  slot : allocating records record = some p → image.isSome = true
  contents : ∀ mutation, writing records record = some mutation → mutation.pageId = p →
    ∃ page, image = some page ∧ record.lsn ≤ page.lsn

theorem Has.later {new : Option Page} (h : Has records p held record) (hnew : NotBefore held new) :
    Has records p new record := by
  refine ⟨fun hallocating => hnew.isSome (h.slot hallocating), fun mutation hwriting hpage => ?_⟩
  obtain ⟨page, himage, hle⟩ := h.contents mutation hwriting hpage
  obtain ⟨page', hpage', hle'⟩ := hnew page himage
  exact ⟨page', hpage', hle.trans hle'⟩

/-- A record that the page has changes nothing. -/
theorem Has.restoredImage_eq (h : Has records p held record) : restoredImage records p held record = held := by
  rw [restoredImage]
  cases hallocating : allocating records record with
  | some page =>
    dsimp only
    split
    · rename_i hp
      obtain ⟨old, hold⟩ := Option.isSome_iff_exists.mp (h.slot (hp ▸ hallocating))
      rw [hold]
      rfl
    · rfl
  | none =>
    cases hwriting : writing records record with
    | none => rfl
    | some mutation =>
      dsimp only
      split
      · rename_i hp
        obtain ⟨page, himage, hle⟩ := h.contents mutation hwriting hp.symm
        rw [himage, Option.map_some, Store.redo, if_pos hle]
      · rfl

theorem foldl_of_has (h : ∀ record ∈ rest, Has records p held record) : rest.foldl (restoredImage records p) held = held := by
  induction rest with
  | nil => rfl
  | cons record rest ih =>
    obtain ⟨hrecord, hrest⟩ := List.forall_mem_cons.mp h
    rw [List.foldl_cons, hrecord.restoredImage_eq, ih hrest]

/-- Once a record is done its page has it, if there was a page to write. -/
theorem has_restoredImage (hpresent : ∀ mutation, writing records record = some mutation → mutation.pageId = p →
    held.isSome = true) : Has records p (restoredImage records p held record) record := by
  constructor
  · intro hallocating
    rw [restoredImage, hallocating]
    dsimp only
    rw [if_pos rfl]
    rfl
  · intro mutation hwriting hpage
    have hnone : allocating records record = none := by
      cases hallocating : allocating records record with
      | none => rfl
      | some page =>
        rw [writing, mutationOf_of_allocationOf (allocating_eq_some hallocating).2.2, Option.map_none, ite_self] at hwriting
        cases hwriting
    obtain ⟨page, himage⟩ := Option.isSome_iff_exists.mp (hpresent mutation hwriting hpage)
    refine ⟨Store.redo record.lsn mutation.afterImage page, ?_, lsn_le_redo _ _ _⟩
    rw [restoredImage, hnone, hwriting]
    dsimp only
    rw [if_pos hpage.symm, himage]
    rfl

/-! ## The file and the pool -/

/-- The pages have the records done so far, and these records lead from the file to the pool. -/
structure Caught (records done : List WalRecord) (r : Replay) : Prop where
  has : ∀ p, ∀ record ∈ done, Has records p (r.store.image p) record
  disk : ∀ p, done.foldl (restoredImage records p) (r.disk p) = r.store.image p

theorem caught_nil (hsolo : r.cache.Solo) (hclean : ∀ p, ¬ r.cache.DirtyAt p) : Caught records [] r := by
  refine ⟨nofun, fun p => ?_⟩
  change r.cache.pages.slot p = r.cache.view p
  cases hf : r.cache.pool.pageTable p with
  | none => exact (Cache.view_absent hf).symm
  | some f =>
    rw [Cache.view_resident hf]
    exact hsolo.clean p f hf (Bool.eq_false_iff.mpr fun hdirty => hclean p ⟨f, hf, hdirty⟩)

theorem Redid.image_eq (h : Redid records record r r') (p : PageId) :
    r'.store.image p = restoredImage records p (r.store.image p) record := by
  rw [h.store, restored_image]

theorem Caught.step (h : Caught records done r) (hsolo : r.cache.Solo) (hfits : Fits records record r)
    (hredid : Redid records record r r') : Caught records (done ++ [record]) r' := by
  have hpresent : ∀ p mutation, writing records record = some mutation → mutation.pageId = p →
      (r.store.image p).isSome = true := by
    rintro p mutation hwriting rfl
    obtain ⟨page, hpage, -⟩ := Replay.view_of_allocated hsolo (hfits.allocated mutation hwriting)
    exact Option.isSome_iff_exists.mpr ⟨page, hpage⟩
  have hhas : ∀ p, ∀ other ∈ done ++ [record], Has records p (r'.store.image p) other := by
    intro p other hother
    rw [hredid.image_eq]
    rcases List.mem_append.mp hother with hdone | hlast
    · exact (h.has p other hdone).later (notBefore_restoredImage records p _ record)
    · rw [List.mem_singleton.mp hlast]
      exact has_restoredImage (hpresent p)
  refine ⟨hhas, fun p => ?_⟩
  rcases hredid.disk p with hsame | hwritten | hnew
  · rw [hsame, List.foldl_append, h.disk, hredid.image_eq]
    rfl
  · rw [hwritten, List.foldl_append, foldl_of_has (h.has p), hredid.image_eq]
    rfl
  · rw [hnew, foldl_of_has (hhas p)]

/-- What a run has made of the pages and of the bits. -/
structure Applied (records done : List WalRecord) (r r' : Replay) : Prop where
  image : ∀ p, r'.store.image p = done.foldl (restoredImage records p) (r.store.image p)
  allocated : ∀ p, r'.store.allocated p =
    (r.store.allocated p || done.any fun record => decide (allocating records record = some p))
  pageCount : r.cache.pages.pageCount ≤ r'.cache.pages.pageCount

theorem applied_nil (r : Replay) : Applied records [] r r := ⟨fun _ => rfl, fun _ => (Bool.or_false _).symm, le_rfl⟩

theorem Applied.step (h : Applied records done r r₁) (hredid : Redid records record r₁ r') :
    Applied records (done ++ [record]) r r' := by
  refine ⟨fun p => ?_, fun p => ?_, h.pageCount.trans ?_⟩
  · rw [hredid.image_eq, h.image, List.foldl_append]
    rfl
  · rw [hredid.store, restored_allocated, h.allocated, List.any_append]
    by_cases hnow : allocating records record = some p <;> simp [hnow]
  · rw [hredid.pageCount]
    exact le_slotsAfter records _ record

/-! ## The second run -/

/-- What may be found after a run was stopped: every page as the file had it or as the pool had it. -/
structure Survivor (r₁ r₂ : Replay) : Prop where
  solo : r₂.cache.Solo
  wal : r₂.cache.walDurability = r₁.cache.walDurability
  pageCount : r₂.cache.pages.pageCount = r₁.cache.pages.pageCount
  allocated : ∀ p, r₂.store.allocated p = r₁.store.allocated p
  image : ∀ p, r₂.store.image p = r₁.disk p ∨ r₂.store.image p = r₁.store.image p

/-- The records that fit a store fit any store that has its slots and its allocations. -/
structure Ahead (r r₂ : Replay) : Prop where
  pageCount : r.cache.pages.pageCount ≤ r₂.cache.pages.pageCount
  allocated : ∀ p, r.store.allocated p = true → r₂.store.allocated p = true

theorem Ahead.fits (h : Ahead r r₂) (hfits : Fits records record r) : Fits records record r₂ :=
  ⟨fun page hpage => ⟨(hfits.slot page hpage).1.trans h.pageCount, (hfits.slot page hpage).2⟩,
    fun mutation hmutation => h.allocated mutation.pageId (hfits.allocated mutation hmutation)⟩

theorem Ahead.step {r₂' : Replay} (h : Ahead r r₂) (hredid : Redid records record r r') (hredid' : Redid records record r₂ r₂') :
    Ahead r' r₂' := by
  constructor
  · rw [hredid.pageCount, hredid'.pageCount, slotsAfter, slotsAfter]
    cases allocating records record with
    | none => exact h.pageCount
    | some page => exact max_le_max h.pageCount le_rfl
  · intro p
    rw [hredid.store, hredid'.store, restored_allocated, restored_allocated]
    split
    · exact fun _ => rfl
    · exact h.allocated p

theorem redoRecords_ahead (hlog : Accepted records state) (hsub : ∀ record ∈ rest, record ∈ records)
    (hsolo : r.cache.Solo) (hsolo₂ : r₂.cache.Solo) (hdurable : r.Covers records)
    (hwal : r₂.cache.walDurability = r.cache.walDurability) (hahead : Ahead r r₂)
    (hrun : (rest.forM (RedoEngine.redoRecord state)).run r = (.ok (), r')) :
    ∃ r₃, (rest.forM (RedoEngine.redoRecord state)).run r₂ = (.ok (), r₃) := by
  induction rest generalizing r r₂ with
  | nil => exact ⟨r₂, rfl⟩
  | cons record rest ih =>
    obtain ⟨hmem, hsub'⟩ := List.forall_mem_cons.mp hsub
    obtain ⟨hfits, r₁, -, hredid, hrest⟩ := redoRecords_cons hlog hmem hsolo (hdurable record hmem) hrun
    obtain ⟨r₂', hfirst, hredid'⟩ := redoRecord_redid hlog hmem hsolo₂ (hwal ▸ hdurable record hmem) (hahead.fits hfits)
    obtain ⟨r₃, hlast⟩ := ih hsub' hredid.solo hredid'.solo (fun other hother => hredid.wal ▸ hdurable other hother)
      (hredid'.wal.trans (hwal.trans hredid.wal.symm)) (hahead.step hredid hredid') hrest
    exact ⟨r₃, by rw [Op.forM_cons_ok hfirst, hlast]⟩

/-- REDO, stopped after `n` records. -/
def redoUpTo (state : RecoveryState) (n : Nat) : ReplayOp Unit := (state.records.take n).forM (RedoEngine.redoRecord state)

/-- The record is one of a committed transaction and names the page. -/
def Names (records : List WalRecord) (p : PageId) (record : WalRecord) : Prop :=
  won records record.transactionId = true ∧
    ((∃ entry, allocationOf record = some entry ∧ entry.pageId = p) ∨
      ∃ entry, mutationOf record = some entry ∧ entry.mutation.pageId = p)

theorem restoredImage_of_not_names (h : ¬ Names records p record) : restoredImage records p held record = held := by
  rw [restoredImage]
  cases hallocating : allocating records record with
  | some page =>
    obtain ⟨-, hwon, hof⟩ := allocating_eq_some hallocating
    dsimp only
    rw [if_neg]
    rintro rfl
    exact h ⟨hwon, Or.inl ⟨_, hof, rfl⟩⟩
  | none =>
    cases hwriting : writing records record with
    | none => rfl
    | some mutation =>
      obtain ⟨hwon, hof⟩ := writing_eq_some hwriting
      dsimp only
      rw [if_neg]
      rintro rfl
      exact h ⟨hwon, Or.inr ⟨_, hof, rfl⟩⟩

theorem foldl_of_not_names (h : ∀ record ∈ rest, ¬ Names records p record) :
    rest.foldl (restoredImage records p) held = held := by
  induction rest with
  | nil => rfl
  | cons record rest ih =>
    obtain ⟨hrecord, hrest⟩ := List.forall_mem_cons.mp h
    rw [List.foldl_cons, restoredImage_of_not_names hrecord, ih hrest]

theorem any_of_not_names (h : ∀ record ∈ rest, ¬ Names records p record) :
    (rest.any fun record => decide (allocating records record = some p)) = false := by
  rw [List.any_eq_false]
  intro record hmem
  simp only [decide_eq_true_eq]
  intro hallocating
  obtain ⟨-, hwon, hof⟩ := allocating_eq_some hallocating
  exact h record hmem ⟨hwon, Or.inl ⟨_, hof, rfl⟩⟩

/-- The two stores hold the same pages, with the same LSNs, and the same allocation bits. -/
def SamePages (r r' : Replay) : Prop := ∀ p, r.store.image p = r'.store.image p ∧ r.store.allocated p = r'.store.allocated p

/-- What holds after the records in `done`, for a store on which REDO began without a dirty page. -/
theorem redoRecords_caught (hlog : Accepted records state) (hpart : done <+: records) (hsolo : r.cache.Solo)
    (hclean : ∀ p, ¬ r.cache.DirtyAt p) (hdurable : r.Covers records)
    (hrun : (done.forM (RedoEngine.redoRecord state)).run r = (.ok (), r₁)) :
    r₁.cache.Solo ∧ r₁.cache.walDurability = r.cache.walDurability ∧ Caught records done r₁ ∧ Applied records done r r₁ :=
  @redoRecords_keeps records [] done state r r₁ (fun done r₁ => Caught records done r₁ ∧ Applied records done r r₁) hlog
    (fun _ _ _ _ _ _ hsolo h hfits hredid => ⟨h.1.step hsolo hfits hredid, h.2.step hredid⟩) hpart hsolo hdurable
    ⟨caught_nil hsolo hclean, applied_nil r⟩ hrun

/-- A second run ends with the pages and the bits with which the first one ends, from whatever the first one had got to. -/
theorem redo_again (hlog : Accepted records state) (hsplit : done ++ rest = records) (hsolo : r.cache.Solo)
    (hclean : ∀ p, ¬ r.cache.DirtyAt p) (hdurable : r.Covers records)
    (hdone : (done.forM (RedoEngine.redoRecord state)).run r = (.ok (), r₁))
    (hrun : (records.forM (RedoEngine.redoRecord state)).run r = (.ok (), r')) (hsurvivor : Survivor r₁ r₂) :
    ∃ r₃, (records.forM (RedoEngine.redoRecord state)).run r₂ = (.ok (), r₃) ∧ SamePages r₃ r' := by
  obtain ⟨-, hwal, hcaught, happlied⟩ := redoRecords_caught hlog ⟨rest, hsplit⟩ hsolo hclean hdurable hdone
  obtain ⟨-, -, -, hfinal⟩ := redoRecords_caught hlog List.prefix_rfl hsolo hclean hdurable hrun
  have hwal₂ : r₂.cache.walDurability = r.cache.walDurability := hsurvivor.wal.trans hwal
  have hdurable₂ : r₂.Covers records := hdurable.of_wal hwal₂
  have hahead : Ahead r r₂ := by
    refine ⟨hsurvivor.pageCount ▸ happlied.pageCount, fun p halloc => ?_⟩
    rw [hsurvivor.allocated, happlied.allocated, halloc, Bool.true_or]
  obtain ⟨r₃, hrun₃⟩ := redoRecords_ahead hlog (fun _ hmem => hmem) hsolo hsurvivor.solo hdurable hwal₂ hahead hrun
  have happlied₃ := (@redoRecords_keeps records [] records state r₂ r₃ (fun done r₃ => Applied records done r₂ r₃) hlog
    (fun _ _ _ _ _ _ _ h _ hredid => h.step hredid) List.prefix_rfl hsurvivor.solo hdurable₂ (applied_nil r₂) hrun₃).2.2
  refine ⟨r₃, hrun₃, fun p => ⟨?_, ?_⟩⟩
  · -- The records done before the stop bring every page to where the first run had it.
    have hback : done.foldl (restoredImage records p) (r₂.store.image p) = r₁.store.image p := by
      rcases hsurvivor.image p with hdisk | hpool
      · rw [hdisk, hcaught.disk]
      · rw [hpool, foldl_of_has (hcaught.has p)]
    have hfold : ∀ (f : Option Page → WalRecord → Option Page) x, records.foldl f x = rest.foldl f (done.foldl f x) := by
      intro f x
      rw [← hsplit, List.foldl_append]
    calc r₃.store.image p
        = records.foldl (restoredImage records p) (r₂.store.image p) := happlied₃.image p
      _ = rest.foldl (restoredImage records p) (done.foldl (restoredImage records p) (r₂.store.image p)) := hfold _ _
      _ = rest.foldl (restoredImage records p) (done.foldl (restoredImage records p) (r.store.image p)) := by
          rw [hback, happlied.image]
      _ = records.foldl (restoredImage records p) (r.store.image p) := (hfold _ _).symm
      _ = r'.store.image p := (hfinal.image p).symm
  · have hany : (done.any fun record => decide (allocating records record = some p)) = true →
        (records.any fun record => decide (allocating records record = some p)) = true := by
      intro h
      obtain ⟨record, hmem, hrecord⟩ := List.any_eq_true.mp h
      exact List.any_eq_true.mpr ⟨record, hsplit ▸ List.mem_append_left _ hmem, hrecord⟩
    rw [happlied₃.allocated, hsurvivor.allocated, happlied.allocated, hfinal.allocated, Bool.or_assoc]
    congr 1
    exact Bool.or_eq_right_iff_imp.mpr hany

theorem survivor_self (hsolo : r.cache.Solo) (reconstructed : List PageId) :
    Survivor r { r with reconstructedPages := reconstructed } :=
  ⟨hsolo, rfl, rfl, fun _ => rfl, fun _ => Or.inr rfl⟩

/-- A crash after these pages had been flushed: the pool is gone, and the file is opened again. -/
def reopened (written : List PageId) (capacity : Nat) (r : Replay) : Except Err Replay := do
  let flushed := ((written.forM fun p => do let _ ← Cache.flushPage p).run r.cache).2
  let pages ← PageManager.openFile flushed.pages.file
  return ⟨⟨pages, .create capacity, r.cache.walDurability, []⟩, []⟩

theorem survivor_reopened (hsolo : r.cache.Solo) (written : List PageId) {capacity : Nat} (hcapacity : 0 < capacity) :
    ∃ r₂, reopened written capacity r = .ok r₂ ∧ Survivor r r₂ := by
  obtain ⟨flushed, hflushed⟩ : ∃ c, c = ((written.forM fun p => do let _ ← Cache.flushPage p).run r.cache).2 := ⟨_, rfl⟩
  have hcalm : Cache.Calm r.cache flushed := by
    rw [hflushed]
    refine Op.within_forM Cache.Calm.refl Cache.Calm.trans written (fun p _ => ?_) r.cache
    exact Op.Within.bind Cache.Calm.trans (Cache.calm_flushPage p) fun _ => Op.within_pure Cache.Calm.refl _
  obtain ⟨hinv, hquiet⟩ := hcalm hsolo.inv
  have hsynced := hquiet.synced hsolo.synced
  refine ⟨⟨⟨flushed.pages, .create capacity, r.cache.walDurability, []⟩, []⟩, ?_, ?_⟩
  · rw [reopened, ← hflushed, PageManager.openFile_synced hinv.pages hsynced]
    rfl
  · refine ⟨⟨⟨hinv.pages, BufferPool.inv_create capacity, nofun⟩, hsynced, fun _ => rfl, fun _ _ => nofun, fun _ => rfl,
      hcapacity, ?_⟩, rfl, hquiet.pageCount, hquiet.allocated, fun p => ?_⟩
    · rintro p page ⟨f, hf, -⟩
      cases hf
    · rcases hquiet.disk p (hsolo.clean p) with hsame | ⟨page, hview, hslot, -⟩
      · exact Or.inl hsame
      · exact Or.inr (hslot.trans hview.symm)

/-- No PageLSN goes back, in the pool or in the file, from one stop to a later one. -/
theorem redoRecords_notBefore (hlog : Accepted records state) (hpart : done ++ rest <+: records) (hsolo : r.cache.Solo)
    (hdurable : r.Covers records) (hcaught : Caught records done r)
    (hrun : (rest.forM (RedoEngine.redoRecord state)).run r = (.ok (), r')) (p : PageId) :
    NotBefore (r.store.image p) (r'.store.image p) ∧ NotBefore (r.disk p) (r'.disk p) := by
  refine (@redoRecords_keeps records done rest state r r' (fun done r' => Caught records done r' ∧
    NotBefore (r.store.image p) (r'.store.image p) ∧ NotBefore (r.disk p) (r'.disk p)) hlog ?_ hpart hsolo hdurable
    ⟨hcaught, .refl _, .refl _⟩ hrun).2.2.2
  rintro done record rest r₁ r₂ - hsolo ⟨hcaught, himage, hdisk⟩ hfits hredid
  have hstep : NotBefore (r₁.store.image p) (r₂.store.image p) := by
    rw [hredid.image_eq]
    exact notBefore_restoredImage records p _ record
  have hpool : NotBefore (r₁.disk p) (r₁.store.image p) := by
    rw [← hcaught.disk p]
    exact notBefore_foldl records p _ done
  refine ⟨hcaught.step hsolo hfits hredid, himage.trans hstep, ?_⟩
  rcases hredid.disk p with hsame | hwritten | hnew
  · rw [hsame]
    exact hdisk
  · rw [hwritten]
    exact hdisk.trans hpool
  · rw [hnew]
    exact (hdisk.trans hpool).trans hstep

/-- REDO can be stopped and run again. -/
theorem redo_restartable {file : Bytes} (hread : LogManager.readRecords file = .ok records)
    (hanalyze : RecoveryAnalyzer.analyze records = .ok state) (hsolo : r.cache.Solo) (hclean : ∀ p, ¬ r.cache.DirtyAt p)
    (hdurable : ∀ record ∈ records, Cache.LsnDurable r.cache.walDurability record.lsn)
    (hrun : (RedoEngine.run state).run r = (.ok (), r')) :
    (∀ n, ∃ r₁, (redoUpTo state n).run r = (.ok (), r₁) ∧ ∀ r₂, Survivor r₁ r₂ →
      ∃ r₃, (RedoEngine.run state).run r₂ = (.ok (), r₃) ∧ SamePages r₃ r') ∧
    (∃ r₃, (RedoEngine.run state).run { r' with reconstructedPages := [] } = (.ok (), r₃) ∧ SamePages r₃ r') ∧
    (∀ m n r₁ r₂, m ≤ n → (redoUpTo state m).run r = (.ok (), r₁) → (redoUpTo state n).run r = (.ok (), r₂) →
      ∀ p, NotBefore (r₁.store.image p) (r₂.store.image p) ∧ NotBefore (r₁.disk p) (r₂.disk p)) ∧
    ∀ p, (∀ record ∈ records, ¬ Names records p record) →
      r'.store.image p = r.store.image p ∧ r'.store.allocated p = r.store.allocated p := by
  have hlog := accepted_of_analyze hread hanalyze
  have hrecords := hlog.analyzed.records
  rw [RedoEngine.run, hrecords] at hrun ⊢
  have hwhole := redoRecords_caught hlog List.prefix_rfl hsolo hclean hdurable hrun
  refine ⟨fun n => ?_, ?_, fun m n r₁ r₂ hmn hm hn p => ?_, fun p hnot => ⟨?_, ?_⟩⟩
  · have hsplit := hrun
    rw [← List.take_append_drop n records] at hsplit
    obtain ⟨r₁, hdone, -⟩ := Op.of_forM_append hsplit
    refine ⟨r₁, by rw [redoUpTo, hrecords]; exact hdone, fun r₂ hsurvivor => ?_⟩
    exact redo_again hlog (List.take_append_drop n records) hsolo hclean hdurable hdone hrun hsurvivor
  · exact redo_again hlog (List.append_nil records) hsolo hclean hdurable hrun hrun (survivor_self hwhole.1 [])
  · rw [redoUpTo, hrecords] at hm hn
    have hsplit : records.take n = records.take m ++ (records.take n).drop m := by
      conv_lhs => rw [← List.take_append_drop m (records.take n), List.take_take, Nat.min_eq_left hmn]
    rw [hsplit] at hn
    obtain ⟨r₁', hfirst, hlater⟩ := Op.of_forM_append hn
    obtain ⟨-, rfl⟩ := Prod.mk.inj (hm.symm.trans hfirst)
    obtain ⟨hsolo₁, hwal, hcaught, -⟩ := redoRecords_caught hlog (List.take_prefix m records) hsolo hclean hdurable hm
    exact redoRecords_notBefore hlog (hsplit ▸ List.take_prefix n records) hsolo₁ (Replay.Covers.of_wal hdurable hwal) hcaught hlater p
  · rw [hwhole.2.2.2.image, foldl_of_not_names hnot]
  · rw [hwhole.2.2.2.allocated, any_of_not_names hnot, Bool.or_false]

/-- A committed transaction that has allocated a page and written it. -/
def oneWrite : List WalRecord :=
  [⟨1, 1, .begin, []⟩, ⟨2, 1, .pageAllocate, leBytes 8 0⟩,
    ⟨3, 1, .physicalMutation,
      (LogManager.encodePhysicalMutation ⟨.ofIndex 0, .payloadWrite, 0, .zero, .filled 7, 0⟩).toOption.getD []⟩,
    ⟨4, 1, .commit, []⟩]

theorem read_oneWrite : LogManager.readRecords (LogManager.fileOf oneWrite) = .ok oneWrite := by
  have hencodable : ∀ record ∈ oneWrite, 0 < record.lsn ∧ record.lsn < 2 ^ 64 ∧ record.transactionId < 2 ^ 64 ∧
      record.payload.length ≤ LogManager.kMaxRecordSize - LogManager.kMinimumRecordSize := by
    decide +kernel
  have hincreasing : oneWrite.Pairwise fun a b => a.lsn < b.lsn := by
    decide +kernel
  refine LogManager.readRecords_fileOf (fun record hmem => ?_) hincreasing
  obtain ⟨hpos, hlsn, howner, hpayload⟩ := hencodable record hmem
  exact ⟨hpos, hlsn, howner, hpayload⟩

/-- On an empty file: REDO is stopped behind the write, which is lost with the pool, and run again on the file. -/
theorem redo_restarts_oneWrite : ∃ state r' r₁ r₂ r₃, RecoveryAnalyzer.analyze oneWrite = .ok state ∧
    (RedoEngine.run state).run (fresh .empty 1 4) = (.ok (), r') ∧
    (redoUpTo state 3).run (fresh .empty 1 4) = (.ok (), r₁) ∧ reopened [] 1 r₁ = .ok r₂ ∧
    (RedoEngine.run state).run r₂ = (.ok (), r₃) ∧ SamePages r₃ r' := by
  have hworks : ((RecoveryAnalyzer.analyze oneWrite).map
      fun state => ((RedoEngine.run state).run (fresh .empty 1 4)).1.isOk).toOption = some true := by
    decide +kernel
  have hcovers : ∀ record ∈ oneWrite, record.lsn ≤ 4 := by
    decide +kernel
  cases hanalyze : RecoveryAnalyzer.analyze oneWrite with
  | error e =>
    rw [hanalyze] at hworks
    cases hworks
  | ok state =>
    rw [hanalyze] at hworks
    obtain ⟨outcome, r', hrun⟩ : ∃ outcome r', (RedoEngine.run state).run (fresh .empty 1 4) = (outcome, r') := ⟨_, _, rfl⟩
    have hok : outcome.isOk = true := by
      have hsome : ((RedoEngine.run state).run (fresh .empty 1 4)).1.isOk = true := Option.some.inj hworks
      rwa [hrun] at hsome
    obtain rfl : outcome = .ok () := by
      cases outcome with
      | error e => cases hok
      | ok _ => rfl
    have hsolo := @solo_fresh _ PageManager.wellFormed_empty PageManager.synced_empty 1 4 Nat.one_pos
    have hdurable : ∀ record ∈ oneWrite, Cache.LsnDurable (fresh .empty 1 4).cache.walDurability record.lsn :=
      fun record hmem => Or.inr ⟨4, rfl, hcovers record hmem⟩
    have hclean : ∀ p, ¬ (fresh .empty 1 4).cache.DirtyAt p := by
      rintro p ⟨f, hf, -⟩
      cases hf
    obtain ⟨r₁, hstopped, hagain⟩ := (redo_restartable read_oneWrite hanalyze hsolo hclean hdurable hrun).1 3
    have hlog := accepted_of_analyze read_oneWrite hanalyze
    have hpart : (oneWrite.take 3).forM (RedoEngine.redoRecord state) = redoUpTo state 3 := by
      rw [redoUpTo, hlog.analyzed.records]
    have hsolo₁ := (redoRecords_caught hlog (List.take_prefix 3 oneWrite) hsolo hclean hdurable
      (by rw [hpart]; exact hstopped)).1
    obtain ⟨r₂, hreopened, hsurvivor⟩ := survivor_reopened hsolo₁ [] Nat.one_pos
    obtain ⟨r₃, hrerun, hsame⟩ := hagain r₂ hsurvivor
    exact ⟨state, r', r₁, r₂, r₃, rfl, hrun, hstopped, hreopened, hrerun, hsame⟩

end Ddb.Recovery
