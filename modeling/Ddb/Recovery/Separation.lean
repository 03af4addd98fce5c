import Ddb.Lib.Images
import Ddb.Recovery.Undo

/-!
# Winners and losers on one page

The images in the log are of whole pages, so a committed after-image carries the bytes that losers had written before it. UNDO
takes the bytes a committed mutation changed, and only these. What it leaves of a byte is what the last committed change of
the byte left. Where each mutation was made on the image the one before it had left, this is the byte of the final image
unless a loser changed it last.

The pool need not be UNDO's alone for this: whenever UNDO returns, it has rebuilt the pages that losers touched and left the
others as they were. On a pool of its own it returns.
-/

namespace Ddb.Recovery

open Ddb.Lib Ddb.Storage Ddb.Buffer Std

/-! ## What the operations leave when they return -/

namespace Replay

variable {r r' : Replay} {id : PageId}

/-- The pool is in order, and its clean frames agree with the file. -/
structure Coherent (r : Replay) : Prop where
  inv : r.cache.Inv none
  clean : ∀ p, r.cache.Clean p

/-- If the operation returns, it has changed the store like this. -/
def Turns {α : Type} (x : ReplayOp α) (f : Store → Store) : Prop :=
  ∀ r a r', r.Coherent → x.run r = (.ok a, r') → r'.Coherent ∧ r'.store = f r.store

theorem of_onCache_ok {α : Type} {x : CacheOp α} {a : α} (h : (ReplayContext.onCache x).run r = (.ok a, r')) :
    ∃ c, x.run r.cache = (.ok a, c) ∧ r' = { r with cache := c } := by
  obtain ⟨houtcome, rfl⟩ := Prod.mk.inj h
  exact ⟨_, Prod.ext houtcome rfl, rfl⟩

theorem of_onPages_ok {α : Type} {x : PageOp α} {a : α} (h : (ReplayContext.onPages x).run r = (.ok a, r')) :
    ∃ pages, x.run r.cache.pages = (.ok a, pages) ∧ r' = { r with cache := { r.cache with pages := pages } } := by
  obtain ⟨c, hrun, rfl⟩ := of_onCache_ok h
  obtain ⟨houtcome, rfl⟩ := Prod.mk.inj hrun
  exact ⟨_, Prod.ext houtcome rfl, rfl⟩

theorem coherent_of_quiet {c : Cache} (h : r.Coherent) (hinv : c.Inv none) (hquiet : Cache.Quiet r.cache c) :
    Coherent { r with cache := c } ∧ store { r with cache := c } = r.store :=
  ⟨⟨hinv, fun p => hquiet.clean p (h.clean p)⟩, Store.ext (fun p => hquiet.view p (h.clean p)) hquiet.allocated rfl⟩

theorem turns_reconstructPage (id : PageId) (payload : Payload) (lsn : Nat) :
    Turns (ReplayContext.reconstructPage id payload lsn) (Store.rebuild id payload lsn) := by
  intro r a r' h hrun
  rw [ReplayContext.reconstructPage] at hrun
  replace hrun := (Op.of_throwIf_bind_ok hrun).2
  rw [Op.get_bind] at hrun
  by_cases honce : id ∈ r.reconstructedPages
  · rw [if_pos honce] at hrun
    obtain ⟨-, rfl⟩ := Prod.mk.inj hrun
    exact ⟨h, (if_pos honce).symm⟩
  rw [if_neg honce] at hrun
  obtain ⟨found, r₁, hfetched, hrest⟩ := Op.of_bind_ok hrun
  obtain ⟨c, hfetch, rfl⟩ := of_onCache_ok hfetched
  cases found with
  | none => cases (Prod.mk.inj hrest).1
  | some f =>
    obtain ⟨outcome, c', hcases, hinv, hquiet, hfound⟩ := Cache.fetchPage_cases h.inv id
    rw [hfetch] at hcases
    obtain ⟨rfl, rfl⟩ := Prod.mk.inj hcases
    obtain ⟨-, hf, hpin⟩ := hfound f rfl
    have hid := (hinv.pool.table_frame id f hf).2
    obtain ⟨hunpin, hinv', hwrote⟩ := @Cache.unpin_written c f id ⟨id, lsn, payload⟩ hinv hf hpin rfl
    have hrewrote := hquiet.then_wrote hwrote
    have hwrite : (ReplayContext.onCache (Cache.writeThrough f payload lsn)).run { r with cache := c } =
        (.ok (), { r with cache := c.written f ⟨id, lsn, payload⟩ }) := onCache_run (Cache.writeThrough_run hid payload lsn)
    have hgiven : (ReplayContext.onCache (Cache.unpinPage id true)).run { r with cache := c.written f ⟨id, lsn, payload⟩ } =
        (.ok true, { r with cache := (c.written f ⟨id, lsn, payload⟩).unpinned f true }) := onCache_run hunpin
    dsimp only at hrest
    rw [Op.bind_ok hwrite, Op.bind_ok hgiven, Op.throwIf_bind_neg (by simp), Op.modify_bind] at hrest
    obtain ⟨-, rfl⟩ := Prod.mk.inj hrest
    refine ⟨⟨hinv', fun p => ?_⟩, Eq.trans ?_ (if_neg honce).symm⟩
    · by_cases heq : p = id
      · exact heq ▸ hrewrote.clean_self
      · exact hrewrote.clean p heq (h.clean p)
    · refine Store.ext (fun p => ?_) hrewrote.allocated rfl
      change Cache.view _ p = if p = id then some ⟨id, lsn, payload⟩ else r.cache.view p
      by_cases heq : p = id
      · rw [if_pos heq, heq]
        exact hrewrote.self
      · rw [if_neg heq]
        exact hrewrote.view p heq (h.clean p)

theorem turns_undoPageAllocate (id : PageId) : Turns (ReplayContext.undoPageAllocate id) (Store.mark id false) := by
  intro r a r' h hrun
  rw [ReplayContext.undoPageAllocate] at hrun
  replace hrun := (Op.of_throwIf_bind_ok hrun).2
  rw [Op.get_bind] at hrun
  by_cases hskip : id.index ≥ r.cache.pages.pageCount ∨ r.cache.pages.isPageAllocated id = false
  · rw [if_pos hskip] at hrun
    obtain ⟨-, rfl⟩ := Prod.mk.inj hrun
    exact ⟨h, (mark_of_skipped hskip).symm⟩
  rw [if_neg hskip] at hrun
  obtain ⟨deleted, r₁, hdeleted, hrest⟩ := Op.of_bind_ok hrun
  obtain ⟨c, hdelete, rfl⟩ := of_onCache_ok hdeleted
  obtain ⟨hinv, hquiet⟩ := Cache.calm_deletePage id r.cache h.inv
  rw [hdelete] at hinv hquiet
  obtain ⟨hcoherent, hstore⟩ := coherent_of_quiet h hinv hquiet
  obtain ⟨_, r₂, hreleased, hend⟩ := Op.of_bind_ok (Op.of_throwIf_bind_ok hrest).2
  obtain ⟨-, rfl⟩ := Prod.mk.inj hend
  obtain ⟨pages, hrelease, rfl⟩ := of_onPages_ok hreleased
  rcases @PageManager.deallocatePage_cases c.pages id hinv.pages with ⟨e, hfail, -⟩ | ⟨outcome, pages', hok, -, hbit, -⟩
  · rw [hrelease] at hfail
    cases (Prod.mk.inj hfail).1
  · rw [hrelease] at hok
    obtain ⟨-, rfl⟩ := Prod.mk.inj hok
    have hview : ∀ p, Cache.view { c with pages := pages } p = c.view p := by
      intro p
      rw [Cache.view, Cache.view]
      simp only [hbit.slot]
    refine ⟨⟨⟨hbit.wellFormed, hinv.pool, fun p f hf => ?_⟩, fun p f hf hclean => ?_⟩, ?_⟩
    · exact Nat.lt_of_lt_of_eq (hinv.resident p f hf) hbit.pageCount.symm
    · change pages.slot p = _
      rw [hbit.slot]
      exact hcoherent.clean p f hf hclean
    · rw [← hstore]
      exact Store.ext hview hbit.bit rfl

/-- A loop turns the store once for each of its items. -/
theorem turns_forM {β : Type} {body : β → ReplayOp Unit} {f : β → Store → Store} {items : List β}
    (h : ∀ b ∈ items, Turns (body b) (f b)) : Turns (items.forM body) fun store => items.foldl (fun store b => f b store) store := by
  induction items with
  | nil =>
    intro r a r' hcoherent hrun
    obtain ⟨-, rfl⟩ := Prod.mk.inj hrun
    exact ⟨hcoherent, rfl⟩
  | cons b rest ih =>
    obtain ⟨hb, hrest⟩ := List.forall_mem_cons.mp h
    intro r a r' hcoherent hrun
    obtain ⟨_, r₁, hfirst, hlater⟩ := Op.of_bind_ok hrun
    obtain ⟨hcoherent₁, hstore₁⟩ := hb r _ r₁ hcoherent hfirst
    obtain ⟨hcoherent', hstore'⟩ := ih hrest r₁ _ r' hcoherent₁ hlater
    refine ⟨hcoherent', ?_⟩
    rw [hstore', hstore₁]
    rfl

end Replay

/-! ## What UNDO leaves when it returns -/

variable {records : List WalRecord} {state : RecoveryState} {p : PageId}

theorem turns_undoPage (hstate : Analyzed records state) (hascending : records.Pairwise fun a b => a.lsn < b.lsn)
    (hne : historyOn records p ≠ []) :
    Replay.Turns (UndoEngine.undoPage state p.index) fun store => rebuildOn records store p.index := by
  intro r a r' hcoherent hrun
  rw [undoPage_eq hstate hascending hne] at hrun
  obtain ⟨_, r₁, hrebuild, hend⟩ := Op.of_bind_ok hrun
  obtain ⟨-, rfl⟩ := Prod.mk.inj hend
  simpa only [rebuildOn, PageId.ofIndex_index] using Replay.turns_reconstructPage p _ _ r _ r₁ hcoherent hrebuild

theorem turns_undoAllocation (allocation : AllocationRecord) :
    Replay.Turns (UndoEngine.undoAllocation allocation) (Store.mark allocation.pageId false) := by
  intro r a r' hcoherent hrun
  obtain ⟨_, r₁, hrelease, hend⟩ := Op.of_bind_ok hrun
  obtain ⟨-, rfl⟩ := Prod.mk.inj hend
  exact Replay.turns_undoPageAllocate allocation.pageId r _ r₁ hcoherent hrelease

theorem turns_run (hstate : Analyzed records state) (hascending : records.Pairwise fun a b => a.lsn < b.lsn)
    {values : List Nat} {released : List AllocationRecord} (hvisits : Visits records state values released) :
    Replay.Turns (UndoEngine.run state) (undone records values released) := by
  have hpages : ∀ value ∈ values, Replay.Turns (UndoEngine.undoPage state value) fun store => rebuildOn records store value := by
    intro value hvalue
    obtain ⟨p, rfl, haffected⟩ := hvisits.page value hvalue
    exact turns_undoPage hstate hascending (historyOn_ne_nil_of_affected haffected)
  intro r a r' hcoherent hrun
  rw [hvisits.run_eq] at hrun
  obtain ⟨_, r₁, hundo, hrelease⟩ := Op.of_bind_ok hrun
  obtain ⟨hcoherent₁, hstore₁⟩ := Replay.turns_forM hpages r _ r₁ hcoherent hundo
  obtain ⟨hcoherent', hstore'⟩ := Replay.turns_forM (fun allocation _ => turns_undoAllocation allocation) r₁ _ r' hcoherent₁ hrelease
  refine ⟨hcoherent', ?_⟩
  rw [hstore', hstore₁]
  rfl

/-! ## The bytes of the survivor -/

/-- Byte `i` of the image before a mutation, and after it. -/
def byteBefore (i : Nat) (entry : MutationRecord) : Option UInt8 := entry.mutation.beforeImage.bytes[i]?

def byteAfter (i : Nat) (entry : MutationRecord) : Option UInt8 := entry.mutation.afterImage.bytes[i]?

/-- Each mutation of the page was made on the image the one before it had left. -/
def Linked (history : List MutationRecord) : Prop :=
  history.IsChain fun earlier later => later.mutation.beforeImage = earlier.mutation.afterImage

/-- Byte `i` of a page, with the losers taken back: the byte of the final image if the last mutation that changed it is
committed or none did; otherwise what the latest committed mutation that changed it left, or, if there is none, the byte of
the first image. -/
def separatedByte (records : List WalRecord) (p : PageId) (i : Nat) : Option UInt8 :=
  let history := historyOn records p
  let changes := changing (byteBefore i) (byteAfter i) history
  if changes.getLast?.all fun entry => won records entry.transactionId then history.getLast?.bind (byteAfter i)
  else
    match (changes.filter fun entry => won records entry.transactionId).getLast? with
    | some entry => byteAfter i entry
    | none => history.head?.bind (byteBefore i)

/-- The last committed LSN on the page, or zero. -/
def separatedLsn (records : List WalRecord) (p : PageId) : Nat := ((winnersOn records p).getLast?.map MutationRecord.lsn).getD 0

theorem applyDelta_byte (before after image : Payload) (i : Nat) :
    (UndoEngine.applyDelta before after image).bytes[i]? =
      if before.bytes[i]? ≠ after.bytes[i]? then after.bytes[i]? else image.bytes[i]? := by
  have hsizes : before.bytes.length = after.bytes.length ∧ image.bytes.length = after.bytes.length :=
    ⟨before.size_eq.trans after.size_eq.symm, image.size_eq.trans after.size_eq.symm⟩
  by_cases hi : i < after.bytes.length
  · have hbefore : i < before.bytes.length := by omega
    have himage : i < image.bytes.length := by omega
    rw [UndoEngine.applyDelta, List.getElem?_zipWith, List.getElem?_eq_getElem himage, List.getElem?_eq_getElem hi,
      List.getElem?_eq_getElem hbefore, List.getElem?_eq_getElem (by rw [List.length_zip]; omega), List.getElem_zip]
    simp only [ne_eq, Option.some.injEq]
    split
    · rfl
    · rfl
  · have hout : (UndoEngine.applyDelta before after image).bytes.length ≤ i := by
      rw [Payload.size_eq, ← after.size_eq]
      omega
    rw [List.getElem?_eq_none hout, List.getElem?_eq_none (by omega), List.getElem?_eq_none (by omega),
      List.getElem?_eq_none (by omega), if_neg (not_not_intro rfl)]

/-- The survivor of a list of committed mutations, and one byte of it. -/
theorem foldl_survivor (entries : List MutationRecord) (image : Payload) (lsn : Nat) (i : Nat) :
    (entries.foldl (fun survivor entry =>
      (UndoEngine.applyDelta entry.mutation.beforeImage entry.mutation.afterImage survivor.1, entry.lsn)) (image, lsn)).2 =
        (entries.getLast?.map MutationRecord.lsn).getD lsn ∧
    (entries.foldl (fun survivor entry =>
      (UndoEngine.applyDelta entry.mutation.beforeImage entry.mutation.afterImage survivor.1, entry.lsn)) (image, lsn)).1.bytes[i]? =
        entries.foldl (patched (byteBefore i) (byteAfter i)) image.bytes[i]? := by
  induction entries using List.reverseRecOn with
  | nil => exact ⟨rfl, rfl⟩
  | append_singleton rest entry ih =>
    rw [List.foldl_append, List.foldl_append, ← ih.2]
    exact ⟨by simp, applyDelta_byte ..⟩

theorem survivor_lsn (records : List WalRecord) (p : PageId) : (survivor records p).2 = separatedLsn records p :=
  (foldl_survivor (winnersOn records p) _ 0 0).1

/-- What UNDO leaves of a byte. -/
theorem survivor_byte (h : Linked (historyOn records p)) (hne : historyOn records p ≠ []) (i : Nat) :
    (survivor records p).1.bytes[i]? = separatedByte records p i := by
  rw [survivor, (foldl_survivor _ _ 0 i).2, foldl_patched, separatedByte, winnersOn]
  have hcontinued : Continued (byteBefore i) (byteAfter i) (historyOn records p) :=
    h.imp fun earlier later heq => congrArg (fun image : Payload => image.bytes[i]?) heq
  cases hhistory : historyOn records p with
  | nil => exact absurd hhistory hne
  | cons first rest =>
    rw [hhistory] at hcontinued
    have hfinal := Continued.last _ _ hcontinued
    simp only [List.head?_cons, Option.map_some, Option.getD_some, Option.bind_some,
      List.getLast?_eq_some_getLast (List.cons_ne_nil first rest)]
    cases hlast : (changing (byteBefore i) (byteAfter i) (first :: rest)).getLast? with
    | none =>
      -- Nobody changed the byte.
      rw [hlast] at hfinal
      rw [changing_filter, List.getLast?_eq_none_iff.mp hlast, Option.all_none, if_pos rfl, hfinal]
      rfl
    | some entry =>
      rw [hlast, Option.map_some, Option.getD_some] at hfinal
      rw [Option.all_some]
      by_cases hwon : won records entry.transactionId = true
      · rw [if_pos hwon, getLast?_changing_filter _ _ hlast hwon, hfinal]
        rfl
      · rw [if_neg hwon, changing_filter]
        cases ((changing (byteBefore i) (byteAfter i) (first :: rest)).filter fun entry =>
          won records entry.transactionId).getLast? with
        | none => rfl
        | some _ => rfl

/-! ## The pages after UNDO -/

/-- UNDO on any pool, with a fresh context. When it returns, each page a loser touched has the bytes and the LSN that the
committed mutations give it, and each other page is as it was. It does return on a pool of its own with the pages allocated
and the log durable. -/
theorem undo_separates (records : List WalRecord) (hascending : records.Pairwise fun a b => a.lsn < b.lsn)
    (state : RecoveryState) (hanalyze : RecoveryAnalyzer.analyze records = .ok state) (r : Replay) (hcoherent : r.Coherent)
    (hfresh : r.reconstructedPages = []) :
    (r.cache.Solo → (∀ record ∈ records, Cache.LsnDurable r.cache.walDurability record.lsn) →
      (∀ entry ∈ mutationsIn records, r.cache.pages.isPageAllocated entry.mutation.pageId = true) →
      ∃ r', (UndoEngine.run state).run r = (.ok (), r')) ∧
    ∀ r', (UndoEngine.run state).run r = (.ok (), r') →
      (∀ p, affected records p = true → Linked (historyOn records p) → ∃ page, r'.cache.view p = some page ∧
        page.lsn = separatedLsn records p ∧ ∀ i, page.payload.bytes[i]? = separatedByte records p i) ∧
      ∀ p, affected records p = false → r'.cache.view p = r.cache.view p := by
  obtain ⟨hstate, -⟩ := analyze_ok hanalyze
  constructor
  · intro hsolo hdurable hallocated
    obtain ⟨r', -, hrun, -⟩ := undoEngine_run hstate hascending hsolo hdurable (fun entry hentry _ => hallocated entry hentry) hfresh
    exact ⟨r', hrun⟩
  · intro r' hrun
    obtain ⟨values, released, hvisits⟩ := exists_visits hstate
    obtain ⟨-, hstore⟩ := turns_run hstate hascending hvisits r _ r' hcoherent hrun
    have himage : ∀ p, r'.cache.view p = if affected records p then
        some ⟨p, (survivor records p).2, (survivor records p).1⟩ else r.cache.view p := by
      intro p
      change r'.store.image p = _
      rw [hstore, hvisits.image hfresh]
      rfl
    constructor
    · intro p haffected hlinked
      refine ⟨⟨p, (survivor records p).2, (survivor records p).1⟩, ?_, survivor_lsn records p, fun i => ?_⟩
      · rw [himage p, if_pos haffected]
      · exact survivor_byte hlinked (historyOn_ne_nil_of_affected haffected) i
    · intro p hfree
      rw [himage p, if_neg (by simp [hfree])]

/-- The log record of a write of page 0. -/
def writeRecord (lsn transactionId : Nat) (before after : Payload) : WalRecord :=
  ⟨lsn, transactionId, .physicalMutation,
    (LogManager.encodePhysicalMutation ⟨.ofIndex 0, .payloadWrite, 0, before, after, 0⟩).toOption.getD []⟩

/-- Transaction 1 writes page 0, transaction 2 writes it on top, and only transaction 1 is committed. -/
def overlappingLog : List WalRecord :=
  [⟨1, 1, .begin, []⟩, writeRecord 2 1 .zero (.filled 1), ⟨3, 2, .begin, []⟩, writeRecord 4 2 (.filled 1) (.filled 2),
    ⟨5, 1, .commit, []⟩]

theorem decode_writeRecord (lsn transactionId : Nat) (before after : Payload) :
    LogManager.decodePhysicalMutation (writeRecord lsn transactionId before after).payload =
      .ok ⟨.ofIndex 0, .payloadWrite, 0, before, after, 0⟩ := by
  have hvalid : (PageId.ofIndex 0).isValid = true := by decide
  have hencode := @LogManager.encodePhysicalMutation_ok ⟨.ofIndex 0, .payloadWrite, 0, before, after, 0⟩ hvalid
  rw [writeRecord, hencode]
  exact (LogManager.decodePhysicalMutation_encode hencode).1

theorem mutationsIn_overlappingLog : mutationsIn overlappingLog =
    [⟨2, 1, ⟨.ofIndex 0, .payloadWrite, 0, .zero, .filled 1, 0⟩⟩, ⟨4, 2, ⟨.ofIndex 0, .payloadWrite, 0, .filled 1, .filled 2, 0⟩⟩] := by
  have hrecord : ∀ lsn transactionId before after, mutationOf (writeRecord lsn transactionId before after) =
      some ⟨lsn, transactionId, ⟨.ofIndex 0, .payloadWrite, 0, before, after, 0⟩⟩ := by
    intro lsn transactionId before after
    unfold mutationOf
    rw [decode_writeRecord]
    rfl
  simp only [mutationsIn, overlappingLog, List.filterMap_cons, hrecord]
  rfl

theorem overlappingLog_separated : ∃ state r r', RecoveryAnalyzer.analyze overlappingLog = .ok state ∧
    (UndoEngine.run state).run r = (.ok (), r') ∧ ∃ page, r'.cache.view (.ofIndex 0) = some page ∧ page.lsn = 2 ∧
      ∀ i, page.payload.bytes[i]? = separatedByte overlappingLog (.ofIndex 0) i := by
  have hwrites : ∀ lsn transactionId before after, Decodable (writeRecord lsn transactionId before after) :=
    fun lsn transactionId before after => ⟨_, decode_writeRecord lsn transactionId before after⟩
  have hdecodable : ∀ record ∈ overlappingLog, Decodable record := by
    simp only [overlappingLog, List.forall_mem_cons, List.not_mem_nil, false_implies, implies_true, and_true]
    exact ⟨rfl, hwrites .., rfl, hwrites .., rfl⟩
  have hends : ∀ id, ¬ (has .commit overlappingLog id = true ∧ has .abort overlappingLog id = true) := by
    intro id hboth
    simp [has, overlappingLog, writeRecord] at hboth
  have hwon : won overlappingLog 1 = true ∧ won overlappingLog 2 = false := by
    simp [won, has, overlappingLog, writeRecord]
  obtain ⟨state, hanalyze⟩ := analyze_succeeds hdecodable hends
  obtain ⟨outcome, pages, hallocate, hgrown, hok, hworks⟩ := PageManager.allocatePage_cases PageManager.wellFormed_empty
  obtain ⟨id, rfl⟩ := hworks (by decide) PageManager.synced_empty
  obtain ⟨rfl, hbit, -, -⟩ := hok id rfl
  replace hbit : (fresh pages 1 5).cache.pages.isPageAllocated (.ofIndex 0) = true := hbit
  have hsolo : (fresh pages 1 5).cache.Solo := solo_fresh hgrown.wellFormed (hgrown.synced PageManager.synced_empty) (by decide)
  have hascending : overlappingLog.Pairwise fun a b => a.lsn < b.lsn := by simp [overlappingLog, writeRecord]
  have hdurable : ∀ record ∈ overlappingLog, record.lsn ≤ 5 := by simp [overlappingLog, writeRecord]
  have hhistory : historyOn overlappingLog (.ofIndex 0) = mutationsIn overlappingLog := by
    rw [historyOn, mutationsIn_overlappingLog]
    rfl
  obtain ⟨hreturns, hseparates⟩ := undo_separates overlappingLog hascending state hanalyze (fresh pages 1 5)
    ⟨hsolo.inv, hsolo.clean⟩ rfl
  obtain ⟨r', hrun⟩ := hreturns hsolo (fun record hrecord => Or.inr ⟨5, rfl, hdurable record hrecord⟩) (by
    rw [mutationsIn_overlappingLog]
    simpa using hbit)
  obtain ⟨page, hview, hlsn, hbytes⟩ := (hseparates r' hrun).1 (.ofIndex 0)
    (by simp [affected, hhistory, mutationsIn_overlappingLog, hwon]) (by simp [Linked, hhistory, mutationsIn_overlappingLog])
  refine ⟨state, _, r', hanalyze, hrun, page, hview, hlsn.trans ?_, hbytes⟩
  simp [separatedLsn, winnersOn, hhistory, mutationsIn_overlappingLog, hwon]

end Ddb.Recovery
