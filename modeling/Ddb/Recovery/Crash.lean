import Ddb.Concurrency.PageHistory
import Ddb.Recovery.Undo

/-!
# Recovery after a crash

A crash leaves the database file and a beginning of the log with at least the durable records. Files that have worked up to
then open again, and on them recovery runs with a pool of its own. If every page with a mutation in the surviving log is
allocated, recovery returns.

If the clients have kept to the rules, and no transaction was committed after a part of it had been undone, then recovery is
exact: it leaves every page with a mutation in the log as the last committed mutation left it, or as it was before the first
one. A page with a mutation of a loser is rebuilt by UNDO, whose deltas follow the chain of the committed writes from the
first image; a page with none is brought up to date by REDO from whatever version the disk had.
-/

namespace Ddb.Recovery

open Ddb.Lib Ddb.Storage Ddb.Buffer Ddb.Concurrency

/-- What is left of the log. -/
structure Survives (log : LogManager) (surviving : List WalRecord) : Prop where
  beginning : surviving <+: log.records
  durable : ∀ record ∈ log.records, record.lsn ≤ log.durableLsn → record ∈ surviving

variable {s : System} {surviving : List WalRecord} {p : PageId}

theorem decodable_of_readable {pageCount : Nat} {record : WalRecord} (h : System.Readable pageCount record) :
    Decodable record := by
  obtain ⟨lsn, t, type, payload⟩ := record
  cases type with
  | pageAllocate =>
    obtain ⟨page, hdecode, -⟩ := h
    exact ⟨page, hdecode⟩
  | physicalMutation =>
    obtain ⟨mutation, hdecode, -⟩ := h
    exact ⟨mutation, hdecode⟩
  | _ => exact h

theorem recorded_of_has (hsurvives : Survives s.db.log surviving) {type : WalRecordType} {id : Nat}
    (h : has type surviving id = true) : s.Recorded type id := by
  obtain ⟨record, hmem, hrecord⟩ := List.any_eq_true.mp h
  exact ⟨record, hsurvives.beginning.subset hmem, of_decide_eq_true hrecord⟩

/-- The log of a run, whole or cut off, can be recovered from if its pages are allocated. -/
theorem recoverable_of_run (hworking : s.Working) (hphases : s.Phases) (hwell : s.WellLogged)
    (hsurvives : Survives s.db.log surviving)
    (hallocated : ∀ entry ∈ mutationsIn surviving, s.db.pages.isPageAllocated entry.mutation.pageId = true)
    {capacity durableLsn : Nat} (hcapacity : 0 < capacity) (hcovers : ∀ record ∈ surviving, record.lsn ≤ durableLsn) :
    Recoverable surviving (fresh s.db.pages capacity durableLsn) := by
  have hin : ∀ record ∈ surviving, record ∈ s.db.log.records := fun _ hmem => hsurvives.beginning.subset hmem
  refine ⟨fun record hmem => decodable_of_readable (hwell record (hin record hmem)), ?_, ?_, ?_, ⟨?_, ?_, ?_, hallocated⟩, rfl⟩
  · rintro id ⟨hcommit, habort⟩
    exact hphases.not_both (recorded_of_has hsurvives hcommit) (recorded_of_has hsurvives habort)
  · exact hworking.inv.db.log.increasing.sublist hsurvives.beginning.sublist
  · exact fun record hmem => hworking.inv.db.log.lsn_pos record (hin record hmem)
  · exact solo_fresh hworking.inv.db.cache.pages hworking.synced hcapacity
  · exact fun record hmem => Or.inr ⟨durableLsn, rfl, hcovers record hmem⟩
  · intro entry hentry
    obtain ⟨record, hmem, hof⟩ := mem_allocationsIn.mp hentry
    obtain ⟨htype, hdecode, -⟩ := allocationOf_eq_some hof
    have hread := hwell record (hin record hmem)
    simp only [System.Readable, htype] at hread
    obtain ⟨page, hpage, hindex⟩ := hread
    rw [hdecode] at hpage
    obtain rfl := Except.ok.inj hpage
    exact hindex

/-! ## The surviving part of the history -/

section Exact

variable {base : PageId → Payload} {history kept : List PageWrite}

/-- A mutation of the log and a write of the history with the same contents. -/
def told (entry : MutationRecord) : Nat × Nat × PageId × Payload × Payload :=
  (entry.lsn, entry.transactionId, entry.mutation.pageId, entry.mutation.beforeImage, entry.mutation.afterImage)

def toldWrite (e : PageWrite) : Nat × Nat × PageId × Payload × Payload := (e.lsn, e.owner, e.key, e.before, e.after)

theorem told_of_written {records : List WalRecord} {writes : List PageWrite}
    (h : (System.mutationRecords records).map System.written = writes.map System.logged) :
    (mutationsIn records).map told = writes.map toldWrite := by
  induction records generalizing writes with
  | nil =>
    obtain rfl : writes = [] := List.map_eq_nil_iff.mp h.symm
    rfl
  | cons record rest ih =>
    by_cases htype : record.type = .physicalMutation
    · rw [System.mutationRecords, List.filter_cons, if_pos (decide_eq_true htype), List.map_cons] at h
      obtain ⟨e, writes', rfl, he, hrest⟩ := List.map_eq_cons_iff.mp h.symm
      have hdecode := congrArg (fun triple => triple.2.2) he
      cases hpayload : LogManager.decodePhysicalMutation record.payload with
      | error error => simp [System.written, System.logged, hpayload, Except.toOption] at hdecode
      | ok mutation =>
        simp only [System.written, System.logged, hpayload, Except.toOption, Option.map_some, Prod.mk.injEq,
          Option.some.injEq] at he
        obtain ⟨hlsn, howner, hkey, hbefore, hafter⟩ := he
        have hentry : mutationOf record = some ⟨record.lsn, record.transactionId, mutation⟩ := by
          rw [mutationOf, if_pos htype, hpayload]
          rfl
        rw [mutationsIn_cons, hentry, Option.toList_some, List.singleton_append, List.map_cons, List.map_cons, ih hrest.symm]
        simp only [told, toldWrite, hlsn, howner, hkey, hbefore, hafter]
    · have hentry : mutationOf record = none := if_neg htype
      rw [System.mutationRecords, List.filter_cons, if_neg (by simpa using htype)] at h
      rw [mutationsIn_cons, hentry]
      exact ih h

/-- The writes whose records survive. -/
theorem exists_kept (htracks : s.Tracks base history) (hsurvives : Survives s.db.log surviving) :
    ∃ kept, kept <+: history ∧ (System.mutationRecords surviving).map System.written = kept.map System.logged := by
  have hpre : (System.mutationRecords surviving).map System.written <+: history.map System.logged := by
    rw [← htracks.records]
    exact (hsurvives.beginning.filter _).map _
  obtain ⟨kept, hkept, heq⟩ := List.prefix_map_iff.mp hpre
  exact ⟨kept, hkept, heq⟩

/-- What recovery knows of the history. -/
structure Kept (surviving : List WalRecord) (history kept : List PageWrite) : Prop where
  beginning : kept <+: history
  records : (System.mutationRecords surviving).map System.written = kept.map System.logged

theorem filter_told {entries : List MutationRecord} {writes : List PageWrite} (h : entries.map told = writes.map toldWrite)
    (keep : Nat × Nat × PageId × Payload × Payload → Bool) :
    (entries.filter fun entry => keep (told entry)).map told = (writes.filter fun e => keep (toldWrite e)).map toldWrite := by
  have hfilter := congrArg (List.filter keep) h
  rwa [List.filter_map, List.filter_map] at hfilter

theorem historyOn_told (h : Kept surviving history kept) (p : PageId) :
    (historyOn surviving p).map told = (History.on p kept).map toldWrite :=
  filter_told (told_of_written h.records) fun contents => contents.2.2.1 = p

theorem winnersOn_told (h : Kept surviving history kept) (p : PageId) :
    (winnersOn surviving p).map told = (History.winners (won surviving) p kept).map toldWrite :=
  filter_told (historyOn_told h p) fun contents => won surviving contents.2.1

/-- The committed owners of the surviving log have committed. -/
theorem committedAt_of_won (hsurvives : Survives s.db.log surviving) {o : Nat} (h : won surviving o = true) :
    ∃ n, s.CommittedAt o n := by
  obtain ⟨record, hmem, htype, hrecord⟩ := recorded_of_has hsurvives h
  exact ⟨record.lsn, record, hmem, htype, hrecord, rfl⟩

/-- A record older than a surviving one survives. -/
theorem mem_of_older (hincreasing : s.db.log.records.Pairwise fun a b => a.lsn < b.lsn)
    (hsurvives : Survives s.db.log surviving) {record newer : WalRecord} (hnewer : newer ∈ surviving)
    (hmem : record ∈ s.db.log.records) (hlt : record.lsn < newer.lsn) : record ∈ surviving := by
  obtain ⟨lost, hlost⟩ := hsurvives.beginning
  rw [← hlost] at hmem hincreasing
  rcases List.mem_append.mp hmem with hkept | hgone
  · exact hkept
  · have hlater := (List.pairwise_append.mp hincreasing).2.2 newer hnewer record hgone
    omega

/-- A commit logged before a surviving write survives. -/
theorem won_of_committedAt (hinv : s.db.Inv) (hsurvives : Survives s.db.log surviving) (h : Kept surviving history kept)
    {e : PageWrite} (he : e ∈ kept) {o n : Nat} (hlt : n < e.lsn) (hcommitted : s.CommittedAt o n) : won surviving o = true := by
  have hmem : System.logged e ∈ (System.mutationRecords surviving).map System.written := by
    rw [h.records]
    exact List.mem_map_of_mem he
  obtain ⟨newer, hnewer, hwritten⟩ := List.mem_map.mp hmem
  have hlsn : newer.lsn = e.lsn := congrArg Prod.fst hwritten
  obtain ⟨record, hrecord, htype, htx, rfl⟩ := hcommitted
  have hold := mem_of_older hinv.log.increasing hsurvives (List.mem_filter.mp hnewer).1 hrecord (by omega)
  exact List.any_eq_true.mpr ⟨record, hold, decide_eq_true ⟨htype, htx⟩⟩

/-- A write with a durable record is kept. -/
theorem mem_kept_of_durable (htracks : s.Tracks base history) (hsurvives : Survives s.db.log surviving)
    (h : Kept surviving history kept) {e : PageWrite} (he : e ∈ history) (hle : e.lsn ≤ s.db.log.durableLsn) : e ∈ kept := by
  obtain ⟨record, hmem, htype, hlsn, -⟩ := htracks.record he
  have hrecord := hsurvives.durable record hmem (by omega)
  have hlogged : System.written record ∈ kept.map System.logged := by
    rw [← h.records]
    exact List.mem_map_of_mem (List.mem_filter.mpr ⟨hrecord, decide_eq_true htype⟩)
  obtain ⟨other, hother, heq⟩ := List.mem_map.mp hlogged
  have hsame : other.lsn = e.lsn := (congrArg Prod.fst heq).trans hlsn
  -- Two writes of the history with one LSN are one write.
  by_contra hnot
  have hne : other ≠ e := by
    rintro rfl
    exact hnot hother
  have hapart : history.Pairwise fun d e => d.lsn ≠ e.lsn := htracks.sound.increasing.imp Nat.ne_of_lt
  have hsymm : Std.Symm fun d e : PageWrite => d.lsn ≠ e.lsn := ⟨fun _ _ h => h.symm⟩
  exact hapart.forall (h.beginning.subset hother) he hne hsame

/-! ## What recovery leaves of a page -/

/-- The after-image of the last committed mutation of the page, or else the before-image of its first mutation. -/
def committedImage (surviving : List WalRecord) (p : PageId) : Option Payload :=
  ((winnersOn surviving p).getLast?.map fun entry => entry.mutation.afterImage).or
    ((historyOn surviving p).head?.map fun entry => entry.mutation.beforeImage)

theorem applyDelta_before (before after : Payload) : UndoEngine.applyDelta before after before = after := by
  apply Payload.ext_bytes
  rw [UndoEngine.applyDelta]
  refine List.ext_getElem (by simp [before.size_eq, after.size_eq]) fun i hi hi' => ?_
  rw [List.getElem_zipWith, List.getElem_zip]
  dsimp only
  split
  · rfl
  · rename_i hsame
    exact not_not.mp hsame

/-- The first before-image in the log is the base of the page. -/
theorem head_historyOn (htracks : s.Tracks base history) (h : Kept surviving history kept)
    (hne : historyOn surviving p ≠ []) :
    (historyOn surviving p).head?.map (fun entry => entry.mutation.beforeImage) = some (base p) := by
  have hhead := congrArg List.head? (historyOn_told h p)
  rw [List.head?_map, List.head?_map] at hhead
  cases hfirst : (historyOn surviving p).head? with
  | none => exact absurd (List.head?_eq_none_iff.mp hfirst) hne
  | some entry =>
    rw [hfirst, Option.map_some] at hhead
    obtain ⟨e, he, hcontents⟩ := Option.map_eq_some_iff.mp hhead.symm
    have hbefore : e.before = entry.mutation.beforeImage := congrArg (fun contents => contents.2.2.2.1) hcontents
    have hon : (History.on p history).head? = some e := by
      obtain ⟨tail, htail⟩ := h.beginning.filter fun e : PageWrite => e.key = p
      rw [History.on, ← htail, List.head?_append]
      change ((History.on p kept).head?).or _ = _
      rw [he]
      rfl
    rw [Option.map_some, ← hbefore, htracks.sound.first p e hon]

/-- The committed image, from the history. -/
theorem committedImage_eq (htracks : s.Tracks base history) (h : Kept surviving history kept)
    (hne : historyOn surviving p ≠ []) (start : Nat) :
    committedImage surviving p = some (History.latest (base p, start) (History.winners (won surviving) p kept)).1 := by
  have hlast := congrArg List.getLast? (winnersOn_told h p)
  rw [List.getLast?_map, List.getLast?_map] at hlast
  rw [committedImage, head_historyOn htracks h hne, History.latest_eq]
  cases hwinner : (winnersOn surviving p).getLast? with
  | none =>
    rw [hwinner, Option.map_none, eq_comm, Option.map_eq_none_iff] at hlast
    rw [hlast]
    rfl
  | some entry =>
    rw [hwinner, Option.map_some] at hlast
    obtain ⟨e, he, hcontents⟩ := Option.map_eq_some_iff.mp hlast.symm
    rw [he]
    have hafter : e.after = entry.mutation.afterImage := congrArg (fun contents => contents.2.2.2.2) hcontents
    exact congrArg some hafter.symm

/-- The payload UNDO builds goes along the chain of the committed writes. -/
theorem survivor_eq (hinv : s.db.Inv) (htracks : s.Tracks base history) (hsurvives : Survives s.db.log surviving)
    (h : Kept surviving history kept) (hne : historyOn surviving p ≠ []) :
    (survivor surviving p).1 = (History.latest (base p, 0) (History.winners (won surviving) p kept)).1 := by
  have hpatch := htracks.sound.patch_winners h.beginning (fun o => committedAt_of_won hsurvives)
    (fun e he o n hlt hcommitted => won_of_committedAt hinv hsurvives h he hlt hcommitted) applyDelta_before p
  rw [← hpatch, survivor, head_historyOn htracks h hne, Option.getD_some]
  -- The fold over the entries of the log is a fold over their contents.
  have hfold : ∀ (entries : List MutationRecord) (start : Payload × Nat),
      (entries.foldl (fun survivor entry =>
        (UndoEngine.applyDelta entry.mutation.beforeImage entry.mutation.afterImage survivor.1, entry.lsn)) start).1 =
      (entries.map told).foldl (fun image contents =>
        UndoEngine.applyDelta contents.2.2.2.1 contents.2.2.2.2 image) start.1 := by
    intro entries
    induction entries with
    | nil => exact fun _ => rfl
    | cons entry rest ih => exact fun start => ih _
  rw [hfold, winnersOn_told h p, List.foldl_map]
  rfl

/-- Where no loser has written, REDO brings the stored copy up to date. -/
theorem redone_eq (htracks : s.Tracks base history) (hsurvives : Survives s.db.log surviving)
    (h : Kept surviving history kept) (hne : historyOn surviving p ≠ []) (hwon : affected surviving p = false) {page : Page}
    (hslot : s.db.pages.slot p = some page) :
    ((winnersOn surviving p).foldl redoPage page).payload =
      (History.latest (base p, 0) (History.winners (won surviving) p kept)).1 := by
  have hall : ∀ e ∈ History.on p kept, won surviving e.owner = true := by
    intro e he
    have hmem : toldWrite e ∈ (historyOn surviving p).map told := by
      rw [historyOn_told h p]
      exact List.mem_map_of_mem he
    obtain ⟨entry, hentry, hcontents⟩ := List.mem_map.mp hmem
    have howner : entry.transactionId = e.owner := congrArg (fun contents => contents.2.1) hcontents
    have hkept : (!won surviving entry.transactionId) = false := by
      simpa using List.any_eq_false.mp hwon entry hentry
    rw [← howner]
    simpa using hkept
  have hredo := htracks.sound.redo_winners h.beginning (htracks.disk p page hslot)
    (fun e he hle => mem_kept_of_durable htracks hsurvives h he hle) hall
  have hfold : ∀ (entries : List MutationRecord) (page : Page),
      ((entries.foldl redoPage page).payload, (entries.foldl redoPage page).lsn) =
      (entries.map told).foldl (fun copy contents =>
        if contents.1 ≤ copy.2 then copy else (contents.2.2.2.2, contents.1)) (page.payload, page.lsn) := by
    intro entries
    induction entries with
    | nil => exact fun _ => rfl
    | cons entry rest ih =>
      intro page
      rw [List.foldl_cons, ih, List.map_cons, List.foldl_cons, redoPage, Store.redo]
      by_cases hle : entry.lsn ≤ page.lsn
      · rw [if_pos hle, if_pos (show (told entry).1 ≤ page.lsn from hle)]
      · rw [if_neg hle, if_neg (show ¬ (told entry).1 ≤ page.lsn from hle)]
        rfl
  have hpair := hfold (winnersOn surviving p) page
  rw [winnersOn_told h p, List.foldl_map] at hpair
  have hboth := hpair.trans hredo
  -- There is a last committed write, so the copy it started from does not matter.
  have hsome : History.winners (won surviving) p kept ≠ [] := by
    rw [History.winners, List.filter_eq_self.mpr hall]
    intro hnil
    have hon := historyOn_told h p
    rw [hnil, List.map_nil, List.map_eq_nil_iff] at hon
    exact hne hon
  obtain ⟨rest, last, hlast⟩ := (List.eq_nil_or_concat (History.winners (won surviving) p kept)).resolve_left hsome
  rw [hlast, List.concat_eq_append, History.latest_append] at hboth ⊢
  exact congrArg Prod.fst hboth

end Exact

/-- In a run in which the clients keep to the rules and no transaction is committed after a part of it has been undone, a crash
at any point is recovered from exactly. -/
theorem recovery_exact (hlaunch : s.Launch) (run : List Step)
    (hisolated : EachStep System.step System.Isolated s run) (hwhole : EachStep System.step System.CommitsWhole s run)
    (hsurvives : Survives (exec System.step s run).db.log surviving)
    (hallocated : ∀ entry ∈ mutationsIn surviving,
      (exec System.step s run).db.pages.isPageAllocated entry.mutation.pageId = true)
    {capacity durableLsn : Nat} (hcapacity : 0 < capacity) (hcovers : ∀ record ∈ surviving, record.lsn ≤ durableLsn) :
    ∃ pages r, PageManager.openFile (exec System.step s run).db.pages.file = .ok pages ∧
      (recover surviving).run (fresh pages capacity durableLsn) = (.ok (), r) ∧
      ∀ p, historyOn surviving p ≠ [] → (r.cache.view p).map Page.payload = committedImage surviving p := by
  have hchronicle := hlaunch.chronicle.exec (hisolated.and hwhole)
  generalize exec System.step s run = last at *
  obtain ⟨base, history, htracks⟩ := hchronicle.tracks
  have hrecoverable := recoverable_of_run hchronicle.working hchronicle.phases hchronicle.wellLogged hsurvives hallocated
    hcapacity hcovers
  obtain ⟨r, hrun, -, -, -, hview, -⟩ := recover_run hrecoverable
  refine ⟨last.db.pages, r, PageManager.openFile_synced hchronicle.working.inv.db.cache.pages hchronicle.working.synced, hrun,
    fun p hne => ?_⟩
  obtain ⟨kept, hbeginning, hrecords⟩ := exists_kept htracks hsurvives
  have hkept : Kept surviving history kept := ⟨hbeginning, hrecords⟩
  rw [hview p, recovered, committedImage_eq htracks hkept hne 0]
  by_cases haffected : affected surviving p = true
  · rw [if_pos haffected, Option.map_some, survivor_eq hchronicle.working.inv.db htracks hsurvives hkept hne]
  · obtain ⟨entry, hentry⟩ := List.exists_mem_of_ne_nil _ hne
    obtain ⟨hlogged, hpage⟩ := List.mem_filter.mp hentry
    have halloc := hallocated entry hlogged
    rw [of_decide_eq_true hpage] at halloc
    obtain ⟨page, hslot, -⟩ := hchronicle.working.inv.db.cache.pages.slot_isSome
      (PageManager.isPageAllocated_iff.mp halloc).2.1
    change last.db.pages.slot p = some page at hslot
    rw [if_neg haffected, view_fresh, hslot, Option.map_some, Option.map_some,
      redone_eq htracks hsurvives hkept hne (Bool.eq_false_iff.mpr haffected) hslot]

/-! ## Two runs -/

/-- Of the transactions begun so far, only those with a logged commit carry a mutation of a page that is written. -/
def writesApart (s : System) : Step → Bool
  | .access (some t) p _ => (List.range s.db.nextId).all fun other => other = t ||
      !(s.db.transactions other).pendingMutations.zipIdx.any (fun entry =>
        entry.1.pageId = p && !(s.db.transactions other).resolved entry.2) ||
      s.db.log.records.any fun record => record.type = .commit && record.transactionId = other
  | .access none _ _ => false
  | _ => true

theorem isolated_of_writesApart (h : s.Inv) {step : Step} (hstep : writesApart s step = true) : s.Isolated step := by
  cases step with
  | access client p change =>
    cases client with
    | none => cases hstep
    | some t =>
      rintro page after - - - other hne ⟨index, mutation, hmutation, hpage, hopen⟩
      have hbegun : other < s.db.nextId := by
        by_contra hge
        rw [(h.fresh other (Nat.le_of_not_lt hge)).1] at hmutation
        cases hmutation
      have hother := List.all_eq_true.mp hstep other (List.mem_range.mpr hbegun)
      simp only [hne, decide_false, Bool.false_or, Bool.or_eq_true, Bool.not_eq_true', List.any_eq_false, List.any_eq_true,
        Bool.and_eq_true, decide_eq_true_eq] at hother
      rcases hother with hnone | ⟨record, hmem, hrecord⟩
      · exact absurd ⟨hpage, hopen⟩ (hnone (mutation, index) (List.mem_zipIdx_iff_getElem?.mpr hmutation))
      · exact ⟨record, hmem, hrecord⟩
  | _ => trivial

theorem isolated_run (hlaunch : s.Launch) {run : List Step} (h : EachStep System.step (fun s step => writesApart s step = true) s run) :
    EachStep System.step System.Isolated s run :=
  h.of_keeps (P := System.Inv) (fun _ step hinv => hinv.step step) (fun _ _ hinv => isolated_of_writesApart hinv)
    hlaunch.initial.sound

/-- Transaction 1 writes page 0 and is committed; transaction 2 writes it again. -/
def committedRun : List Step :=
  [.allocate none, .begin, .access (some 1) (.ofIndex 0) (fun _ => some (.filled 1)), .commit 1, .resume 1, .resume 1,
    .resume 1, .begin, .access (some 2) (.ofIndex 0) (fun _ => some (.filled 2))]

theorem committedRun_recovered : ∃ pages r,
    PageManager.openFile (exec System.step (.new 1) committedRun).db.pages.file = .ok pages ∧
      (recover (exec System.step (.new 1) committedRun).db.log.records).run (fresh pages 1 5) = (.ok (), r) ∧
      ∀ p, historyOn (exec System.step (.new 1) committedRun).db.log.records p ≠ [] →
        (r.cache.view p).map Page.payload = committedImage (exec System.step (.new 1) committedRun).db.log.records p := by
  refine recovery_exact (System.launch_new 1) committedRun (isolated_run (System.launch_new 1) ?_) ?_
    ⟨List.prefix_rfl, fun _ hmem _ => hmem⟩ ?_ (by decide) ?_
  · decide +kernel
  · refine ⟨trivial, trivial, trivial, ?_, trivial, trivial, trivial, trivial, trivial, trivial⟩
    change ∀ resolved ∈ _, _
    decide +kernel
  · decide +kernel
  · decide +kernel

/-- In a pool of two frames transaction 1 writes pages 0 and 1. Transaction 3 writes page 2, which evicts page 0. The abort of
transaction 1 undoes its write of page 1 and fails on page 0, whose frame it would have to take from page 2, whose record is
not durable. Then transaction 1 is committed. Transaction 4 writes page 1 and is committed, transaction 5 writes it again. -/
def halfUndoneRun : List Step :=
  [.allocate none, .allocate none, .allocate none,
    .begin, .access (some 1) (.ofIndex 0) (fun _ => some (.filled 1)), .begin, .commit 2, .resume 2, .resume 2, .resume 2,
    .access (some 1) (.ofIndex 1) (fun payload => payload.put 0 [1]),
    .begin, .access (some 3) (.ofIndex 2) (fun _ => some (.filled 1)),
    .abort 1, .resume 1, .resume 1, .resume 1, .commit 1, .resume 1, .resume 1, .resume 1,
    .begin, .access (some 4) (.ofIndex 1) (fun payload => payload.put 1 [1]), .commit 4, .resume 4, .resume 4, .resume 4,
    .begin, .access (some 5) (.ofIndex 1) (fun payload => payload.put 2 [1])]

/-- After a crash with the whole log, recovery returns and leaves page 1 with the write that was undone. -/
theorem halfUndoneRun_not_exact : EachStep System.step System.Isolated (.new 2) halfUndoneRun ∧
    (∀ entry ∈ mutationsIn (exec System.step (.new 2) halfUndoneRun).db.log.records,
      (exec System.step (.new 2) halfUndoneRun).db.pages.isPageAllocated entry.mutation.pageId = true) ∧
    ((recover (exec System.step (.new 2) halfUndoneRun).db.log.records).run
      (fresh (exec System.step (.new 2) halfUndoneRun).db.pages 1 13)).1.toBool = true ∧
    historyOn (exec System.step (.new 2) halfUndoneRun).db.log.records (.ofIndex 1) ≠ [] ∧
    (((recover (exec System.step (.new 2) halfUndoneRun).db.log.records).run
      (fresh (exec System.step (.new 2) halfUndoneRun).db.pages 1 13)).2.cache.view (.ofIndex 1)).map Page.payload ≠
        committedImage (exec System.step (.new 2) halfUndoneRun).db.log.records (.ofIndex 1) := by
  refine ⟨isolated_run (System.launch_new 2) ?_, ?_⟩
  · decide +kernel
  · decide +kernel

end Ddb.Recovery
