import Ddb.Recovery.Redo
import Ddb.Storage.WalCodec

/-!
# REDO on a file that has lost slots

A crash may take the last slots of the database file with it. REDO gives a page of a committed transaction its slot back when
the slot is the next one of the file, and refuses an allocation farther out. It skips what other transactions have allocated,
so a page that is lost together with an earlier page of a transaction without COMMIT cannot be reached: REDO throws.

One step of REDO is given here for any file, with the slots it adds, and so are the cases in which it throws. A log whose
allocations have consecutive ids can be repeated exactly when, from the end of the file on, no page of a committed transaction
stands behind a page of another.
-/

namespace Ddb.Recovery

open Ddb.Lib Ddb.Storage Ddb.Buffer

variable {records done rest : List WalRecord} {record : WalRecord} {state : RecoveryState} {r r₁ r' : Replay} {p : PageId}

/-- A record, as REDO applies it to a store that may have lost slots. -/
def restored (records : List WalRecord) (store : Store) (record : WalRecord) : Store :=
  match allocating records record, writing records record with
  | some page, _ => (store.provide page).mark page true
  | none, some mutation => store.onPage mutation.pageId (Store.redo record.lsn mutation.afterImage)
  | none, none => store

/-- The number of slots after a record. -/
def slotsAfter (records : List WalRecord) (count : Nat) (record : WalRecord) : Nat :=
  match allocating records record with
  | some page => max count (page.index + 1)
  | none => count

/-- REDO can repeat the record: a page to allocate has a slot or gets the next one, a page to write is allocated. -/
structure Fits (records : List WalRecord) (record : WalRecord) (r : Replay) : Prop where
  slot : ∀ page, allocating records record = some page →
    page.index ≤ r.cache.pages.pageCount ∧ page.index < PageManager.kCatalogBits
  allocated : ∀ mutation, writing records record = some mutation → r.cache.pages.isPageAllocated mutation.pageId = true

/-- The record has been repeated. -/
structure Redid (records : List WalRecord) (record : WalRecord) (r r' : Replay) : Prop where
  solo : r'.cache.Solo
  wal : r'.cache.walDurability = r.cache.walDurability
  pageCount : r'.cache.pages.pageCount = slotsAfter records r.cache.pages.pageCount record
  store : r'.store = restored records r.store record
  disk : ∀ p, r'.disk p = r.disk p ∨ r'.disk p = r.store.image p ∨ r'.disk p = r'.store.image p

/-- The log that REDO works through, as the analysis has accepted it. -/
structure Accepted (records : List WalRecord) (state : RecoveryState) : Prop where
  analyzed : Analyzed records state
  ascending : records.Pairwise fun a b => a.lsn < b.lsn
  positive : ∀ record ∈ records, 0 < record.lsn
  decodable : ∀ record ∈ records, Decodable record

theorem accepted_of_analyze {file : Bytes} (hread : LogManager.readRecords file = .ok records)
    (hanalyze : RecoveryAnalyzer.analyze records = .ok state) : Accepted records state := by
  obtain ⟨hascending, hpositive⟩ := LogManager.readRecords_ordered hread
  exact ⟨(analyze_ok hanalyze).1, hascending, hpositive, (analyze_succeeds_iff.mp ⟨state, hanalyze⟩).1⟩

theorem provide_of_isSome {store : Store} (h : (store.image p).isSome = true) : store.provide p = store := by
  refine Store.ext (fun q => ?_) (fun _ => rfl) rfl
  change (if q = p then some ((store.image q).getD ⟨p, 0, .zero⟩) else store.image q) = store.image q
  split
  · rename_i hq
    obtain ⟨page, hpage⟩ := Option.isSome_iff_exists.mp (hq ▸ h)
    rw [hpage]
    rfl
  · rfl

theorem image_isSome (hsolo : r.cache.Solo) (hindex : p.index < r.cache.pages.pageCount) : (r.store.image p).isSome = true := by
  change (r.cache.view p).isSome = true
  cases hf : r.cache.pool.pageTable p with
  | some f => rw [Cache.view_resident hf]; rfl
  | none => rw [Cache.view_absent hf]; exact hsolo.inv.pages.slots p hindex

/-! ## A step -/

theorem redoRecord_redid (hlog : Accepted records state) (hmem : record ∈ records) (hsolo : r.cache.Solo)
    (hdurable : Cache.LsnDurable r.cache.walDurability record.lsn) (hfits : Fits records record r) :
    ∃ r', (RedoEngine.redoRecord state record).run r = (.ok (), r') ∧ Redid records record r r' := by
  rw [redoRecord_eq hlog.analyzed hlog.ascending hmem (hlog.decodable record hmem)]
  cases hallocating : allocating records record with
  | some page =>
    obtain ⟨hindex, hroom⟩ := hfits.slot page hallocating
    obtain ⟨hvalid, -, -⟩ := allocating_eq_some hallocating
    have hrestored : restored records r.store record = (r.store.provide page).mark page true := by
      rw [restored, hallocating]
    have hslots : slotsAfter records r.cache.pages.pageCount record = max r.cache.pages.pageCount (page.index + 1) := by
      rw [slotsAfter, hallocating]
    rcases hindex.lt_or_eq with hinside | hend
    · obtain ⟨r', hrun, hbecame, hdisk⟩ := Replay.redoPageAllocate_run hsolo hvalid hinside
      refine ⟨r', by rw [Op.bind_ok hrun]; rfl, hbecame.solo, hbecame.wal, ?_, ?_, fun p => Or.inl (hdisk p)⟩
      · rw [hbecame.pageCount, hslots, Nat.max_eq_left hinside]
      · rw [hbecame.store, hrestored, provide_of_isSome (image_isSome hsolo hinside)]
    · obtain ⟨r', hrun, hgrew⟩ := Replay.redoPageAllocate_grows hsolo hvalid hend hroom
      refine ⟨r', by rw [Op.bind_ok hrun]; rfl, hgrew.solo, hgrew.wal, ?_, ?_, fun p => ?_⟩
      · rw [hgrew.pageCount, hslots, hend, Nat.max_eq_right (Nat.le_succ _)]
      · rw [hgrew.store, hrestored]
      · rw [hgrew.disk, hgrew.store]
        split
        · rename_i hp
          subst hp
          have himage : r.store.image p = none := Replay.view_of_beyond hsolo hend.ge
          refine Or.inr (Or.inr ?_)
          change _ = if p = p then some ((r.store.image p).getD ⟨p, 0, .zero⟩) else r.store.image p
          rw [if_pos rfl, himage]
          rfl
        · exact Or.inl rfl
  | none =>
    have hslots : slotsAfter records r.cache.pages.pageCount record = r.cache.pages.pageCount := by
      rw [slotsAfter, hallocating]
    cases hwriting : writing records record with
    | none =>
      refine ⟨r, rfl, hsolo, rfl, hslots.symm, ?_, fun _ => Or.inl rfl⟩
      rw [restored, hallocating, hwriting]
    | some mutation =>
      obtain ⟨applied, r', hrun, hbecame, hdrains⟩ := Replay.redoPhysicalMutation_run hsolo mutation
        (hlog.positive record hmem) (hfits.allocated mutation hwriting) hdurable
      refine ⟨r', by rw [Op.bind_ok hrun]; rfl, hbecame.solo, hbecame.wal, hbecame.pageCount.trans hslots.symm, ?_,
        fun p => (hdrains p).imp_right Or.inl⟩
      rw [hbecame.store, restored, hallocating, hwriting]

theorem Fits.of_allocating {page : PageId} (h : allocating records record = some page)
    (hindex : page.index ≤ r.cache.pages.pageCount) (hroom : page.index < PageManager.kCatalogBits) : Fits records record r := by
  constructor
  · intro other hother
    obtain rfl := Option.some.inj (h.symm.trans hother)
    exact ⟨hindex, hroom⟩
  · intro mutation hmutation
    rw [writing, mutationOf_of_allocationOf (allocating_eq_some h).2.2, Option.map_none, ite_self] at hmutation
    cases hmutation

theorem Fits.of_not_allocating (h : allocating records record = none)
    (halloc : ∀ mutation, writing records record = some mutation → r.cache.pages.isPageAllocated mutation.pageId = true) :
    Fits records record r := by
  refine ⟨fun page hpage => ?_, halloc⟩
  rw [h] at hpage
  cases hpage

/-- In all other cases REDO throws. -/
theorem redoRecord_refused (hlog : Accepted records state) (hmem : record ∈ records) (hsolo : r.cache.Solo)
    (hfits : ¬ Fits records record r) : ∃ e, (RedoEngine.redoRecord state record).run r = (.error e, r) := by
  rw [redoRecord_eq hlog.analyzed hlog.ascending hmem (hlog.decodable record hmem)]
  cases hallocating : allocating records record with
  | some page =>
    obtain ⟨hvalid, -, -⟩ := allocating_eq_some hallocating
    rcases Nat.lt_trichotomy page.index r.cache.pages.pageCount with hinside | hend | hbeyond
    · exact absurd (.of_allocating hallocating hinside.le (hinside.trans_le hsolo.inv.pages.capacity)) hfits
    · have hfull : PageManager.kCatalogBits ≤ page.index := by
        by_contra hroom
        exact hfits (.of_allocating hallocating hend.le (Nat.lt_of_not_le hroom))
      obtain ⟨e, hrun⟩ := Replay.redoPageAllocate_full hvalid hend hfull
      exact ⟨e, Op.bind_error hrun⟩
    · exact ⟨_, Op.bind_error (Replay.redoPageAllocate_gap hvalid hbeyond)⟩
  | none =>
    cases hwriting : writing records record with
    | none =>
      refine absurd (.of_not_allocating hallocating fun mutation hmutation => ?_) hfits
      rw [hwriting] at hmutation
      cases hmutation
    | some mutation =>
      cases halloc : r.cache.pages.isPageAllocated mutation.pageId with
      | false =>
        obtain ⟨e, hrun⟩ := @Replay.redoPhysicalMutation_unallocated r record.lsn mutation halloc
        exact ⟨e, Op.bind_error hrun⟩
      | true =>
        refine absurd (.of_not_allocating hallocating fun other hother => ?_) hfits
        obtain rfl := Option.some.inj (hwriting.symm.trans hother)
        exact halloc

/-! ## A run -/

/-- A property that every record keeps, and that makes room for the next one, carries REDO to the end of the log. -/
theorem redoRecords_succeeds {P : List WalRecord → Replay → Prop} (hlog : Accepted records state)
    (hstep : ∀ done record rest r, done ++ record :: rest = records → r.cache.Solo → P done r →
      Fits records record r ∧ ∀ r', Redid records record r r' → P (done ++ [record]) r')
    (hsplit : done ++ rest = records) (hsolo : r.cache.Solo)
    (hdurable : r.Covers records) (h : P done r) :
    ∃ r', (rest.forM (RedoEngine.redoRecord state)).run r = (.ok (), r') ∧ r'.cache.Solo ∧ P records r' := by
  induction rest generalizing done r with
  | nil =>
    rw [List.append_nil] at hsplit
    exact ⟨r, rfl, hsolo, hsplit ▸ h⟩
  | cons record rest ih =>
    have hmem : record ∈ records := hsplit ▸ by simp
    obtain ⟨hfits, hnext⟩ := hstep done record rest r hsplit hsolo h
    obtain ⟨r₁, hrun, hredid⟩ := redoRecord_redid hlog hmem hsolo (hdurable record hmem) hfits
    obtain ⟨r', hrest, hlast⟩ := ih (by rw [List.append_assoc]; exact hsplit) hredid.solo
      (fun other hother => hredid.wal ▸ hdurable other hother) (hnext r₁ hredid)
    exact ⟨r', by rw [Op.forM_cons_ok hrun, hrest], hlast⟩

/-- A run that has not thrown has repeated its first record. -/
theorem redoRecords_cons (hlog : Accepted records state) (hmem : record ∈ records) (hsolo : r.cache.Solo)
    (hdurable : Cache.LsnDurable r.cache.walDurability record.lsn)
    (hrun : ((record :: rest).forM (RedoEngine.redoRecord state)).run r = (.ok (), r')) :
    Fits records record r ∧ ∃ r₁, (RedoEngine.redoRecord state record).run r = (.ok (), r₁) ∧ Redid records record r r₁ ∧
      (rest.forM (RedoEngine.redoRecord state)).run r₁ = (.ok (), r') := by
  by_cases hfits : Fits records record r
  · obtain ⟨r₁, hfirst, hredid⟩ := redoRecord_redid hlog hmem hsolo hdurable hfits
    rw [Op.forM_cons_ok hfirst] at hrun
    exact ⟨hfits, r₁, hfirst, hredid, hrun⟩
  · obtain ⟨e, hfirst⟩ := redoRecord_refused hlog hmem hsolo hfits
    rw [Op.forM_cons_error hfirst] at hrun
    cases (Prod.mk.inj hrun).1

/-- A property that every record keeps when REDO can repeat it holds at the end of a run that has not thrown. -/
theorem redoRecords_keeps {P : List WalRecord → Replay → Prop} (hlog : Accepted records state)
    (hstep : ∀ done record rest r r', done ++ record :: rest <+: records → r.cache.Solo → P done r → Fits records record r →
      Redid records record r r' → P (done ++ [record]) r')
    (hsplit : done ++ rest <+: records) (hsolo : r.cache.Solo)
    (hdurable : r.Covers records) (h : P done r)
    (hrun : (rest.forM (RedoEngine.redoRecord state)).run r = (.ok (), r')) :
    r'.cache.Solo ∧ r'.cache.walDurability = r.cache.walDurability ∧ P (done ++ rest) r' := by
  induction rest generalizing done r with
  | nil =>
    obtain ⟨-, rfl⟩ := Prod.mk.inj hrun
    rw [List.append_nil]
    exact ⟨hsolo, rfl, h⟩
  | cons record rest ih =>
    have hmem : record ∈ records := hsplit.subset (by simp)
    obtain ⟨hfits, r₁, -, hredid, hrest⟩ := redoRecords_cons hlog hmem hsolo (hdurable record hmem) hrun
    obtain ⟨hsolo', hwal, hlast⟩ := ih (by rw [List.append_assoc]; exact hsplit) hredid.solo
      (fun other hother => hredid.wal ▸ hdurable other hother) (hstep done record rest r r₁ hsplit hsolo h hfits hredid) hrest
    rw [List.append_assoc] at hlast
    exact ⟨hsolo', hwal.trans hredid.wal, hlast⟩

/-! ## Consecutive allocations -/

theorem restored_allocated (store : Store) (p : PageId) :
    (restored records store record).allocated p = if allocating records record = some p then true else store.allocated p := by
  rw [restored]
  cases allocating records record with
  | some page =>
    change (if p = page then true else store.allocated p) = _
    simp only [Option.some.injEq, eq_comm]
  | none => cases writing records record <;> rfl

/-- The allocations of the log are consecutive, and a transaction writes only pages that it has allocated. -/
structure Consecutive (records : List WalRecord) (first : Nat) : Prop where
  ids : (allocationsIn records).map (fun entry => entry.pageId.index) = List.range' first (allocationsIn records).length
  room : ∀ entry ∈ allocationsIn records, entry.pageId.index < PageManager.kCatalogBits
  own : ∀ before record after, before ++ record :: after = records → ∀ entry, mutationOf record = some entry →
    ∃ allocation ∈ allocationsIn before, allocation.pageId = entry.mutation.pageId ∧
      allocation.transactionId = entry.transactionId

/-- From the slot `count` on, every page before a page of a committed transaction is one of a committed transaction too. -/
def Unbroken (records : List WalRecord) (count : Nat) : Prop :=
  ∀ entry ∈ allocationsIn records, won records entry.transactionId = true → ∀ earlier ∈ allocationsIn records,
    count ≤ earlier.pageId.index → earlier.pageId.index < entry.pageId.index → won records earlier.transactionId = true

instance (records : List WalRecord) (count : Nat) : Decidable (Unbroken records count) := by
  unfold Unbroken
  infer_instance

variable {first count : Nat} {entry : AllocationRecord}

theorem Consecutive.index_at (h : Consecutive records first) {i : Nat} (hentry : (allocationsIn records)[i]? = some entry) :
    entry.pageId.index = first + i := by
  have hmap := congrArg (fun indexes => indexes[i]?) h.ids
  rw [List.getElem?_map, hentry, List.getElem?_range' (List.getElem?_eq_some_iff.mp hentry).1, Nat.one_mul] at hmap
  exact Option.some.inj hmap

/-- The pages are different. -/
theorem Consecutive.eq_of_index (h : Consecutive records first) {a b : AllocationRecord} (ha : a ∈ allocationsIn records)
    (hb : b ∈ allocationsIn records) (heq : a.pageId.index = b.pageId.index) : a = b := by
  obtain ⟨i, hi⟩ := List.mem_iff_getElem?.mp ha
  obtain ⟨j, hj⟩ := List.mem_iff_getElem?.mp hb
  have hsame : i = j := by
    rw [h.index_at hi, h.index_at hj] at heq
    omega
  rw [hsame, hj] at hi
  exact (Option.some.inj hi).symm

theorem allocationsIn_split (hsplit : done ++ record :: rest = records) :
    allocationsIn records = allocationsIn done ++ ((allocationOf record).toList ++ allocationsIn rest) := by
  rw [← hsplit, allocationsIn, List.filterMap_append, ← allocationsIn_cons]
  rfl

/-- The page before an allocation is allocated earlier in the log. -/
theorem Consecutive.predecessor (h : Consecutive records first) (hsplit : done ++ record :: rest = records)
    (hentry : allocationOf record = some entry) (hfirst : first < entry.pageId.index) :
    ∃ earlier ∈ allocationsIn done, earlier.pageId.index + 1 = entry.pageId.index := by
  have hall := allocationsIn_split hsplit
  have hat : (allocationsIn records)[(allocationsIn done).length]? = some entry := by
    rw [hall, List.getElem?_append_right le_rfl, Nat.sub_self, hentry]
    rfl
  have hindex := h.index_at hat
  obtain ⟨n, hn⟩ : ∃ n, (allocationsIn done).length = n + 1 := Nat.exists_eq_succ_of_ne_zero (by omega)
  obtain ⟨earlier, hearlier⟩ : ∃ earlier, (allocationsIn done)[n]? = some earlier :=
    ⟨_, List.getElem?_eq_getElem (by omega)⟩
  refine ⟨earlier, List.mem_of_getElem? hearlier, ?_⟩
  have hbefore : (allocationsIn records)[n]? = some earlier := by
    rw [hall, List.getElem?_append_left (by omega), hearlier]
  have hindex' := h.index_at hbefore
  omega

/-- What has been repeated so far is in the file. -/
structure Rebuilt (records : List WalRecord) (count : Nat) (done : List WalRecord) (r : Replay) : Prop where
  count : count ≤ r.cache.pages.pageCount
  pages : ∀ entry ∈ allocationsIn done, won records entry.transactionId = true →
    entry.pageId.index < r.cache.pages.pageCount ∧ r.cache.pages.isPageAllocated entry.pageId = true

theorem mem_allocationsIn_snoc : entry ∈ allocationsIn (done ++ [record]) ↔
    entry ∈ allocationsIn done ∨ allocationOf record = some entry := by
  rw [allocationsIn_append, List.mem_append, Option.mem_toList]

theorem le_slotsAfter (records : List WalRecord) (count : Nat) (record : WalRecord) : count ≤ slotsAfter records count record := by
  rw [slotsAfter]
  cases allocating records record with
  | none => exact le_rfl
  | some page => exact le_max_left _ _

theorem Rebuilt.step (h : Rebuilt records count done r) (hredid : Redid records record r r') :
    Rebuilt records count (done ++ [record]) r' := by
  have hgrows : r.cache.pages.pageCount ≤ r'.cache.pages.pageCount := by
    rw [hredid.pageCount]
    exact le_slotsAfter records _ record
  have hbit : ∀ p, r'.cache.pages.isPageAllocated p =
      if allocating records record = some p then true else r.cache.pages.isPageAllocated p := by
    intro p
    exact (congrArg (fun store => store.allocated p) hredid.store).trans (restored_allocated r.store p)
  refine ⟨h.count.trans hgrows, fun entry hentry hwon => ?_⟩
  rw [hbit]
  rcases mem_allocationsIn_snoc.mp hentry with hearlier | hnow
  · obtain ⟨hindex, halloc⟩ := h.pages entry hearlier hwon
    exact ⟨hindex.trans_le hgrows, by rw [halloc, ite_self]⟩
  · have hallocating : allocating records record = some entry.pageId := by
      rw [allocating, ← (allocationOf_eq_some hnow).2.2.2, hwon, hnow]
      rfl
    rw [if_pos hallocating, hredid.pageCount, slotsAfter, hallocating]
    exact ⟨Nat.lt_of_lt_of_le (Nat.lt_succ_self _) (le_max_right _ _), rfl⟩

theorem Rebuilt.fits (hlog : Consecutive records first) (hunbroken : Unbroken records count) (hfirst : first ≤ count)
    (hsplit : done ++ record :: rest = records) (h : Rebuilt records count done r) : Fits records record r := by
  cases hallocating : allocating records record with
  | some page =>
    obtain ⟨-, hwon, hof⟩ := allocating_eq_some hallocating
    have hmem : ⟨record.lsn, record.transactionId, page⟩ ∈ allocationsIn records :=
      mem_allocationsIn.mpr ⟨record, hsplit ▸ by simp, hof⟩
    refine .of_allocating hallocating ?_ (hlog.room _ hmem)
    by_cases hlost : page.index ≤ count
    · exact hlost.trans h.count
    · have hbeyond : count < page.index := Nat.lt_of_not_le hlost
      obtain ⟨earlier, hearlier, hnext⟩ := hlog.predecessor hsplit hof (hfirst.trans_lt hbeyond)
      dsimp only at hnext
      have hin : earlier ∈ allocationsIn records := by
        rw [allocationsIn_split hsplit]
        exact List.mem_append_left _ hearlier
      have hwon' := hunbroken _ hmem hwon earlier hin (by omega) (by dsimp only; omega)
      have hindex := (h.pages earlier hearlier hwon').1
      omega
  | none =>
    refine .of_not_allocating hallocating fun mutation hmutation => ?_
    obtain ⟨hwon, hof⟩ := writing_eq_some hmutation
    obtain ⟨allocation, hallocation, hpage, howner⟩ := hlog.own done record rest hsplit _ hof
    have hbit := (h.pages allocation hallocation (by rw [howner]; exact hwon)).2
    rwa [hpage] at hbit

/-- A page of a transaction without COMMIT, beyond the end of the file, is where REDO stops adding slots. -/
theorem unbroken_of_run (hlog : Consecutive records first) (haccepted : Accepted records state) (hsolo : r.cache.Solo)
    (hdurable : r.Covers records)
    (hrun : (RedoEngine.run state).run r = (.ok (), r')) : Unbroken records r.cache.pages.pageCount := by
  intro entry hentry hwon earlier hearlier hbeyond hbefore
  by_contra hlost
  rw [RedoEngine.run, haccepted.analyzed.records] at hrun
  have hkept := @redoRecords_keeps records [] records state r r'
    (fun done r => r.cache.pages.pageCount ≤ earlier.pageId.index ∧ ∀ other ∈ allocationsIn done,
      won records other.transactionId = true → other.pageId.index < earlier.pageId.index) haccepted ?_ List.prefix_rfl hsolo
      hdurable ⟨hbeyond, nofun⟩ hrun
  · exact absurd (hkept.2.2.2 entry hentry hwon) hbefore.not_gt
  · rintro done record rest r r' hsplit - ⟨hcount, hdone⟩ hfits hredid
    -- A slot that is added is not the slot of the lost page, so it is one before it.
    have hnow : ∀ page, allocating records record = some page → page.index < earlier.pageId.index := by
      intro page hpage
      obtain ⟨-, hwon', hof⟩ := allocating_eq_some hpage
      refine lt_of_le_of_ne ((hfits.slot page hpage).1.trans hcount) fun heq => hlost ?_
      have hmem : ⟨record.lsn, record.transactionId, page⟩ ∈ allocationsIn records :=
        mem_allocationsIn.mpr ⟨record, hsplit.subset (by simp), hof⟩
      rw [← hlog.eq_of_index hmem hearlier heq]
      exact hwon'
    constructor
    · rw [hredid.pageCount, slotsAfter]
      cases hallocating : allocating records record with
      | none => exact hcount
      | some page => exact max_le hcount (hnow page hallocating)
    · intro other hother hother'
      rcases mem_allocationsIn_snoc.mp hother with hin | hof
      · exact hdone other hin hother'
      · refine hnow other.pageId ?_
        rw [allocating, ← (allocationOf_eq_some hof).2.2.2, hother', hof]
        rfl

/-- REDO goes through such a log, and rebuilds every page of a committed transaction, exactly when no lost page of one stands
behind a lost page of another transaction. -/
theorem redo_rebuilds_iff {file : Bytes} (hread : LogManager.readRecords file = .ok records)
    (hanalyze : RecoveryAnalyzer.analyze records = .ok state) (hlog : Consecutive records first) (hsolo : r.cache.Solo)
    (hdurable : ∀ record ∈ records, Cache.LsnDurable r.cache.walDurability record.lsn)
    (hfirst : first ≤ r.cache.pages.pageCount) :
    (∃ r', (RedoEngine.run state).run r = (.ok (), r') ∧ ∀ entry ∈ allocationsIn records,
      won records entry.transactionId = true →
        (r'.disk entry.pageId).isSome = true ∧ r'.cache.pages.isPageAllocated entry.pageId = true) ↔
      Unbroken records r.cache.pages.pageCount := by
  have haccepted := accepted_of_analyze hread hanalyze
  constructor
  · rintro ⟨r', hrun, -⟩
    exact unbroken_of_run hlog haccepted hsolo hdurable hrun
  · intro hunbroken
    rw [RedoEngine.run, haccepted.analyzed.records]
    obtain ⟨r', hrun, hsolo', hrebuilt⟩ := @redoRecords_succeeds records [] records state r
      (Rebuilt records r.cache.pages.pageCount) haccepted
      (fun _ _ _ _ hsplit _ h => ⟨h.fits hlog hunbroken hfirst hsplit, fun _ hredid => h.step hredid⟩) rfl hsolo hdurable
      ⟨le_rfl, nofun⟩
    refine ⟨r', hrun, fun entry hentry hwon => ?_⟩
    obtain ⟨hindex, halloc⟩ := hrebuilt.pages entry hentry hwon
    exact ⟨hsolo'.inv.pages.slots entry.pageId hindex, halloc⟩

/-- Two transactions have allocated a page each; the file they leave behind may have no slot at all. -/
def twoPages (ends : List WalRecord) : List WalRecord :=
  [⟨1, 1, .begin, []⟩, ⟨2, 1, .pageAllocate, leBytes 8 0⟩, ⟨3, 2, .begin, []⟩, ⟨4, 2, .pageAllocate, leBytes 8 1⟩] ++ ends

theorem consecutive_twoPages {ends : List WalRecord} (h : ∀ record ∈ ends, record.type = .commit) :
    Consecutive (twoPages ends) 0 := by
  have hallocations : allocationsIn (twoPages ends) = [⟨2, 1, .ofIndex 0⟩, ⟨4, 2, .ofIndex 1⟩] := by
    have hnone : ends.filterMap allocationOf = [] := by
      rw [List.filterMap_eq_nil_iff]
      intro record hmem
      rw [allocationOf, if_neg (by rw [h record hmem]; decide)]
    rw [allocationsIn, twoPages, List.filterMap_append, hnone]
    decide +kernel
  refine ⟨by rw [hallocations]; decide +kernel, by rw [hallocations]; decide +kernel, fun before record after hsplit entry hof => ?_⟩
  have hmem : record ∈ twoPages ends := by
    rw [← hsplit]
    simp
  rcases List.mem_append.mp hmem with hfirst | hend
  · have hnone : ∀ record ∈ twoPages [], mutationOf record = none := by decide +kernel
    rw [hnone record (by rw [twoPages, List.append_nil]; exact hfirst)] at hof
    cases hof
  · rw [mutationOf, if_neg (by rw [h record hend]; decide)] at hof
    cases hof

/-- Both are committed, and both pages are rebuilt. -/
theorem redo_rebuilds_twoPages : ∃ state r',
    RecoveryAnalyzer.analyze (twoPages [⟨5, 2, .commit, []⟩, ⟨6, 1, .commit, []⟩]) = .ok state ∧
      (RedoEngine.run state).run (fresh .empty 1 6) = (.ok (), r') ∧
      r'.cache.pages.isPageAllocated (.ofIndex 0) = true ∧ r'.cache.pages.isPageAllocated (.ofIndex 1) = true := by
  obtain ⟨log, hlog⟩ : ∃ log, log = twoPages [⟨5, 2, .commit, []⟩, ⟨6, 1, .commit, []⟩] := ⟨_, rfl⟩
  have hread : LogManager.readRecords (LogManager.fileOf log) = .ok log := by
    rw [hlog]
    decide +kernel
  have haccepts : (RecoveryAnalyzer.analyze log).isOk = true := by
    rw [hlog]
    rfl
  have hcovers : ∀ record ∈ log, record.lsn ≤ 6 := by
    rw [hlog]
    decide
  have hunbroken : Unbroken log 0 := by
    rw [hlog]
    decide +kernel
  rw [← hlog]
  cases hanalyze : RecoveryAnalyzer.analyze log with
  | error e =>
    rw [hanalyze] at haccepts
    cases haccepts
  | ok state =>
    obtain ⟨r', hrun, hpages⟩ := (redo_rebuilds_iff hread hanalyze (hlog ▸ consecutive_twoPages (by simp))
      (solo_fresh PageManager.wellFormed_empty PageManager.synced_empty Nat.one_pos)
      (fun record hmem => Or.inr ⟨6, rfl, hcovers record hmem⟩) le_rfl).mpr hunbroken
    have hwon : ∀ entry ∈ allocationsIn log, won log entry.transactionId = true := by
      rw [hlog]
      decide +kernel
    have hmem : ⟨2, 1, .ofIndex 0⟩ ∈ allocationsIn log ∧ ⟨4, 2, .ofIndex 1⟩ ∈ allocationsIn log := by
      rw [hlog]
      decide +kernel
    exact ⟨state, r', rfl, hrun, (hpages _ hmem.1 (hwon _ hmem.1)).2, (hpages _ hmem.2 (hwon _ hmem.2)).2⟩

/-- Only the second one is committed. Its page cannot be reached behind the lost page of the first. -/
theorem redo_stops_twoPages : ∃ state,
    LogManager.readRecords (LogManager.fileOf (twoPages [⟨5, 2, .commit, []⟩])) = .ok (twoPages [⟨5, 2, .commit, []⟩]) ∧
      RecoveryAnalyzer.analyze (twoPages [⟨5, 2, .commit, []⟩]) = .ok state ∧
      Consecutive (twoPages [⟨5, 2, .commit, []⟩]) 0 ∧
      ((RedoEngine.run state).run (fresh .empty 1 5)).1 =
        .error (.storage "recovery allocation would create a physical gap") := by
  have hrun : (RecoveryAnalyzer.analyze (twoPages [⟨5, 2, .commit, []⟩])).map
      (fun state => ((RedoEngine.run state).run (fresh .empty 1 5)).1) =
        .ok (.error (.storage "recovery allocation would create a physical gap")) := rfl
  have hread : LogManager.readRecords (LogManager.fileOf (twoPages [⟨5, 2, .commit, []⟩])) =
      .ok (twoPages [⟨5, 2, .commit, []⟩]) := by decide +kernel
  cases hanalyze : RecoveryAnalyzer.analyze (twoPages [⟨5, 2, .commit, []⟩]) with
  | error e =>
    rw [hanalyze] at hrun
    cases hrun
  | ok state =>
    rw [hanalyze] at hrun
    exact ⟨state, hread, rfl, consecutive_twoPages (by simp), Except.ok.inj hrun⟩

end Ddb.Recovery
