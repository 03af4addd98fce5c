import Ddb.Storage.PageManager
import Ddb.Lib.Run

/-!
# The page store over time

What the page manager is for: a list of pages, each allocated or not, that survives the end of the program. A call answers as
the list does, a call that the list refuses throws and changes nothing, and the file can be opened again at any time and
gives the same manager.
-/

namespace Ddb.Storage

open Ddb.Lib

/-- The calls that work on the catalog and the pages, and a reopening of the file. -/
inductive StoreCall where
  | reservePage
  | activateReservedPage (id : PageId)
  | allocatePage
  | deallocatePage (id : PageId)
  | writePage (id : PageId) (page : Page)
  | reopen

namespace PageManager

/-- A new manager on the same file takes the place of this one. -/
def reopen : PageOp Unit := do
  match openFile (← get).file with
  | .ok pm => set pm
  | .error e => throw e

/-- What a call does, and the id it hands out, if any. -/
def perform : StoreCall → PageOp (Option PageId)
  | .reservePage => do return some (← reservePage)
  | .activateReservedPage id => do
    activateReservedPage id
    return none
  | .allocatePage => do return some (← allocatePage)
  | .deallocatePage id => do
    deallocatePage id
    return none
  | .writePage id page => do
    writePage id page
    return none
  | .reopen => do
    reopen
    return none

def call (pm : PageManager) (c : StoreCall) : PageManager := ((perform c).run pm).2

/-- The ids that a list of calls hands out. -/
def handedOut : PageManager → List StoreCall → List PageId
  | _, [] => []
  | pm, c :: rest =>
    match (perform c).run pm with
    | (.ok (some id), pm') => id :: handedOut pm' rest
    | (_, pm') => handedOut pm' rest

end PageManager

/-! ## The ledger -/

structure LedgerPage where
  allocated : Bool
  lsn : Nat
  payload : Payload

/-- The pages in the order of their ids. -/
abbrev Ledger := List LedgerPage

namespace Ledger

/-- A new page at the end. -/
def extend (ledger : Ledger) (allocated : Bool) : Option (Option PageId) × Ledger :=
  if ledger.length < PageManager.kCatalogBits then
    (some (some (.ofIndex ledger.length)), ledger ++ [⟨allocated, 0, .zero⟩])
  else (none, ledger)

/-- Another page in the place of an old one, if there is an old one and it permits that. -/
def change (ledger : Ledger) (id : PageId) (f : LedgerPage → Option LedgerPage) : Option (Option PageId) × Ledger :=
  match ledger[id.index]?.bind f with
  | some page => (some none, ledger.set id.index page)
  | none => (none, ledger)

/-- What a call answers, nothing when it is refused. -/
def perform (ledger : Ledger) : StoreCall → Option (Option PageId) × Ledger
  | .reservePage => ledger.extend false
  | .allocatePage => ledger.extend true
  | .activateReservedPage id => ledger.change id fun old => if old.allocated then none else some { old with allocated := true }
  | .deallocatePage id => ledger.change id fun old => if old.allocated then some { old with allocated := false } else none
  | .writePage id page => ledger.change id fun old =>
      if old.allocated ∧ page.id = id then some ⟨true, page.lsn, page.payload⟩ else none
  | .reopen => (some none, ledger)

def call (ledger : Ledger) (c : StoreCall) : Ledger := (ledger.perform c).2

end Ledger

namespace PageManager

variable {pm pm' : PageManager} {ledger : Ledger} {id : PageId}

/-! ## One call -/

/-- The manager and its file hold this ledger. -/
structure Keeps (pm : PageManager) (ledger : Ledger) : Prop where
  wellFormed : pm.WellFormed
  synced : pm.Synced
  pages : ∀ id : PageId, ledger[id.index]? = (pm.slot id).map fun page => ⟨pm.isPageAllocated id, page.lsn, page.payload⟩
  pageCount : pm.pageCount = ledger.length

/-- A call does to the manager what it does to the ledger. -/
structure Agrees (pm : PageManager) (c : StoreCall) (next : Option (Option PageId) × Ledger) : Prop where
  answer : ((perform c).run pm).1.toOption = next.1
  keeps : Keeps (pm.call c) next.2
  refused : next.1 = none → pm.call c = pm

theorem agrees_done {c : StoreCall} {answer : Option PageId} (hrun : (perform c).run pm = (.ok answer, pm'))
    (h : Keeps pm' ledger) : Agrees pm c (some answer, ledger) := by
  have hcall : pm.call c = pm' := by rw [call, hrun]
  exact ⟨by rw [hrun]; rfl, hcall ▸ h, nofun⟩

theorem agrees_refused {c : StoreCall} {e : Err} (hrun : (perform c).run pm = (.error e, pm)) (h : Keeps pm ledger) :
    Agrees pm c (none, ledger) := by
  have hcall : pm.call c = pm := by rw [call, hrun]
  exact ⟨by rw [hrun]; rfl, hcall.symm ▸ h, fun _ => hcall⟩

theorem Keeps.page (h : Keeps pm ledger) {old : LedgerPage} (hold : ledger[id.index]? = some old) :
    id.index < pm.pageCount ∧ pm.slot id = some ⟨id, old.lsn, old.payload⟩ ∧ pm.isPageAllocated id = old.allocated := by
  have hindex : id.index < pm.pageCount := h.pageCount ▸ (List.getElem?_eq_some_iff.mp hold).1
  obtain ⟨page, hslot, hid⟩ := h.wellFormed.slot_isSome hindex
  have hpage := h.pages id
  rw [hold, hslot, Option.map_some, Option.some.injEq] at hpage
  subst hpage
  refine ⟨hindex, ?_, rfl⟩
  rw [hslot, ← hid]

theorem Keeps.isPageAllocated_iff (h : Keeps pm ledger) :
    pm.isPageAllocated id = true ↔ ∃ page, ledger[id.index]? = some page ∧ page.allocated = true := by
  constructor
  · intro halloc
    obtain ⟨page, hslot, -⟩ := h.wellFormed.slot_isSome (PageManager.isPageAllocated_iff.mp halloc).2.1
    refine ⟨_, (h.pages id).trans (congrArg (Option.map _) hslot), halloc⟩
  · rintro ⟨page, hpage, halloc⟩
    rw [(h.page hpage).2.2, halloc]

/-- One page has changed. -/
theorem Keeps.set (h : Keeps pm ledger) {page : LedgerPage} (hindex : id.index < pm.pageCount) (hwf : pm'.WellFormed)
    (hsynced : pm'.Synced) (hcount : pm'.pageCount = pm.pageCount) (hslot : pm'.slot id = some ⟨id, page.lsn, page.payload⟩)
    (hbit : pm'.isPageAllocated id = page.allocated)
    (hother : ∀ other, other ≠ id → pm'.slot other = pm.slot other ∧ pm'.isPageAllocated other = pm.isPageAllocated other) :
    Keeps pm' (ledger.set id.index page) := by
  refine ⟨hwf, hsynced, fun other => ?_, by rw [hcount, h.pageCount, List.length_set]⟩
  by_cases heq : other = id
  · subst heq
    rw [List.getElem?_set_self (h.pageCount ▸ hindex), hslot, hbit]
    rfl
  · have hne : id.index ≠ other.index := fun hsame => heq (PageId.ext_index hsame.symm)
    rw [List.getElem?_set_ne hne, (hother other heq).1, (hother other heq).2]
    exact h.pages other

/-- There is one page more. -/
theorem Keeps.append (h : Keeps pm ledger) {allocated : Bool} (hroom : pm.pageCount < kCatalogBits) (hwf : pm'.WellFormed)
    (hsynced : pm'.Synced) (hcount : pm'.pageCount = pm.pageCount + 1)
    (hslot : pm'.slot (.ofIndex pm.pageCount) = some ⟨.ofIndex pm.pageCount, 0, .zero⟩)
    (hbit : pm'.isPageAllocated (.ofIndex pm.pageCount) = allocated)
    (hother : ∀ other, other ≠ .ofIndex pm.pageCount →
      pm'.slot other = pm.slot other ∧ pm'.isPageAllocated other = pm.isPageAllocated other) :
    Keeps pm' (ledger ++ [⟨allocated, 0, .zero⟩]) := by
  have hlast := index_ofIndex_of_le hroom.le
  refine ⟨hwf, hsynced, fun other => ?_, by rw [hcount, h.pageCount, List.length_append, List.length_singleton]⟩
  by_cases heq : other = .ofIndex pm.pageCount
  · subst heq
    rw [hlast, hslot, hbit, h.pageCount, List.getElem?_concat_length]
    rfl
  · have hne : other.index ≠ ledger.length := fun hsame => heq (PageId.ext_index (hsame.trans (h.pageCount ▸ hlast.symm)))
    rw [(hother other heq).1, (hother other heq).2, ← h.pages other]
    rcases Nat.lt_or_gt_of_ne hne with hlt | hgt
    · exact List.getElem?_append_left hlt
    · rw [List.getElem?_eq_none hgt.le, List.getElem?_eq_none]
      rw [List.length_append, List.length_singleton]
      exact hgt

theorem Keeps.agrees_reservePage (h : Keeps pm ledger) : Agrees pm .reservePage (ledger.perform .reservePage) := by
  rw [Ledger.perform, Ledger.extend, ← h.pageCount]
  split
  · rename_i hroom
    rcases reservePage_cases pm with ⟨e, pm', -, -, hreason⟩ | ⟨pm', hrun, hreserved⟩
    · exact absurd h.synced (hreason hroom)
    have hwf := hreserved.wellFormed h.wellFormed
    have hdone : (perform .reservePage).run pm = (.ok (some (.ofIndex pm.pageCount)), pm') := by
      rw [perform, Op.bind_ok hrun]
      rfl
    refine agrees_done hdone ?_
    refine h.append hroom hwf (hreserved.synced h.synced) hreserved.pageCount (by rw [hreserved.slot, if_pos rfl]) ?_
      fun other hne => ⟨by rw [hreserved.slot, if_neg hne], hreserved.isPageAllocated h.wellFormed other⟩
    rw [hreserved.isPageAllocated h.wellFormed, isPageAllocated, index_ofIndex_of_le hroom.le]
    simp
  · rename_i hfull
    refine agrees_refused (e := .storage "allocation catalog capacity exhausted") ?_ h
    rw [perform, Op.bind_error]
    rw [reservePage, Op.get_bind, Op.throwIf_bind_pos (Nat.le_of_not_lt hfull)]

theorem slot_of_le (h : pm.pageCount ≤ id.index) : pm.slot id = none := by
  rw [slot, if_neg (Nat.not_lt.mpr h)]

theorem isPageAllocated_of_le (h : pm.pageCount ≤ id.index) : pm.isPageAllocated id = false := by
  rw [isPageAllocated, decide_eq_false (Nat.not_lt.mpr h), Bool.and_false, Bool.false_and]

theorem Keeps.agrees_allocatePage (h : Keeps pm ledger) : Agrees pm .allocatePage (ledger.perform .allocatePage) := by
  rw [Ledger.perform, Ledger.extend, ← h.pageCount]
  split
  · rename_i hroom
    obtain ⟨outcome, pm', hrun, hgrown, hok, hsome⟩ := allocatePage_cases h.wellFormed
    obtain ⟨id, rfl⟩ := hsome hroom h.synced
    obtain ⟨rfl, halloc, hcount, hslot⟩ := hok id rfl
    have hdone : (perform .allocatePage).run pm = (.ok (some (.ofIndex pm.pageCount)), pm') := by
      rw [perform, Op.bind_ok hrun]
      rfl
    refine agrees_done hdone ?_
    refine h.append hroom hgrown.wellFormed (hgrown.synced h.synced) hcount hslot halloc fun other hne => ?_
    by_cases hlt : other.index < pm.pageCount
    · exact ⟨hgrown.slot other hlt, hgrown.bit other hlt⟩
    · have hindex : other.index ≠ pm.pageCount := fun heq => hne (by rw [← heq, PageId.ofIndex_index])
      have hbeyond : pm'.pageCount ≤ other.index := by omega
      rw [slot_of_le hbeyond, slot_of_le (Nat.le_of_not_lt hlt), isPageAllocated_of_le hbeyond,
        isPageAllocated_of_le (Nat.le_of_not_lt hlt)]
      exact ⟨rfl, rfl⟩
  · rename_i hfull
    refine agrees_refused (e := .storage "allocation catalog capacity exhausted") ?_ h
    rw [perform, Op.bind_error]
    rw [allocatePage, Op.bind_error]
    rw [reservePage, Op.get_bind, Op.throwIf_bind_pos (Nat.le_of_not_lt hfull)]

/-- A change of one page, which the ledger permits or refuses. -/
theorem Keeps.agrees_change (h : Keeps pm ledger) {c : StoreCall} {f : LedgerPage → Option LedgerPage}
    (hrefused : ledger[id.index]?.bind f = none → ∃ e, (perform c).run pm = (.error e, pm))
    (hdone : ∀ old page, ledger[id.index]? = some old → f old = some page →
      ∃ pm', (perform c).run pm = (.ok none, pm') ∧ Keeps pm' (ledger.set id.index page)) :
    Agrees pm c (ledger.change id f) := by
  rw [Ledger.change]
  cases hchange : ledger[id.index]?.bind f with
  | none =>
    obtain ⟨e, hrun⟩ := hrefused hchange
    exact agrees_refused hrun h
  | some page =>
    obtain ⟨old, hold, hpage⟩ := Option.bind_eq_some_iff.mp hchange
    obtain ⟨pm', hrun, hkeeps⟩ := hdone old page hold hpage
    exact agrees_done hrun hkeeps

theorem BitSet.keeps {value : Bool} (hbit : BitSet pm pm' id value) (h : Keeps pm ledger) {old : LedgerPage}
    (hold : ledger[id.index]? = some old) : Keeps pm' (ledger.set id.index { old with allocated := value }) := by
  obtain ⟨hindex, hslot, -⟩ := h.page hold
  refine h.set hindex hbit.wellFormed (hbit.synced h.synced) hbit.pageCount ((hbit.slot id).trans hslot)
    (by rw [hbit.bit, if_pos rfl]) fun other hne => ⟨hbit.slot other, by rw [hbit.bit, if_neg hne]⟩

theorem Keeps.agrees_activateReservedPage (h : Keeps pm ledger) (id : PageId) :
    Agrees pm (.activateReservedPage id) (ledger.perform (.activateReservedPage id)) := by
  refine h.agrees_change (fun hnone => ?_) fun old page hold hpage => ?_
  · rcases @activateReservedPage_cases pm id h.wellFormed with ⟨e, hrun, -⟩ | ⟨outcome, pm', -, hfree, hindex, -, -⟩
    · exact ⟨e, by rw [perform, Op.bind_error hrun]⟩
    · obtain ⟨old, hold⟩ : ∃ old, ledger[id.index]? = some old := ⟨_, List.getElem?_eq_getElem (h.pageCount ▸ hindex)⟩
      rw [hold, Option.bind_some, ← (h.page hold).2.2, hfree] at hnone
      cases hnone
  · obtain ⟨hindex, -, halloc⟩ := h.page hold
    split at hpage
    · cases hpage
    rename_i hfree
    obtain rfl := Option.some.inj hpage
    rcases @activateReservedPage_cases pm id h.wellFormed with ⟨e, -, hreason⟩ | ⟨outcome, pm', hrun, -, -, hbit, hok⟩
    · have hvalid : id.isValid = true := by
        rw [← PageId.ofIndex_index id]
        exact isValid_ofIndex_of_le (hindex.le.trans h.wellFormed.capacity)
      exact absurd (halloc.symm.trans (hreason hvalid hindex)) hfree
    · rw [hok h.synced] at hrun
      exact ⟨pm', by rw [perform, Op.bind_ok hrun]; rfl, hbit.keeps h hold⟩

theorem Keeps.agrees_deallocatePage (h : Keeps pm ledger) (id : PageId) :
    Agrees pm (.deallocatePage id) (ledger.perform (.deallocatePage id)) := by
  rcases @deallocatePage_cases pm id h.wellFormed with ⟨e, hrun, hfree⟩ | ⟨outcome, pm', hrun, halloc, hbit, hok⟩
  · refine h.agrees_change (fun _ => ⟨e, by rw [perform, Op.bind_error hrun]⟩) fun old page hold hpage => ?_
    rw [← (h.page hold).2.2, hfree] at hpage
    cases hpage
  · obtain ⟨old, hold, hallocated⟩ := h.isPageAllocated_iff.mp halloc
    rw [hok h.synced] at hrun
    refine h.agrees_change (fun hnone => ?_) fun old' page hold' hpage => ⟨pm', by rw [perform, Op.bind_ok hrun]; rfl, ?_⟩
    · rw [hold, Option.bind_some, hallocated] at hnone
      cases hnone
    · obtain rfl := Option.some.inj (hold.symm.trans hold')
      rw [hallocated] at hpage
      obtain rfl := Option.some.inj hpage
      exact hbit.keeps h hold

/-- No access has failed, so there is no answer of the file system left to take. -/
theorem Synced.answered_eq (h : pm.Synced) : pm.answered = pm := by
  have hfaults := h.healthy
  obtain ⟨⟨block, blocks, faults⟩, pageCount, bitmap, allocated⟩ := pm
  obtain rfl : faults = [] := hfaults
  rfl

theorem Keeps.agrees_writePage (h : Keeps pm ledger) (id : PageId) (page : Page) :
    Agrees pm (.writePage id page) (ledger.perform (.writePage id page)) := by
  by_cases halloc : pm.isPageAllocated id = true
  · obtain ⟨old, hold, hallocated⟩ := h.isPageAllocated_iff.mp halloc
    by_cases hid : page.id = id
    · have hrun := writePage_run h.wellFormed halloc hid
      rw [if_neg h.synced.not_failsNext, h.synced.answered_eq] at hrun
      refine h.agrees_change (fun hnone => ?_) fun old' page' hold' hpage =>
        ⟨pm.store id page, by rw [perform, Op.bind_ok hrun]; rfl, ?_⟩
      · rw [hold, Option.bind_some, if_pos ⟨hallocated, hid⟩] at hnone
        cases hnone
      · obtain rfl := Option.some.inj (hold.symm.trans hold')
        rw [if_pos ⟨hallocated, hid⟩] at hpage
        obtain rfl := Option.some.inj hpage
        have hindex := (h.page hold).1
        refine h.set hindex (h.wellFormed.store hindex page) (h.synced.store hindex page) rfl ?_ halloc fun other hne => ?_
        · rw [slot_store hindex, if_pos rfl]
        · exact ⟨by rw [slot_store hindex, if_neg hne], rfl⟩
    · refine h.agrees_change (fun _ => ⟨_, by rw [perform, Op.bind_error (writePage_mismatch h.wellFormed halloc hid)]⟩)
        fun old' page' hold' hpage => ?_
      rw [if_neg fun hboth => hid hboth.2] at hpage
      cases hpage
  · obtain ⟨e, hrun⟩ := writePage_unallocated (Bool.eq_false_iff.mpr halloc) page
    refine h.agrees_change (fun _ => ⟨e, by rw [perform, Op.bind_error hrun]⟩) fun old page' hold hpage => ?_
    rw [if_neg fun hboth => halloc ((h.page hold).2.2.trans hboth.1)] at hpage
    cases hpage

theorem Keeps.agrees_reopen (h : Keeps pm ledger) : Agrees pm .reopen (ledger.perform .reopen) := by
  have hreopen : reopen.run pm = (.ok (), pm) := by
    rw [reopen, Op.get_bind, openFile_synced h.wellFormed h.synced]
    rfl
  have hdone : (perform .reopen).run pm = (.ok none, pm) := by rw [perform, Op.bind_ok hreopen]; rfl
  exact agrees_done hdone h

theorem Keeps.agrees (h : Keeps pm ledger) (c : StoreCall) : Agrees pm c (ledger.perform c) := by
  cases c with
  | reservePage => exact h.agrees_reservePage
  | activateReservedPage id => exact h.agrees_activateReservedPage id
  | allocatePage => exact h.agrees_allocatePage
  | deallocatePage id => exact h.agrees_deallocatePage id
  | writePage id page => exact h.agrees_writePage id page
  | reopen => exact h.agrees_reopen

/-! ## Whole runs -/

theorem keeps_empty : Keeps empty [] where
  wellFormed := wellFormed_empty
  synced := synced_empty
  pages := fun id => by rw [slot_of_le (Nat.zero_le _)]; rfl
  pageCount := rfl

theorem Keeps.exec (h : Keeps pm ledger) (run : List StoreCall) :
    Keeps (Lib.exec call pm run) (Lib.exec Ledger.call ledger run) := by
  induction run generalizing pm ledger with
  | nil => exact h
  | cons c rest ih => exact ih (h.agrees c).keeps

theorem countAllocated_of_clear {bitmap : Bytes} {n m : Nat} (hle : n ≤ m) (hclear : ∀ i, n ≤ i → testBit bitmap i = false) :
    countAllocated bitmap m = countAllocated bitmap n := by
  induction m, hle using Nat.le_induction with
  | base => rfl
  | succ m hm ih => rw [countAllocated_succ, ih, hclear m hm, Bool.toNat_false, Nat.add_zero]

/-- What can be seen of a manager, now and by a program that opens the file later. -/
structure Shows (pm : PageManager) (ledger : Ledger) : Prop where
  pageCount : pm.pageCount = ledger.length
  allocated : ∀ id : PageId, pm.isPageAllocated id = true ↔ ∃ page, ledger[id.index]? = some page ∧ page.allocated = true
  /-- Of all bits in the catalog. -/
  count : pm.allocatedPageCount = countAllocated pm.allocationBitmap kCatalogBits
  clear : ∀ i, pm.pageCount ≤ i → testBit pm.allocationBitmap i = false
  read : ∀ (id : PageId) (page : LedgerPage), ledger[id.index]? = some page → page.allocated = true →
    (readPage id).run pm = (.ok ⟨id, page.lsn, page.payload⟩, pm)
  unreadable : ∀ id, pm.isPageAllocated id = false → ∃ e, (readPage id).run pm = (.error e, pm)
  reopened : openFile pm.file = .ok pm

theorem Keeps.shows (h : Keeps pm ledger) : Shows pm ledger where
  pageCount := h.pageCount
  allocated _ := h.isPageAllocated_iff
  count := by rw [h.wellFormed.count, countAllocated_of_clear h.wellFormed.capacity h.wellFormed.clear_above]
  clear := h.wellFormed.clear_above
  read id page hpage halloc := by
    obtain ⟨-, hslot, hbit⟩ := h.page hpage
    rw [readPage_run h.wellFormed (hbit.trans halloc) hslot, if_neg h.synced.not_failsNext, h.synced.answered_eq]
  unreadable id hfree := by
    obtain ⟨e, he⟩ := validateLogicallyAllocated_unallocated hfree
    exact ⟨e, by rw [readPage, Op.bind_error he]⟩
  reopened := openFile_synced h.wellFormed h.synced

end PageManager

namespace Ledger

variable {ledger : Ledger} {id : PageId}

theorem length_change (ledger : Ledger) (id : PageId) (f : LedgerPage → Option LedgerPage) :
    (ledger.change id f).2.length = ledger.length ∧ ∀ new, (ledger.change id f).1 ≠ some (some new) := by
  rw [change]
  split
  · exact ⟨List.length_set, by simp⟩
  · exact ⟨rfl, by simp⟩

/-- An id is handed out with the page it belongs to. -/
theorem length_call (ledger : Ledger) (c : StoreCall) : ledger.length ≤ (ledger.call c).length ∧
    ∀ id, (ledger.perform c).1 = some (some id) → id.index = ledger.length ∧ (ledger.call c).length = ledger.length + 1 := by
  have hextend : ∀ allocated, ledger.length ≤ (ledger.extend allocated).2.length ∧ ∀ id, (ledger.extend allocated).1 = some (some id) →
      id.index = ledger.length ∧ (ledger.extend allocated).2.length = ledger.length + 1 := by
    intro allocated
    rw [extend]
    split
    · rename_i hroom
      refine ⟨by simp, fun id hid => ?_⟩
      obtain rfl := Option.some.inj (Option.some.inj hid)
      exact ⟨PageManager.index_ofIndex_of_le hroom.le, List.length_append⟩
    · exact ⟨le_refl _, nofun⟩
  have hchange : ∀ id f, ledger.length ≤ (ledger.change id f).2.length ∧ ∀ new, (ledger.change id f).1 = some (some new) →
      new.index = ledger.length ∧ (ledger.change id f).2.length = ledger.length + 1 := fun id f =>
    ⟨(length_change ledger id f).1.ge, fun new hnew => absurd hnew ((length_change ledger id f).2 new)⟩
  cases c with
  | reservePage => exact hextend false
  | activateReservedPage id => exact hchange id _
  | allocatePage => exact hextend true
  | deallocatePage id | writePage id page => exact hchange id _
  | reopen => exact ⟨le_refl _, nofun⟩

end Ledger

namespace PageManager

variable {pm pm' : PageManager} {ledger : Ledger} {id : PageId}

/-- The ids are handed out in the order of the pages. -/
theorem Keeps.handedOut (h : Keeps pm ledger) (run : List StoreCall) :
    (∀ id ∈ pm.handedOut run, ledger.length ≤ id.index) ∧ (pm.handedOut run).Nodup := by
  induction run generalizing pm ledger with
  | nil => exact ⟨nofun, List.nodup_nil⟩
  | cons c rest ih =>
    obtain ⟨hle, hnew⟩ := ledger.length_call c
    have hagrees := h.agrees c
    obtain ⟨hrest, hnodup⟩ := ih hagrees.keeps
    have hkept : ∀ id ∈ (pm.call c).handedOut rest, ledger.length ≤ id.index := fun id hid => hle.trans (hrest id hid)
    have hanswer := hagrees.answer
    have hcall : pm.call c = ((perform c).run pm).2 := rfl
    rw [PageManager.handedOut]
    rw [hcall] at hrest hnodup hkept
    generalize (perform c).run pm = result at *
    obtain ⟨outcome, pm'⟩ := result
    match outcome with
    | .ok (some id) =>
      obtain ⟨hindex, hlength⟩ := hnew id hanswer.symm
      refine ⟨fun other hother => ?_, List.nodup_cons.mpr ⟨fun hin => ?_, hnodup⟩⟩
      · rcases List.mem_cons.mp hother with rfl | hother
        · exact hindex.ge
        · exact hkept other hother
      · have hbelow := hrest id hin
        change (ledger.call c).length ≤ id.index at hbelow
        omega
    | .ok none => exact ⟨hkept, hnodup⟩
    | .error e => exact ⟨hkept, hnodup⟩

/-- **Persistence.** After any calls, reopenings of the file among them, the store shows the ledger, the next call answers as
it does on the ledger and changes nothing when it is refused, and no id has been handed out twice. -/
theorem page_store_persists (run : List StoreCall) :
    Shows (Lib.exec call empty run) (Lib.exec Ledger.call [] run) ∧
      (∀ c, ((perform c).run (Lib.exec call empty run)).1.toOption = (Ledger.perform (Lib.exec Ledger.call [] run) c).1 ∧
        ((Ledger.perform (Lib.exec Ledger.call [] run) c).1 = none → (Lib.exec call empty run).call c = Lib.exec call empty run)) ∧
      (empty.handedOut run).Nodup := by
  have hkeeps := keeps_empty.exec run
  refine ⟨hkeeps.shows, fun c => ?_, (keeps_empty.handedOut run).2⟩
  exact ⟨(hkeeps.agrees c).answer, (hkeeps.agrees c).refused⟩

end PageManager

end Ddb.Storage
