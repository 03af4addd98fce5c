import Ddb.Execution.HeapReading
import Ddb.Execution.HeapRefinement
import Ddb.Lib.PagedAnswer

/-!
# The check of a table heap

`validate_invariants` walks the chain and looks at the directory and the live tuples of every page. It answers on pages of any
content without leaving them, and what passes can be read: a scan returns, and every record it returns can be looked up. It
passes on every heap that a table describes.
-/

namespace Ddb.Execution

open Ddb.Lib Ddb.Storage Ddb.Index Ddb.Concurrency

namespace TableHeap

/-- The slots from `i` on, up to the first bad one. The tuple of a live slot begins behind `end` and lies in the page. -/
def validateSlots (schema : Schema) (page : Payload) : Nat → Nat → Except Err Bool
  | 0, _ => .ok true
  | n + 1, i =>
    match readSlot page i with
    | none => .error .outOfBounds
    | some slot =>
      if slot.live = 0 ∨ get16 page 20 ≤ slot.offset ∧ (readTuple schema page slot).isSome = true then
        validateSlots schema page n (i + 1)
      else .ok false

def validatePage (schema : Schema) (page : Payload) : Except Err Bool :=
  let slots := get16 page 16
  let start := get16 page 18
  let end' := get16 page 20
  if hasMagic page kDataMagic ∧ start = kHeader + slots * kSlot ∧ end' ≤ kPagePayloadSize ∧ start ≤ end' then
    validateSlots schema page slots 0
  else .ok false

def validateLoop (schema : Schema) : Nat → PageId → HeapOp Bool
  | 0, _ => throw .outOfFuel
  | fuel + 1, id => do
    if id.isValid = false then return true
    match ← Method.access id fun _ => none with
    | none => return false
    | some page =>
      if ← Method.ofExcept (validatePage schema page) then validateLoop schema fuel (getPageId page 8) else return false

/-- Exceptions are caught; a read outside a page and a chain without an end are none. -/
def validateInvariants : HeapOp Bool := do
  let heap ← get
  tryCatch (validateLoop heap.schema (2 ^ 64) heap.first) fun e => if e = .outOfFuel ∨ e = .outOfBounds then throw e else return false

end TableHeap

open TableHeap

variable {m : Memory PageId Payload} {full : Err} {page : Payload} {heap : TableHeap} {schema : Schema} {id : PageId} {n i : Nat}

/-! ## One page -/

/-- A scan of the slots from `i` on returns, and `get` reads the rows of it from the page. -/
def Readable (schema : Schema) (page : Payload) (n i : Nat) : Prop :=
  ∀ id, ∃ rows, scanSlots schema id page n i = .ok rows ∧ ∀ row ∈ rows, row.1.pageId = id ∧
    hasSlot page row.1.slotId = true ∧ (readSlot page row.1.slotId.toNat).bind (readTuple schema page) = some row.2

/-- A directory in the page is gone through to its end, and what passes is readable. -/
theorem validateSlots_total (hmagic : hasMagic page kDataMagic = true)
    (hcount : kHeader + get16 page 16 * kSlot ≤ kPagePayloadSize) (hn : i + n ≤ get16 page 16) :
    validateSlots schema page n i = .ok false ∨ validateSlots schema page n i = .ok true ∧ Readable schema page n i := by
  induction n generalizing i with
  | zero => exact .inr ⟨rfl, fun id => ⟨[], rfl, by simp⟩⟩
  | succ n ih =>
    simp only [kSlot, kPagePayloadSize_eq] at hcount
    have hin : kHeader + i * kSlot + kSlot ≤ kPagePayloadSize := by
      simp only [kSlot, kPagePayloadSize_eq]
      omega
    obtain ⟨slot, hslot⟩ : ∃ slot, readSlot page i = some slot := ⟨_, if_pos hin⟩
    simp only [validateSlots, Readable, scanSlots, hslot]
    split
    case isFalse => exact .inl rfl
    case isTrue hok =>
      rcases ih (i := i + 1) (by omega) with hbad | ⟨hgood, hread⟩
      · exact .inl hbad
      refine .inr ⟨hgood, fun id => ?_⟩
      obtain ⟨rows, hrows, hread⟩ := hread id
      by_cases hdead : slot.live = 0
      · exact ⟨rows, by rw [if_pos hdead, hrows], hread⟩
      · obtain ⟨tuple, htuple⟩ := Option.isSome_iff_exists.mp (hok.resolve_left hdead).2
        have hi : i < get16 page 16 := by omega
        have hnat : (UInt32.ofNat i).toNat = i := UInt32.toNat_ofNat_of_lt (by simp only [UInt32.size]; omega)
        refine ⟨(⟨id, UInt32.ofNat i⟩, tuple) :: rows, ?_, List.forall_mem_cons.mpr ⟨⟨rfl, ?_, ?_⟩, hread⟩⟩
        · rw [readTuple, Option.ite_none_left_eq_some, not_or, not_lt] at htuple
          rw [if_neg hdead, if_neg (not_lt.mpr htuple.1.2), htuple.2, hrows]
          rfl
        · simp [hasSlot, hmagic, hnat, hi]
        · dsimp only
          rw [hnat, hslot, Option.bind_some, htuple]

theorem validatePage_total (schema : Schema) (page : Payload) : validatePage schema page = .ok false ∨
    validatePage schema page = .ok true ∧ hasMagic page kDataMagic = true ∧ Readable schema page (get16 page 16) 0 := by
  rw [validatePage]
  split
  case isFalse => exact .inl rfl
  case isTrue h =>
    obtain ⟨hmagic, hstart, hend, hle⟩ := h
    exact (validateSlots_total hmagic (by omega) (by omega)).imp_right fun h => ⟨h.1, hmagic, h.2⟩

/-! ## The chain -/

theorem answer_getRecord {r : RecordId} {tuple : Tuple} (hvalid : r.pageId.isValid = true) (hpage : m r.pageId = some page)
    (hhas : hasSlot page r.slotId = true)
    (h : (readSlot page r.slotId.toNat).bind (readTuple heap.schema page) = some tuple) :
    (getRecord r).answer full m heap = .ok (some tuple) := by
  obtain ⟨slot, hslot, htuple⟩ := Option.bind_eq_some_iff.mp h
  rw [getRecord, Method.answer_get_bind, hvalid, if_neg (by decide), Method.answer_look, hpage]
  simp [hhas, hslot, htuple]

theorem reads_scanLoop (fuel : Nat) (id : PageId) : (scanLoop schema fuel id).Reads := fun _ =>
  PageProg.Reads.mono (tells_scanLoop fuel id) fun _ h => h.1

/-- The loop stays in the pages, and what it passes is scanned in as many turns. -/
theorem validateLoop_sound (fuel : Nat) (id : PageId) :
    (validateLoop heap.schema fuel id).answer full m heap ≠ .error .outOfBounds ∧
    ((validateLoop heap.schema fuel id).answer full m heap = .ok true →
      ∃ rows, (scanLoop heap.schema fuel id).answer full m heap = .ok rows ∧
        ∀ row ∈ rows, (getRecord row.1).answer full m heap = .ok (some row.2)) := by
  induction fuel generalizing id with
  | zero => simp [validateLoop]
  | succ fuel ih =>
    rw [validateLoop, scanLoop]
    cases hid : id.isValid with
    | false => exact ⟨by simp, fun _ => ⟨[], rfl, by simp⟩⟩
    | true =>
      rw [if_neg (by decide), if_neg (by decide), Method.answer_look, Method.answer_bind (Method.reads_pin _ fun _ => rfl),
        Method.answer_pin]
      cases hpage : m id with
      | none => simp
      | some page =>
        rcases validatePage_total heap.schema page with hbad | ⟨hgood, hmagic, hscan⟩
        · simp [hbad, Method.answer_ofExcept_bind]
        · simp only [hgood, Method.answer_ofExcept_bind, if_true]
          refine ⟨(ih _).1, fun h => ?_⟩
          obtain ⟨rest, hrest, hfound⟩ := (ih _).2 h
          obtain ⟨rows, hrows, hread⟩ := hscan id
          refine ⟨rows ++ rest, ?_, fun row hrow => ?_⟩
          · rw [ok_bind, hmagic, if_neg (by decide), hrows]
            dsimp only
            rw [Method.answer_bind (reads_scanLoop fuel _), hrest]
            rfl
          · rcases List.mem_append.mp hrow with hrow | hrow
            · obtain ⟨rfl, hhas, htuple⟩ := hread row hrow
              exact answer_getRecord hid hpage hhas htuple
            · exact hfound row hrow

theorem reads_validateLoop (fuel : Nat) (id : PageId) : (validateLoop schema fuel id).Reads := by
  induction fuel generalizing id with
  | zero => exact Method.reads_throw _
  | succ fuel ih =>
    rw [validateLoop]
    split
    · exact Method.reads_pure _
    · refine (Method.reads_access fun _ => rfl).bind fun page => ?_
      split
      · exact Method.reads_pure _
      · refine Method.Reads.bind (fun _ => rfl) fun ok => ?_
        split
        · exact ih _
        · exact Method.reads_pure _

/-- **The check is sound.** On pages of any content it reads only inside them. If it passes, a scan returns, and every record it
returns is found by `get` with the same tuple. -/
theorem checked_heap_reads (m : Memory PageId Payload) (heap : TableHeap) (full : Err) :
    validateInvariants.answer full m heap ≠ .error .outOfBounds ∧
    (validateInvariants.answer full m heap = .ok true → ∃ rows, scan.answer full m heap = .ok rows ∧
      ∀ row ∈ rows, (getRecord row.1).answer full m heap = .ok (some row.2)) := by
  have hloop := @validateLoop_sound m full heap (2 ^ 64) heap.first
  rw [validateInvariants, Method.answer_get_bind, Method.answer_tryCatch (reads_validateLoop _ _), scan, Method.answer_get_bind]
  generalize (validateLoop heap.schema (2 ^ 64) heap.first).answer full m heap = answer at hloop ⊢
  cases answer with
  | ok ok => exact hloop
  | error e =>
    dsimp only
    split
    · exact ⟨hloop.1, by simp⟩
    · simp

/-! ## Heaps in order -/

variable {next : PageId} {rows : List Row} {chain : List DataPage}

theorem Slotted.validateSlots (h : Slotted page next rows) (hschema : Conforms schema rows) (hn : i + n = rows.length) :
    validateSlots schema page n i = .ok true := by
  induction n generalizing i with
  | zero => rfl
  | succ n ih =>
    have hrow := List.getElem?_eq_getElem (l := rows) (i := i) (by omega)
    rw [TableHeap.validateSlots, h.readSlot_eq hrow]
    dsimp only
    rw [if_pos, ih (by omega)]
    rw [h.readTuple hschema hrow, h.get16_finish, Row.flag]
    cases rows[i].live with
    | false => exact .inl rfl
    | true => exact .inr ⟨Nat.sub_le_sub_left (total_take_le rows (i + 1)) _, rfl⟩

theorem Slotted.validatePage (h : Slotted page next rows) (hschema : Conforms schema rows) : validatePage schema page = .ok true := by
  have hroom := h.room
  rw [TableHeap.validatePage, h.get16_count, h.get16_start, h.get16_finish,
    if_pos ⟨h.hasMagic_data, rfl, by omega, by omega⟩, h.validateSlots hschema (Nat.zero_add _)]

theorem validateLoop_linked (hlinked : Linked m chain .invalid) (hvalid : ∀ page ∈ chain, page.id.isValid = true)
    (hconforms : ∀ page ∈ chain, Conforms schema page.rows) {fuel : Nat} (hfuel : chain.length < fuel) :
    (validateLoop schema fuel (headId chain .invalid)).answer full m heap = .ok true := by
  induction chain generalizing fuel with
  | nil =>
    obtain ⟨fuel, rfl⟩ := Nat.exists_eq_succ_of_ne_zero (Nat.ne_zero_of_lt hfuel)
    rfl
  | cons page chain ih =>
    obtain ⟨fuel, rfl⟩ := Nat.exists_eq_succ_of_ne_zero (Nat.ne_zero_of_lt hfuel)
    obtain ⟨⟨payload, hpayload, hslotted⟩, hrest⟩ := hlinked
    rw [List.forall_mem_cons] at hvalid hconforms
    rw [validateLoop, show headId (page :: chain) .invalid = page.id from rfl, hvalid.1, if_neg (by decide),
      Method.answer_look, hpayload]
    dsimp only
    rw [hslotted.validatePage hconforms.1, Method.answer_ofExcept_bind, if_pos rfl, hslotted.getPageId_next]
    exact ih hrest hvalid.2 hconforms.2 (Nat.lt_of_succ_lt_succ hfuel)

end Ddb.Execution
