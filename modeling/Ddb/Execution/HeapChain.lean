import Ddb.Execution.SlottedPage
import Ddb.Concurrency.Paging

/-!
# The chain of a heap

`Holds` ties a heap object and the memory to a list of data pages with their rows: the pages are linked from `first` to
`last`, the metadata page names the two ends, and no page occurs twice. The records of the rows, page by page and slot by
slot, make a table in the order of insertion, and each method of the heap is a step of that table.
-/

namespace Ddb.Execution

open Ddb.Lib Ddb.Storage Ddb.Index
open Ddb.Concurrency (Database)

/-! ## Tables -/

/-- What was ever inserted, in order. -/
abbrev Table := List (RecordId × Row)

namespace Table

def lookup (table : Table) (r : RecordId) : Option Row := (table.find? fun entry => entry.1 = r).map Prod.snd

/-- The tuple of a live record. -/
def getRecord (table : Table) (r : RecordId) : Option Tuple :=
  (table.lookup r).bind fun row => if row.live then some row.tuple else none

def eraseRecord (table : Table) (r : RecordId) : Table :=
  table.map fun entry => if entry.1 = r then (entry.1, entry.2.erased) else entry

/-- The live records in order. -/
def rows (table : Table) : List (RecordId × Tuple) :=
  table.filterMap fun entry => if entry.2.live then some (entry.1, entry.2.tuple) else none

theorem rows_append (first second : Table) : rows (first ++ second) = rows first ++ rows second :=
  List.filterMap_append

theorem lookup_append (first second : Table) (r : RecordId) :
    lookup (first ++ second) r = (lookup first r).or (lookup second r) := by
  rw [lookup, List.find?_append, Option.map_or]
  rfl

theorem lookup_eq_none_iff {table : Table} {r : RecordId} : lookup table r = none ↔ r ∉ table.map Prod.fst := by
  rw [lookup, Option.map_eq_none_iff, List.find?_eq_none]
  simp only [decide_eq_true_eq, List.mem_map, not_exists, not_and]

theorem eraseRecord_append (first second : Table) (r : RecordId) :
    eraseRecord (first ++ second) r = eraseRecord first r ++ eraseRecord second r := List.map_append

theorem eraseRecord_of_not_mem {table : Table} {r : RecordId} (h : r ∉ table.map Prod.fst) : table.eraseRecord r = table := by
  conv_rhs => rw [← List.map_id table]
  apply List.map_congr_left
  intro entry hentry
  rw [if_neg, id]
  rintro rfl
  exact h (List.mem_map_of_mem hentry)

end Table

/-! ## The records of a chain -/

structure DataPage where
  id : PageId
  rows : List Row

variable {m m' : Memory PageId Payload} {chain : List DataPage} {next : PageId} {before after : List DataPage}
  {page : DataPage}

def entriesOf (id : PageId) (rows : List Row) : Table := rows.mapIdx fun i row => (⟨id, UInt32.ofNat i⟩, row)

def entries (chain : List DataPage) : Table := chain.flatMap fun page => entriesOf page.id page.rows

/-- The row a record names. -/
def rowAt (chain : List DataPage) (r : RecordId) : Option Row :=
  (chain.find? fun page => page.id = r.pageId).bind fun page => page.rows[r.slotId.toNat]?

theorem lookup_entriesOf_of_ne {id : PageId} {rows : List Row} {r : RecordId} (h : r.pageId ≠ id) :
    (entriesOf id rows).lookup r = none := by
  rw [Table.lookup_eq_none_iff]
  intro hmem
  obtain ⟨entry, hentry, rfl⟩ := List.mem_map.mp hmem
  obtain ⟨i, hi, rfl⟩ := List.mem_mapIdx.mp hentry
  exact h rfl

theorem lookup_mapIdx (id : PageId) (slot : UInt32) (rows : List Row) (start : Nat) (hsize : start + rows.length ≤ 2 ^ 32) :
    Table.lookup (rows.mapIdx fun i row => (⟨id, UInt32.ofNat (start + i)⟩, row)) ⟨id, slot⟩ =
      if slot.toNat < start then none else rows[slot.toNat - start]? := by
  induction rows generalizing start with
  | nil => simp [Table.lookup]
  | cons row rows ih =>
    rw [List.length_cons] at hsize
    have hnat : (UInt32.ofNat start).toNat = start := by
      rw [UInt32.toNat_ofNat']
      exact Nat.mod_eq_of_lt (by omega)
    have hrest := ih (start + 1) (by omega)
    rw [List.mapIdx_cons, Table.lookup, List.find?_cons]
    by_cases hslot : slot = UInt32.ofNat start
    · subst hslot
      simp [hnat]
    · have hne : slot.toNat ≠ start := fun heq => hslot (UInt32.toNat_inj.mp (heq.trans hnat.symm))
      have hother : (decide ((⟨id, UInt32.ofNat (start + 0)⟩ : RecordId) = ⟨id, slot⟩)) = false := by
        rw [decide_eq_false_iff_not]
        intro heq
        exact hslot (RecordId.mk.inj heq).2.symm
      simp only [hother]
      have hshift : (fun i row => ((⟨id, UInt32.ofNat (start + (i + 1))⟩, row) : RecordId × Row)) =
          fun i row => (⟨id, UInt32.ofNat (start + 1 + i)⟩, row) := by
        funext i row
        rw [Nat.add_right_comm, Nat.add_assoc]
      rw [hshift]
      refine hrest.trans ?_
      by_cases hlt : slot.toNat < start
      · rw [if_pos hlt, if_pos (by omega)]
      · rw [if_neg hlt, if_neg (by omega), show slot.toNat - start = (slot.toNat - (start + 1)) + 1 by omega,
          List.getElem?_cons_succ]

theorem lookup_entriesOf (id : PageId) (slot : UInt32) (rows : List Row) (hsize : rows.length ≤ 2 ^ 32) :
    (entriesOf id rows).lookup ⟨id, slot⟩ = rows[slot.toNat]? := by
  have h := lookup_mapIdx id slot rows 0 (by omega)
  rw [entriesOf]
  simpa only [Nat.zero_add, Nat.not_lt_zero, if_false, Nat.sub_zero] using h

theorem lookup_entries (hids : (chain.map DataPage.id).Nodup) (hsize : ∀ page ∈ chain, page.rows.length ≤ 2 ^ 32)
    (r : RecordId) : (entries chain).lookup r = rowAt chain r := by
  induction chain with
  | nil => rfl
  | cons page chain ih =>
    rw [List.map_cons, List.nodup_cons] at hids
    have hrest := ih hids.2 fun p hp => hsize p (List.mem_cons_of_mem page hp)
    rw [entries, List.flatMap_cons, Table.lookup_append, rowAt, List.find?_cons]
    change ((entriesOf page.id page.rows).lookup r).or ((entries chain).lookup r) = _
    by_cases hid : page.id = r.pageId
    · obtain ⟨pageId, slotId⟩ := r
      obtain rfl : page.id = pageId := hid
      -- The record is of this page, so the rest of the chain does not have it.
      have hnone : rowAt chain ⟨page.id, slotId⟩ = none := by
        rw [rowAt, List.find?_eq_none.mpr, Option.bind_none]
        intro other hother heq
        exact hids.1 (List.mem_map.mpr ⟨other, hother, of_decide_eq_true heq⟩)
      rw [lookup_entriesOf _ _ _ (hsize page List.mem_cons_self), hrest, hnone, Option.or_none]
      simp
    · rw [lookup_entriesOf_of_ne (Ne.symm hid), Option.none_or, hrest, rowAt, decide_eq_false hid]

theorem entriesOf_append (id : PageId) (rows : List Row) (row : Row) :
    entriesOf id (rows ++ [row]) = entriesOf id rows ++ [(⟨id, UInt32.ofNat rows.length⟩, row)] := List.mapIdx_concat

theorem entries_append (first second : List DataPage) : entries (first ++ second) = entries first ++ entries second :=
  List.flatMap_append

theorem entries_singleton (page : DataPage) : entries [page] = entriesOf page.id page.rows := by
  simp [entries]

theorem not_mem_entries {r : RecordId} (h : r.pageId ∉ chain.map DataPage.id) : r ∉ (entries chain).map Prod.fst := by
  intro hmem
  obtain ⟨entry, hentry, rfl⟩ := List.mem_map.mp hmem
  obtain ⟨page, hpage, hentry⟩ := List.mem_flatMap.mp hentry
  obtain ⟨i, hi, rfl⟩ := List.mem_mapIdx.mp hentry
  exact h (List.mem_map_of_mem hpage)

/-- Killing a row of a page erases its record. -/
theorem entriesOf_set {id : PageId} {slotId : UInt32} {rows : List Row} {row : Row} (hsize : rows.length ≤ 2 ^ 32)
    (hrow : rows[slotId.toNat]? = some row) :
    entriesOf id (rows.set slotId.toNat row.erased) = (entriesOf id rows).eraseRecord ⟨id, slotId⟩ := by
  have hslot := (List.getElem?_eq_some_iff.mp hrow).1
  apply List.ext_getElem?
  intro i
  rw [entriesOf, entriesOf, Table.eraseRecord, List.getElem?_mapIdx, List.getElem?_map, List.getElem?_mapIdx]
  by_cases hi : slotId.toNat = i
  · subst hi
    rw [List.getElem?_set_self hslot, hrow]
    simp
  · rw [List.getElem?_set_ne hi]
    cases hother : rows[i]? with
    | none => rfl
    | some other =>
      have hlt := (List.getElem?_eq_some_iff.mp hother).1
      have hne : ¬ (⟨id, UInt32.ofNat i⟩ : RecordId) = ⟨id, slotId⟩ := by
        intro heq
        apply hi
        rw [← (RecordId.mk.inj heq).2, UInt32.toNat_ofNat']
        exact Nat.mod_eq_of_lt (by omega)
      simp only [Option.map_some, if_neg hne]

theorem liveRows_eq (id : PageId) (rows : List Row) (start : Nat) : liveRows id start rows =
    Table.rows (rows.mapIdx fun i row => (⟨id, UInt32.ofNat (start + i)⟩, row)) := by
  induction rows generalizing start with
  | nil => rfl
  | cons row rows ih =>
    have hshift : (fun i row => ((⟨id, UInt32.ofNat (start + (i + 1))⟩, row) : RecordId × Row)) =
        fun i row => (⟨id, UInt32.ofNat (start + 1 + i)⟩, row) := by
      funext i row
      rw [Nat.add_right_comm, Nat.add_assoc]
    rw [liveRows, ih (start + 1), List.mapIdx_cons, hshift, Table.rows, Table.rows, List.filterMap_cons]
    cases row.live <;> rfl

/-! ## The heap in memory -/

/-- The first page of a chain, or what comes behind it. -/
def headId (chain : List DataPage) (next : PageId) : PageId := (chain.head?.map DataPage.id).getD next

def lastId (chain : List DataPage) : PageId := (chain.getLast?.map DataPage.id).getD .invalid

/-- Each page of the chain holds its rows and names the page after it. -/
def Linked (m : Memory PageId Payload) : List DataPage → PageId → Prop
  | [], _ => True
  | page :: chain, next =>
    (∃ payload, m page.id = some payload ∧ Slotted payload (headId chain next) page.rows) ∧ Linked m chain next

structure MetaPage (page : Payload) (first last : PageId) : Prop where
  magic : window page.bytes 0 6 = kMetaMagic
  first : window page.bytes 8 8 = leBytes 8 first.index
  last : window page.bytes 16 8 = leBytes 8 last.index

structure Holds (heap : TableHeap) (m : Memory PageId Payload) (chain : List DataPage) : Prop where
  metadata : ∃ page, m heap.metadata = some page ∧ MetaPage page heap.first heap.last
  first : heap.first = headId chain .invalid
  last : heap.last = lastId chain
  linked : Linked m chain .invalid
  ids : (heap.metadata :: chain.map DataPage.id).Nodup
  valid : ∀ page ∈ chain, page.id.isValid = true
  conforms : ∀ page ∈ chain, Conforms heap.schema page.rows

theorem linked_append {first second : List DataPage} :
    Linked m (first ++ second) next ↔ Linked m first (headId second next) ∧ Linked m second next := by
  induction first with
  | nil => simp [Linked]
  | cons page first ih =>
    have hhead : headId (first ++ second) next = headId first (headId second next) := by
      cases first <;> rfl
    rw [List.cons_append, Linked, Linked, ih, hhead, and_assoc]

theorem Linked.congr (h : Linked m chain next) (hsame : ∀ page ∈ chain, m' page.id = m page.id) : Linked m' chain next := by
  induction chain with
  | nil => trivial
  | cons page chain ih =>
    obtain ⟨⟨payload, hpage, hslotted⟩, hrest⟩ := h
    refine ⟨⟨payload, (hsame page List.mem_cons_self).trans hpage, hslotted⟩, ih hrest fun p hp => ?_⟩
    exact hsame p (List.mem_cons_of_mem page hp)

/-- A page in the middle of the chain. -/
theorem Linked.at_split (h : Linked m (before ++ page :: after) next) :
    ∃ payload, m page.id = some payload ∧ Slotted payload (headId after next) page.rows :=
  ((linked_append.mp h).2).1

theorem Linked.slotted (h : Linked m chain next) (hpage : page ∈ chain) :
    ∃ payload link, m page.id = some payload ∧ Slotted payload link page.rows := by
  obtain ⟨before, after, rfl⟩ := List.append_of_mem hpage
  obtain ⟨payload, hpayload, hslotted⟩ := h.at_split
  exact ⟨payload, _, hpayload, hslotted⟩

/-- One page of the chain gets other rows. -/
theorem Linked.update {rows : List Row} {payload : Payload} (h : Linked m (before ++ page :: after) next)
    (hids : ((before ++ page :: after).map DataPage.id).Nodup) (hslotted : Slotted payload (headId after next) rows) :
    Linked (m.put page.id (some payload)) (before ++ ⟨page.id, rows⟩ :: after) next := by
  have hne : ∀ other ∈ before ++ after, other.id ≠ page.id := by
    intro other hother
    rw [List.map_append, List.map_cons, List.nodup_middle, List.nodup_cons, ← List.map_append] at hids
    exact fun heq => hids.1 (heq ▸ List.mem_map_of_mem hother)
  rw [linked_append] at h ⊢
  refine ⟨?_, ⟨payload, Memory.put_some_self _ _ _, hslotted⟩, ?_⟩
  · exact h.1.congr fun other hother => Memory.put_of_ne (hne other (List.mem_append_left _ hother)) _
  · exact h.2.2.congr fun other hother => Memory.put_of_ne (hne other (List.mem_append_right _ hother)) _

namespace Holds

variable {heap : TableHeap}

theorem chain_nodup (h : Holds heap m chain) : (chain.map DataPage.id).Nodup := (List.nodup_cons.mp h.ids).2

theorem rows_le (h : Holds heap m chain) {page : DataPage} (hpage : page ∈ chain) : page.rows.length ≤ 2 ^ 32 := by
  obtain ⟨payload, link, -, hslotted⟩ := h.linked.slotted hpage
  have hroom := hslotted.count_le
  simp only [kHeader, kSlot, kPagePayloadSize_eq] at hroom
  omega

theorem lookup (h : Holds heap m chain) (r : RecordId) : (entries chain).lookup r = rowAt chain r :=
  lookup_entries h.chain_nodup (fun _ hpage => h.rows_le hpage) r

end Holds

/-- What the methods are run against. -/
abbrev HeapOp.Gives {α : Type} (x : HeapOp α) (heap : TableHeap) (m : Memory PageId Payload)
    (Q : α → TableHeap → Memory PageId Payload → Prop) : Prop := Method.Gives Database.blank x heap m Q

/-! ## Reading -/

theorem rowAt_split {r : RecordId} (hids : ((before ++ page :: after).map DataPage.id).Nodup) (hid : page.id = r.pageId) :
    rowAt (before ++ page :: after) r = page.rows[r.slotId.toNat]? := by
  rw [rowAt, List.find?_append, List.find?_eq_none.mpr, Option.none_or, List.find?_cons_of_pos (by simpa using hid)]
  · rfl
  · intro other hother heq
    rw [List.map_append, List.map_cons, List.nodup_middle, List.nodup_cons, List.mem_append] at hids
    exact hids.1 (.inl (hid ▸ of_decide_eq_true heq ▸ List.mem_map_of_mem hother))

theorem rowAt_eq_none {r : RecordId} (h : r.pageId ∉ chain.map DataPage.id) : rowAt chain r = none := by
  rw [rowAt, List.find?_eq_none.mpr, Option.bind_none]
  intro page hpage heq
  exact h (of_decide_eq_true heq ▸ List.mem_map_of_mem hpage)

/-- A page that is not of this heap but looks like a data page. -/
def ForeignPage (m : Memory PageId Payload) (id : PageId) : Prop :=
  ∃ page, m id = some page ∧ hasMagic page kDataMagic = true

variable {heap : TableHeap} {r : RecordId} {page : Payload}

/-- What the heap finds out about a record it was asked for. -/
theorem Holds.slot_cases (h : Holds heap m chain) (hpage : m r.pageId = some page)
    (hown : r.pageId ∈ chain.map DataPage.id ∨ ¬ ForeignPage m r.pageId) :
    (hasSlot page r.slotId = false ∧ rowAt chain r = none) ∨
    ∃ before data after row link, chain = before ++ data :: after ∧ data.id = r.pageId ∧ Slotted page link data.rows ∧
      data.rows[r.slotId.toNat]? = some row ∧ hasSlot page r.slotId = true ∧ rowAt chain r = some row ∧
      link = headId after .invalid := by
  by_cases hin : r.pageId ∈ chain.map DataPage.id
  · obtain ⟨data, hdata, hid⟩ := List.mem_map.mp hin
    obtain ⟨before, after, rfl⟩ := List.append_of_mem hdata
    obtain ⟨payload, hpayload, hslotted⟩ := h.linked.at_split
    obtain rfl : payload = page := by
      rw [hid, hpage] at hpayload
      exact (Option.some.inj hpayload).symm
    have hrow := rowAt_split h.chain_nodup hid
    by_cases hslot : r.slotId.toNat < data.rows.length
    · refine .inr ⟨before, data, after, data.rows[r.slotId.toNat], _, rfl, hid, hslotted, List.getElem?_eq_getElem hslot,
        (hslotted.hasSlot_iff _).mpr hslot, ?_, rfl⟩
      rw [hrow, List.getElem?_eq_getElem hslot]
    · refine .inl ⟨?_, ?_⟩
      · rw [← Bool.not_eq_true, hslotted.hasSlot_iff]
        exact hslot
      · rw [hrow, List.getElem?_eq_none (by omega)]
  · refine .inl ⟨?_, rowAt_eq_none hin⟩
    have hforeign := hown.resolve_left hin
    have hmagic : hasMagic page kDataMagic = false := by
      rw [← Bool.not_eq_true]
      exact fun hmagic => hforeign ⟨page, hpage, hmagic⟩
    rw [hasSlot, hmagic, Bool.false_and]

/-- `get` answers as the table does. -/
theorem gives_getRecord (h : Holds heap m chain) (hthere : r.pageId.isValid = true → (m r.pageId).isSome = true)
    (hown : r.pageId ∈ chain.map DataPage.id ∨ ¬ ForeignPage m r.pageId) :
    (TableHeap.getRecord r).Gives heap m fun tuple heap' m' =>
      tuple = (entries chain).getRecord r ∧ heap' = heap ∧ m' = m := by
  apply Method.gives_bind
  apply Method.gives_get
  have htable : (entries chain).getRecord r = (rowAt chain r).bind fun row => if row.live then some row.tuple else none := by
    rw [Table.getRecord, h.lookup]
  by_cases hvalid : r.pageId.isValid = false
  · rw [if_pos hvalid]
    refine Method.gives_pure ⟨?_, rfl, rfl⟩
    rw [htable, rowAt_eq_none, Option.bind_none]
    intro hmem
    obtain ⟨page, hpage, hid⟩ := List.mem_map.mp hmem
    rw [← hid, h.valid page hpage] at hvalid
    simp at hvalid
  · rw [if_neg hvalid]
    obtain ⟨page, hpage⟩ := Option.isSome_iff_exists.mp (hthere (by simpa using hvalid))
    apply Method.gives_bind
    refine Method.gives_access hpage ?_
    dsimp only
    rcases h.slot_cases hpage hown with ⟨hno, hrow⟩ | ⟨before, data, after, row, link, rfl, hid, hslotted, hrow, hslot, hat, -⟩
    · rw [hno]
      refine Method.gives_pure ⟨?_, rfl, rfl⟩
      rw [htable, hrow, Option.bind_none]
    · rw [if_pos hslot, hslotted.readSlot_eq hrow]
      refine Method.gives_pure ⟨?_, rfl, rfl⟩
      rw [htable, hat, hslotted.readTuple (h.conforms data (by simp)) hrow]
      rfl

/-- One page of the heap has been rewritten with other rows. -/
theorem Holds.update {data : DataPage} {rows : List Row} {payload : Payload} (h : Holds heap m (before ++ data :: after))
    (hslotted : Slotted payload (headId after .invalid) rows) (hconforms : Conforms heap.schema rows) :
    Holds heap (m.put data.id (some payload)) (before ++ ⟨data.id, rows⟩ :: after) := by
  have hids : (before ++ ⟨data.id, rows⟩ :: after).map DataPage.id = (before ++ data :: after).map DataPage.id := by
    simp
  obtain ⟨page, hpage, hmeta⟩ := h.metadata
  have hother : ∀ page ∈ before ++ ⟨data.id, rows⟩ :: after, page ∈ before ++ data :: after ∨ page = ⟨data.id, rows⟩ := by
    intro page hpage
    rw [List.mem_append, List.mem_cons] at hpage ⊢
    tauto
  refine ⟨⟨page, ?_, hmeta⟩, ?_, ?_, h.linked.update h.chain_nodup hslotted, hids ▸ h.ids, ?_, ?_⟩
  · rw [Memory.put_of_ne _, hpage]
    intro heq
    exact (List.nodup_cons.mp h.ids).1 (by simp [heq])
  · rw [h.first]
    cases before <;> rfl
  · rw [h.last, lastId, lastId]
    cases after with
    | nil => simp
    | cons page after => simp [List.getLast?_append, List.getLast?_cons]
  · intro page hpage
    rcases hother page hpage with hold | rfl
    · exact h.valid page hold
    · exact h.valid data (by simp)
  · intro page hpage
    rcases hother page hpage with hold | rfl
    · exact h.conforms page hold
    · exact hconforms

/-- Killing a row of the chain erases its record. -/
theorem entries_set {data : DataPage} {row : Row} (hids : ((before ++ data :: after).map DataPage.id).Nodup)
    (hsize : data.rows.length ≤ 2 ^ 32) (hid : data.id = r.pageId) (hrow : data.rows[r.slotId.toNat]? = some row) :
    entries (before ++ ⟨data.id, data.rows.set r.slotId.toNat row.erased⟩ :: after) =
      (entries (before ++ data :: after)).eraseRecord r := by
  rw [List.map_append, List.map_cons, List.nodup_middle, List.nodup_cons, List.mem_append] at hids
  have hbefore : r ∉ (entries before).map Prod.fst := not_mem_entries fun hin => hids.1 (.inl (hid ▸ hin))
  have hafter : r ∉ (entries after).map Prod.fst := not_mem_entries fun hin => hids.1 (.inr (hid ▸ hin))
  have hself := @entriesOf_set data.id r.slotId data.rows row hsize hrow
  rw [← List.singleton_append, ← @List.singleton_append _ data after, entries_append, entries_append, entries_append,
    entries_append, entries_singleton, entries_singleton, Table.eraseRecord_append, Table.eraseRecord_append,
    Table.eraseRecord_of_not_mem hbefore, Table.eraseRecord_of_not_mem hafter, hself, hid]

/-- `erase` answers as the table does and erases the record there. -/
theorem gives_eraseImpl (h : Holds heap m chain) (hthere : (m r.pageId).isSome = true)
    (hown : r.pageId ∈ chain.map DataPage.id ∨ ¬ ForeignPage m r.pageId) :
    (TableHeap.eraseImpl r).Gives heap m fun erased heap' m' =>
      erased = ((entries chain).getRecord r).isSome ∧ heap' = heap ∧
      (∀ id, id ∉ chain.map DataPage.id → m' id = m id) ∧
      ∃ chain', Holds heap m' chain' ∧ entries chain' = (entries chain).eraseRecord r ∧
        chain'.map DataPage.id = chain.map DataPage.id := by
  obtain ⟨page, hpage⟩ := Option.isSome_iff_exists.mp hthere
  have htable : (entries chain).getRecord r = (rowAt chain r).bind fun row => if row.live then some row.tuple else none := by
    rw [Table.getRecord, h.lookup]
  apply Method.gives_bind
  refine Method.gives_access hpage ?_
  dsimp only
  rcases h.slot_cases hpage hown with ⟨hno, hrow⟩ | ⟨before, data, after, row, link, rfl, hid, hslotted, hrow, hslot, hat, rfl⟩
  · have hnone : eraseSlot r.slotId page = none := by rw [eraseSlot, hno]; rfl
    rw [hno, hnone]
    refine Method.gives_pure ⟨?_, rfl, fun _ _ => rfl, chain, h, ?_, rfl⟩
    · rw [htable, hrow]
      rfl
    · rw [Table.eraseRecord_of_not_mem]
      rw [← Table.lookup_eq_none_iff, h.lookup, hrow]
  · rw [if_pos hslot, hslotted.readSlot_eq hrow]
    have hmem : data ∈ before ++ data :: after := by simp
    have hentries := entries_set h.chain_nodup (h.rows_le hmem) hid hrow
    by_cases hlive : row.live = true
    · obtain ⟨page', herase, hslotted'⟩ := hslotted.eraseSlot hrow hlive
      have hconforms : Conforms heap.schema (data.rows.set r.slotId.toNat row.erased) := by
        intro other hother
        rcases List.mem_or_eq_of_mem_set hother with hold | rfl
        · exact h.conforms data hmem other hold
        · exact h.conforms data hmem row (List.mem_of_getElem? hrow)
      rw [herase, ← hid]
      refine Method.gives_pure ⟨?_, rfl, fun id hout => ?_, _, h.update hslotted' hconforms, hentries, by simp⟩
      · rw [htable, hat]
        simp [Row.flag, hlive]
      · refine Memory.put_of_ne ?_ _
        rintro rfl
        exact hout (List.mem_map_of_mem hmem)
    · have hdead := Bool.eq_false_iff.mpr hlive
      have hnone : eraseSlot r.slotId page = none := by
        apply hslotted.eraseSlot_none
        intro other hother
        rw [hrow] at hother
        exact Option.some.inj hother ▸ hdead
      have hsame : data.rows.set r.slotId.toNat row.erased = data.rows := by
        have herased : row.erased = row := by
          rw [Row.erased, ← hdead]
        obtain ⟨hlt, hget⟩ := List.getElem?_eq_some_iff.mp hrow
        rw [herased, ← hget, List.set_getElem_self]
      rw [hnone]
      rw [hsame] at hentries
      refine Method.gives_pure ⟨?_, rfl, fun _ _ => rfl, _, h, hentries, rfl⟩
      rw [htable, hat]
      simp [Row.flag, hdead]

/-! ## Scanning -/

theorem gives_scanLoop {schema : Schema} (hlinked : Linked m chain .invalid) (hvalid : ∀ page ∈ chain, page.id.isValid = true)
    (hconforms : ∀ page ∈ chain, Conforms schema page.rows) {fuel : Nat} (hfuel : chain.length < fuel) :
    (TableHeap.scanLoop schema fuel (headId chain .invalid)).Gives heap m fun rows heap' m' =>
      rows = (entries chain).rows ∧ heap' = heap ∧ m' = m := by
  induction chain generalizing fuel with
  | nil =>
    cases fuel with
    | zero => simp at hfuel
    | succ fuel =>
      rw [TableHeap.scanLoop]
      exact Method.gives_pure ⟨rfl, rfl, rfl⟩
  | cons page chain ih =>
    cases fuel with
    | zero => simp at hfuel
    | succ fuel =>
      obtain ⟨⟨payload, hpayload, hslotted⟩, hrest⟩ := hlinked
      have hid : page.id.isValid = true := hvalid page List.mem_cons_self
      have hscan := hslotted.scanSlots (hconforms page List.mem_cons_self) page.id 0
      have hloop := ih hrest (fun p hp => hvalid p (List.mem_cons_of_mem page hp))
        (fun p hp => hconforms p (List.mem_cons_of_mem page hp)) (by simpa using hfuel)
      rw [TableHeap.scanLoop, show headId (page :: chain) .invalid = page.id from rfl, if_neg (by simp [hid])]
      apply Method.gives_bind
      refine Method.gives_pin hpayload ?_
      rw [Memory.put_none, if_neg (by simp [hslotted.hasMagic_data]), hslotted.get16_count, hslotted.getPageId_next]
      rw [Nat.sub_zero, List.drop_zero] at hscan
      rw [hscan]
      apply Method.gives_bind
      refine hloop.mono ?_
      rintro rows heap' m' ⟨rfl, rfl, rfl⟩
      refine Method.gives_pure ⟨?_, rfl, rfl⟩
      rw [← @List.singleton_append _ page chain, entries_append, Table.rows_append, entries_singleton, liveRows_eq]
      simp only [Nat.zero_add]
      rfl

theorem gives_scan (h : Holds heap m chain) : TableHeap.scan.Gives heap m fun rows heap' m' =>
    rows = (entries chain).rows ∧ heap' = heap ∧ m' = m := by
  apply Method.gives_bind
  apply Method.gives_get
  rw [h.first]
  apply gives_scanLoop h.linked h.valid h.conforms
  have hlt := PageId.length_lt_of_nodup h.chain_nodup fun id hid => by
    obtain ⟨page, hpage, rfl⟩ := List.mem_map.mp hid
    exact h.valid page hpage
  rwa [List.length_map] at hlt

/-! ## Inserting -/

theorem MetaPage.puts {first last : PageId} (h : MetaPage page first last) (first' last' : PageId) :
    ∃ page', Storage.puts page [(8, leBytes 8 first'.index), (16, leBytes 8 last'.index)] = some page' ∧
      MetaPage page' first' last' := by
  obtain ⟨page', hputs⟩ := puts_eq_some page [(8, leBytes 8 first'.index), (16, leBytes 8 last'.index)]
    (by simp [kPagePayloadSize_eq])
  refine ⟨page', hputs, ?_, ?_, ?_⟩
  · rw [window_puts_of_apart hputs (by simp [Apart]), h.magic]
  · exact window_puts_field [] hputs (by simp [Apart])
  · exact window_puts_field [_] hputs (by simp)

theorem gives_writeMetadata {first last : PageId} {Q : Unit → TableHeap → Memory PageId Payload → Prop}
    (hpage : m heap.metadata = some page) (hmeta : MetaPage page first last)
    (h : ∀ page', MetaPage page' heap.first heap.last → Q () heap (m.put heap.metadata (some page'))) :
    TableHeap.writeMetadata.Gives heap m Q := by
  obtain ⟨page', hputs, hmeta'⟩ := hmeta.puts heap.first heap.last
  apply Method.gives_bind
  apply Method.gives_get
  apply Method.gives_bind
  exact Method.gives_update hpage hputs (Method.gives_pure (h page' hmeta'))

theorem Holds.there (h : Holds heap m chain) {id : PageId} (hid : id = heap.metadata ∨ id ∈ chain.map DataPage.id) :
    m id ≠ none := by
  rcases hid with rfl | hid
  · obtain ⟨page, hpage, -⟩ := h.metadata
    rw [hpage]
    simp
  · obtain ⟨page, hpage, rfl⟩ := List.mem_map.mp hid
    obtain ⟨payload, -, hpayload, -⟩ := h.linked.slotted hpage
    rw [hpayload]
    simp

theorem lastId_append (before : List DataPage) (page : DataPage) : lastId (before ++ [page]) = page.id := by
  simp [lastId]

/-- The heap after a page has been linked behind its chain and written into the metadata. -/
theorem Holds.grown (h : Holds heap m chain) {id : PageId} (hfree : m id = none) (hvalid : id.isValid = true)
    (hlinked : Linked m' (chain ++ [⟨id, []⟩]) .invalid) (hmeta : MetaPage page (headId (chain ++ [⟨id, []⟩]) .invalid) id) :
    Holds ⟨heap.metadata, heap.schema, headId (chain ++ [⟨id, []⟩]) .invalid, id⟩ (m'.put heap.metadata (some page))
      (chain ++ [⟨id, []⟩]) := by
  have hne : id ≠ heap.metadata := fun heq => h.there (.inl heq) hfree
  have hnew : id ∉ chain.map DataPage.id := fun hin => h.there (.inr hin) hfree
  have hids : (heap.metadata :: (chain ++ [(⟨id, []⟩ : DataPage)]).map DataPage.id).Nodup := by
    rw [List.map_append, List.map_singleton, ← List.cons_append, List.nodup_append]
    refine ⟨h.ids, List.nodup_singleton _, ?_⟩
    rintro other hother _ hid rfl
    rw [List.mem_singleton] at hid
    subst hid
    rcases List.mem_cons.mp hother with heq | hin
    · exact hne heq
    · exact hnew hin
  refine ⟨⟨page, Memory.put_some_self _ _ _, hmeta⟩, rfl, (lastId_append chain ⟨id, []⟩).symm, ?_, hids, ?_, ?_⟩
  · refine hlinked.congr fun other hother => Memory.put_of_ne ?_ _
    intro heq
    exact (List.nodup_cons.mp hids).1 (heq ▸ List.mem_map_of_mem hother)
  · intro other hother
    rcases List.mem_append.mp hother with hold | hlast
    · exact h.valid other hold
    · rw [List.mem_singleton.mp hlast]
      exact hvalid
  · intro other hother
    rcases List.mem_append.mp hother with hold | hlast
    · exact h.conforms other hold
    · rw [List.mem_singleton.mp hlast]
      exact fun row hrow => absurd hrow List.not_mem_nil

/-- The chain gets an empty page at its end. -/
theorem gives_grow (h : Holds heap m chain) : TableHeap.grow.Gives heap m fun id heap' m' =>
    m id = none ∧ Holds heap' m' (chain ++ [⟨id, []⟩]) ∧ heap'.schema = heap.schema ∧ heap'.metadata = heap.metadata ∧
      ∀ other, other ≠ id → other ≠ heap.metadata → other ∉ chain.map DataPage.id → m' other = m other := by
  obtain ⟨empty, hempty, hslotted⟩ := slotted_dataInit
  obtain ⟨page, hpage, hmeta⟩ := h.metadata
  apply Method.gives_bind
  apply Method.gives_allocate
  intro id hfree hvalid
  have hne : id ≠ heap.metadata := fun heq => h.there (.inl heq) hfree
  have hnew : ∀ data ∈ chain, data.id ≠ id := fun data hdata heq =>
    h.there (.inr (heq ▸ List.mem_map_of_mem hdata)) hfree
  obtain ⟨m₁, hm₁⟩ : ∃ m₁, m₁ = Memory.put (Function.update m id (some Database.blank.page)) id (some empty) := ⟨_, rfl⟩
  have hself : m₁ id = some empty := by rw [hm₁, Memory.put_some_self]
  have hkeep : ∀ other, other ≠ id → m₁ other = m other := by
    intro other hother
    rw [hm₁, Memory.put_of_ne hother, Function.update_of_ne hother]
  apply Method.gives_bind
  refine Method.gives_update (Function.update_self _ _ _) hempty ?_
  rw [← hm₁]
  apply Method.gives_bind
  apply Method.gives_get
  dsimp only
  rcases List.eq_nil_or_concat chain with rfl | ⟨before, last, rfl⟩
  · -- The first page of the heap.
    rw [if_neg (by rw [h.last]; decide)]
    apply Method.gives_bind
    apply Method.gives_modify
    apply Method.gives_bind
    apply Method.gives_modify
    apply Method.gives_bind
    refine gives_writeMetadata ((hkeep _ hne.symm).trans hpage) hmeta fun page' hmeta' => ?_
    refine Method.gives_pure ⟨hfree, ?_, rfl, rfl, fun other hother hmetadata _ => ?_⟩
    · exact h.grown hfree hvalid ⟨⟨empty, hself, hslotted⟩, trivial⟩ hmeta'
    · rw [Memory.put_of_ne hmetadata, hkeep other hother]
  · rw [List.concat_eq_append] at h hnew ⊢
    have hlast : heap.last = last.id := h.last.trans (lastId_append before last)
    have hmem : last ∈ before ++ [last] := by simp
    obtain ⟨payload, hpayload, hrows⟩ := h.linked.at_split
    obtain ⟨payload', hput, hrows'⟩ := hrows.put_next id
    have hmetadata : heap.metadata ≠ last.id := fun heq =>
      (List.nodup_cons.mp h.ids).1 (heq ▸ List.mem_map_of_mem hmem)
    rw [if_pos (by rw [hlast]; exact h.valid last hmem), hlast]
    apply Method.gives_bind
    refine Method.gives_update ((hkeep _ (hnew last hmem)).trans hpayload) hput ?_
    apply Method.gives_bind
    apply Method.gives_modify
    apply Method.gives_bind
    refine gives_writeMetadata (by rw [Memory.put_of_ne hmetadata, hkeep _ hne.symm, hpage]) hmeta fun page' hmeta' => ?_
    refine Method.gives_pure ⟨hfree, ?_, rfl, rfl, fun other hother hmetadata hout => ?_⟩
    · have hfirst : heap.first = headId (before ++ [last] ++ [⟨id, []⟩]) .invalid := by
        rw [h.first]
        cases before <;> rfl
      rw [hfirst] at hmeta' ⊢
      refine h.grown hfree hvalid ?_ hmeta'
      -- The old chain with its last page relinked, then the new page.
      have hold : Linked m₁ (before ++ [last]) .invalid := h.linked.congr fun data hdata => hkeep _ (hnew data hdata)
      have hnext : Linked m₁ before (headId [last] id) := (linked_append.mp hold).1
      have hbefore : ∀ data ∈ before, data.id ≠ last.id := by
        intro data hdata heq
        have hids := h.chain_nodup
        rw [List.map_append, List.nodup_append] at hids
        exact hids.2.2 data.id (List.mem_map_of_mem hdata) last.id (by simp) heq
      rw [linked_append, linked_append]
      refine ⟨⟨hnext.congr fun data hdata => Memory.put_of_ne (hbefore data hdata) _, ?_, trivial⟩, ?_, trivial⟩
      · exact ⟨payload', Memory.put_some_self _ _ _, hrows'⟩
      · refine ⟨empty, ?_, hslotted⟩
        rw [Memory.put_of_ne (hnew last hmem).symm, hself]
    · rw [Memory.put_of_ne hmetadata, Memory.put_of_ne, hkeep other hother]
      rintro rfl
      exact hout (List.mem_map_of_mem hmem)

/-- The largest tuple that goes into an empty page. -/
def kMaxTuple : Nat := kPagePayloadSize - kHeader - kSlot

theorem tooLarge_iff {bytes : Bytes} : bytes.length + kHeader + kSlot > kPagePayloadSize ↔ kMaxTuple < bytes.length := by
  simp only [kMaxTuple, kHeader, kSlot, kPagePayloadSize_eq]
  omega

/-- A row in the last page, which has room for it. -/
theorem Holds.appended {before : List DataPage} {last : DataPage} {payload : Payload} {tuple : Tuple}
    (h : Holds heap m (before ++ [last])) (hslotted : Slotted payload .invalid (last.rows ++ [⟨tuple, true⟩]))
    (hvalid : heap.schema.validates tuple.values = true) :
    Holds heap (m.put last.id (some payload)) (before ++ [⟨last.id, last.rows ++ [⟨tuple, true⟩]⟩]) ∧
      entries (before ++ [⟨last.id, last.rows ++ [⟨tuple, true⟩]⟩]) =
        entries (before ++ [last]) ++ [(⟨last.id, UInt32.ofNat last.rows.length⟩, ⟨tuple, true⟩)] := by
  refine ⟨h.update hslotted fun row hrow => ?_, ?_⟩
  · rcases List.mem_append.mp hrow with hold | hnew
    · exact h.conforms last (by simp) row hold
    · rw [List.mem_singleton.mp hnew]
      exact hvalid
  · rw [entries_append, entries_append, entries_singleton, entries_singleton, entriesOf_append, List.append_assoc]

/-- What an insertion does: the table gets a record it did not have. -/
structure Inserted (heap heap' : TableHeap) (m m' : Memory PageId Payload) (chain chain' : List DataPage) (r : RecordId)
    (tuple : Tuple) : Prop where
  holds : Holds heap' m' chain'
  schema : heap'.schema = heap.schema
  metadata : heap'.metadata = heap.metadata
  entries : entries chain' = Execution.entries chain ++ [(r, ⟨tuple, true⟩)]
  fresh : r ∉ (Execution.entries chain).map Prod.fst
  pages : ∀ id ∈ chain'.map DataPage.id, id ∈ chain.map DataPage.id ∨ m id = none
  kept : ∀ id ∈ chain.map DataPage.id, id ∈ chain'.map DataPage.id
  frame : ∀ id, id ≠ heap.metadata → id ∉ chain'.map DataPage.id → m' id = m id

theorem gives_insertImpl (h : Holds heap m chain) {tuple : Tuple} (hvalid : heap.schema.validates tuple.values = true) :
    (TableHeap.insertImpl tuple).Gives heap m fun r heap' m' =>
      (kMaxTuple < tuple.bytes.length ∧ r = none ∧ heap' = heap ∧ m' = m) ∨
      ∃ r' chain', tuple.bytes.length ≤ kMaxTuple ∧ r = some r' ∧ Inserted heap heap' m m' chain chain' r' tuple := by
  have hserialize : serialize heap.schema tuple = .ok tuple.bytes := by rw [serialize, if_pos hvalid]
  apply Method.gives_bind
  apply Method.gives_get
  rw [hserialize]
  dsimp only
  by_cases hlarge : tuple.bytes.length + kHeader + kSlot > kPagePayloadSize
  · rw [if_pos hlarge]
    exact Method.gives_pure (.inl ⟨tooLarge_iff.mp hlarge, rfl, rfl, rfl⟩)
  rw [if_neg hlarge]
  have hsmall : tuple.bytes.length ≤ kMaxTuple := Nat.le_of_not_lt fun hlt => hlarge (tooLarge_iff.mpr hlt)
  -- Into a new page.
  have hgrow : Method.Gives Database.blank (do
      let id ← TableHeap.grow
      let page ← Method.update id (insertSlot tuple.bytes) (.runtime "cannot re-pin new data page") .outOfBounds
      return some (TableHeap.newRecord id page) : HeapOp (Option RecordId)) heap m fun r heap' m' =>
      (kMaxTuple < tuple.bytes.length ∧ r = none ∧ heap' = heap ∧ m' = m) ∨
      ∃ r' chain', tuple.bytes.length ≤ kMaxTuple ∧ r = some r' ∧ Inserted heap heap' m m' chain chain' r' tuple := by
    apply Method.gives_bind
    refine (gives_grow h).mono ?_
    rintro id heap₁ m₁ ⟨hfree, hholds, hschema, hmetadata, hframe⟩
    obtain ⟨payload, hpayload, hslotted⟩ := hholds.linked.at_split
    have hfits : fits payload tuple.bytes = true := by
      rw [hslotted.fits_iff]
      simp only [total, List.length_nil, List.map_nil, List.sum_nil]
      simp only [kHeader, kSlot, kPagePayloadSize_eq, gt_iff_lt, not_lt] at hlarge ⊢
      omega
    obtain ⟨payload', hinsert, hslotted'⟩ := hslotted.insertSlot hfits
    obtain ⟨hholds', hentries⟩ := hholds.appended hslotted' (hschema ▸ hvalid)
    apply Method.gives_bind
    refine Method.gives_update hpayload hinsert ?_
    have hrecord : TableHeap.newRecord id payload = ⟨id, UInt32.ofNat 0⟩ := by
      rw [TableHeap.newRecord, hslotted.get16_count]
      rfl
    rw [hrecord]
    refine Method.gives_pure (.inr ⟨_, _, hsmall, rfl, hholds', hschema, hmetadata, ?_, ?_, ?_, ?_, ?_⟩)
    · rw [hentries, entries_append]
      simp [entries, entriesOf]
    · exact not_mem_entries fun hin => h.there (.inr hin) hfree
    · intro other hother
      rw [List.map_append, List.mem_append] at hother
      rcases hother with hold | hnew
      · exact .inl hold
      · rw [List.map_singleton, List.mem_singleton] at hnew
        exact .inr (hnew ▸ hfree)
    · intro other hother
      rw [List.map_append]
      exact List.mem_append_left _ hother
    · intro other hmeta hout
      rw [List.map_append, List.mem_append, List.map_singleton, List.mem_singleton, not_or] at hout
      rw [Memory.put_of_ne hout.2, hframe other hout.2 hmeta hout.1]
  rcases List.eq_nil_or_concat chain with rfl | ⟨before, last, rfl⟩
  · rw [if_neg (by rw [h.last]; decide)]
    exact hgrow
  · rw [List.concat_eq_append] at h hgrow ⊢
    have hlast : heap.last = last.id := h.last.trans (lastId_append before last)
    have hmem : last ∈ before ++ [last] := by simp
    obtain ⟨payload, hpayload, hslotted⟩ := h.linked.at_split
    rw [if_pos (by rw [hlast]; exact h.valid last hmem), hlast]
    apply Method.gives_bind
    refine Method.gives_access hpayload ?_
    by_cases hfits : fits payload tuple.bytes = true
    · obtain ⟨payload', hinsert, hslotted'⟩ := hslotted.insertSlot hfits
      obtain ⟨hholds, hentries⟩ := h.appended hslotted' hvalid
      have hfilter : (some payload).filter (fun page => fits page tuple.bytes) = some payload := by simp [hfits]
      rw [if_pos hfits, hfilter, hinsert]
      dsimp only
      rw [hinsert, if_pos Option.isSome_some, TableHeap.newRecord, hslotted.get16_count]
      have hids : (before ++ [(⟨last.id, last.rows ++ [⟨tuple, true⟩]⟩ : DataPage)]).map DataPage.id =
          (before ++ [last]).map DataPage.id := by simp
      refine Method.gives_pure (.inr ⟨_, _, hsmall, rfl, hholds, rfl, rfl, hentries, ?_, ?_, ?_, ?_⟩)
      · have hcount := h.rows_le hmem
        have hroom := hslotted.count_le
        have hnat : (UInt32.ofNat last.rows.length).toNat = last.rows.length := by
          rw [UInt32.toNat_ofNat']
          simp only [kHeader, kSlot, kPagePayloadSize_eq] at hroom
          omega
        rw [← Table.lookup_eq_none_iff, h.lookup, rowAt_split h.chain_nodup rfl, hnat, List.getElem?_eq_none (Nat.le_refl _)]
      · rw [hids]
        exact fun _ hid => .inl hid
      · rw [hids]
        exact fun _ hid => hid
      · rw [hids]
        intro other _ hout
        refine Memory.put_of_ne ?_ _
        rintro rfl
        exact hout (List.mem_map_of_mem hmem)
    · have hfilter : (some payload).filter (fun page => fits page tuple.bytes) = none := by simp [hfits]
      rw [if_neg hfits, Memory.put_none, hfilter]
      exact hgrow

/-! ## Creating and opening -/

theorem metaPage_metaInit : ∃ page, metaInit = some page ∧ MetaPage page .invalid .invalid := by
  obtain ⟨page, hpage⟩ := puts_eq_some .zero
    [(0, kMetaMagic), (8, leBytes 8 PageId.invalid.index), (16, leBytes 8 PageId.invalid.index)]
    (by simp [kMetaMagic, kPagePayloadSize_eq])
  refine ⟨page, hpage, ?_, ?_, ?_⟩
  · exact window_puts_field [] hpage (by simp [Apart, kMetaMagic])
  · exact window_puts_field [_] hpage (by simp [Apart])
  · exact window_puts_field [_, _] hpage (by simp)

/-- `create` leaves the metadata page of an empty heap. -/
theorem gives_create {σ : Type} {o : σ} {schema : Schema} (hcolumns : schema.columns ≠ []) :
    (TableHeap.create schema).Gives Database.blank o m fun id _ m' => m id = none ∧
      Holds ⟨id, schema, .invalid, .invalid⟩ m' [] ∧ ∀ other, other ≠ id → m' other = m other := by
  obtain ⟨page, hinit, hmeta⟩ := metaPage_metaInit
  rw [TableHeap.create, if_neg (by simpa using hcolumns)]
  apply Method.gives_bind
  apply Method.gives_allocate
  intro id hfree hvalid
  apply Method.gives_bind
  refine Method.gives_update (Function.update_self _ _ _) hinit (Method.gives_pure ⟨hfree, ?_, fun other hother => ?_⟩)
  · exact ⟨⟨page, Memory.put_some_self _ _ _, hmeta⟩, rfl, rfl, trivial, List.nodup_singleton _, by simp, by simp⟩
  · rw [Memory.put_of_ne hother, Function.update_of_ne hother]

/-- The constructor finds the heap as it was left. -/
theorem gives_openHeap {σ : Type} {o : σ} (h : Holds heap m chain) :
    (TableHeap.openHeap heap.metadata heap.schema).Gives Database.blank o m fun heap' _ m' => heap' = heap ∧ m' = m := by
  obtain ⟨page, hpage, hmeta⟩ := h.metadata
  have hmagic : hasMagic page kMetaMagic = true := decide_eq_true hmeta.magic
  apply Method.gives_bind
  refine Method.gives_access hpage ?_
  dsimp only
  rw [if_pos hmagic, getPageId_of_window hmeta.first, getPageId_of_window hmeta.last]
  exact Method.gives_pure ⟨rfl, rfl⟩

end Ddb.Execution
