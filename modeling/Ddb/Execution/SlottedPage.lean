import Ddb.Execution.TableHeap

/-!
# The layout of a data page

`Slotted` says which rows a data page holds: the slots in order from the header up, the tuples in the same order from the
end of the page down, and room between the two. Every function of the heap on a data page is an operation on its rows:
`insertSlot` appends one, `eraseSlot` kills one, and the readers see exactly the rows.
-/

namespace Ddb.Execution

open Ddb.Lib Ddb.Storage Ddb.Index

variable {page page' : Payload} {at' n : Nat} {field : Bytes} {writes : List (Nat × Bytes)}

/-! ## The rows of a page -/

structure Row where
  tuple : Tuple
  live : Bool
  deriving DecidableEq

namespace Row

def size (row : Row) : Nat := row.tuple.bytes.length

/-- The flag as it is stored. -/
def flag (row : Row) : Nat := if row.live then 1 else 0

end Row

def total (rows : List Row) : Nat := (rows.map Row.size).sum

/-- Where the tuple of slot `i` starts: the tuples up to it are stacked down from the end of the page. -/
def offsetOf (rows : List Row) (i : Nat) : Nat := kPagePayloadSize - total (rows.take (i + 1))

structure Slotted (page : Payload) (next : PageId) (rows : List Row) : Prop where
  magic : window page.bytes 0 6 = kDataMagic
  next : window page.bytes 8 8 = leBytes 8 next.index
  count : window page.bytes 16 2 = leBytes 2 rows.length
  start : window page.bytes 18 2 = leBytes 2 (kHeader + rows.length * kSlot)
  finish : window page.bytes 20 2 = leBytes 2 (kPagePayloadSize - total rows)
  room : kHeader + rows.length * kSlot + total rows ≤ kPagePayloadSize
  offset : ∀ i row, rows[i]? = some row → window page.bytes (kHeader + i * kSlot) 2 = leBytes 2 (offsetOf rows i)
  length : ∀ i row, rows[i]? = some row → window page.bytes (kHeader + i * kSlot + 2) 2 = leBytes 2 row.size
  live : ∀ i row, rows[i]? = some row → window page.bytes (kHeader + i * kSlot + 4) 2 = leBytes 2 row.flag
  tuple : ∀ i row, rows[i]? = some row → window page.bytes (offsetOf rows i) row.size = row.tuple.bytes

variable {next : PageId} {rows : List Row} {row : Row} {i : Nat}

theorem total_append (first second : List Row) : total (first ++ second) = total first + total second := by
  simp [total]

theorem total_take_le (rows : List Row) (i : Nat) : total (rows.take i) ≤ total rows := by
  conv_rhs => rw [← List.take_append_drop i rows, total_append]
  exact Nat.le_add_right _ _

theorem total_take_succ (h : rows[i]? = some row) : total (rows.take (i + 1)) = total (rows.take i) + row.size := by
  rw [List.take_add_one, h, Option.toList_some, total_append]
  simp [total]

namespace Slotted

theorem count_le (h : Slotted page next rows) : kHeader + rows.length * kSlot ≤ kPagePayloadSize :=
  Nat.le_trans (Nat.le_add_right _ _) h.room

theorem get16_count (h : Slotted page next rows) : get16 page 16 = rows.length := by
  have hroom := h.count_le
  simp only [kHeader, kSlot, kPagePayloadSize_eq] at hroom
  exact get16_of_window h.count (by omega)

theorem get16_start (h : Slotted page next rows) : get16 page 18 = kHeader + rows.length * kSlot := by
  have hroom := h.count_le
  refine get16_of_window h.start ?_
  simp only [kHeader, kSlot, kPagePayloadSize_eq] at hroom ⊢
  omega

theorem get16_finish (h : Slotted page next rows) : get16 page 20 = kPagePayloadSize - total rows := by
  refine get16_of_window h.finish ?_
  simp only [kPagePayloadSize_eq]
  omega

theorem getPageId_next (h : Slotted page next rows) : getPageId page 8 = next := getPageId_of_window h.next

theorem hasMagic_data (h : Slotted page next rows) : hasMagic page kDataMagic = true := decide_eq_true h.magic

/-- A row fits into the page, with its tuple above the slots. -/
theorem offset_bounds (h : Slotted page next rows) {i : Nat} {row : Row} (hrow : rows[i]? = some row) :
    offsetOf rows i + row.size ≤ kPagePayloadSize ∧ kHeader + rows.length * kSlot ≤ offsetOf rows i ∧
      i < rows.length := by
  have hroom := h.room
  have htake := total_take_le rows (i + 1)
  have hsucc := total_take_succ hrow
  have hi := (List.getElem?_eq_some_iff.mp hrow).1
  refine ⟨?_, ?_, hi⟩
  · rw [offsetOf]
    omega
  · rw [offsetOf]
    omega

/-- The directory as the heap reads it. -/
theorem readSlot_eq (h : Slotted page next rows) {i : Nat} {row : Row} (hrow : rows[i]? = some row) :
    readSlot page i = some ⟨offsetOf rows i, row.size, row.flag⟩ := by
  obtain ⟨hend, hstart, hi⟩ := h.offset_bounds hrow
  have hroom := h.count_le
  simp only [kHeader, kSlot, kPagePayloadSize_eq] at hend hstart hroom
  have hflag : row.flag < 2 ^ 16 := by
    rw [Row.flag]
    split <;> decide
  rw [readSlot, if_pos (by simp only [kHeader, kSlot, kPagePayloadSize_eq]; omega), get16_of_window (h.offset i row hrow) (by omega),
    get16_of_window (h.length i row hrow) (by omega), get16_of_window (h.live i row hrow) hflag]

theorem hasSlot_iff (h : Slotted page next rows) (slotId : UInt32) :
    hasSlot page slotId = true ↔ slotId.toNat < rows.length := by
  rw [hasSlot, h.hasMagic_data, Bool.true_and, h.get16_count, decide_eq_true_eq]

theorem fits_iff (h : Slotted page next rows) (bytes : Bytes) : fits page bytes = true ↔
    kHeader + (rows.length + 1) * kSlot + (total rows + bytes.length) ≤ kPagePayloadSize := by
  have hroom := h.room
  rw [fits, h.get16_finish, h.get16_start, decide_eq_true_eq]
  simp only [kHeader, kSlot, kPagePayloadSize_eq] at hroom ⊢
  omega

end Slotted

/-! ## What the heap does to a page -/

theorem slotted_dataInit : ∃ page, dataInit = some page ∧ Slotted page .invalid [] := by
  obtain ⟨page, hpage⟩ := puts_eq_some .zero
    [(0, kDataMagic), (8, leBytes 8 PageId.invalid.index), (16, leBytes 2 0), (18, leBytes 2 kHeader),
      (20, leBytes 2 kPagePayloadSize)] (by simp [kDataMagic, kPagePayloadSize_eq])
  refine ⟨page, hpage, ?_⟩
  constructor
  case magic => exact window_puts_field [] hpage (by simp [Apart, kDataMagic])
  case next => exact window_puts_field [_] hpage (by simp [Apart])
  case count => exact window_puts_field [_, _] hpage (by simp [Apart])
  case start => exact window_puts_field [_, _, _] hpage (by simp [Apart])
  case finish => exact window_puts_field [_, _, _, _] hpage (by simp [Apart])
  case room => decide
  all_goals
    intro i row hrow
    simp at hrow

/-- Linking the page to a new one behind it. -/
theorem Slotted.put_next (h : Slotted page next rows) (id : PageId) :
    ∃ page', page.put 8 (leBytes 8 id.index) = some page' ∧ Slotted page' id rows := by
  obtain ⟨page', hput, -⟩ := put_eq_some page 8 (leBytes 8 id.index) (by simp [kPagePayloadSize_eq])
  have hkeep : ∀ other n, 16 ≤ other → window page'.bytes other n = window page.bytes other n := by
    intro other n hother
    exact window_put_of_apart hput (.inr (by simpa using hother))
  refine ⟨page', hput, ?_⟩
  constructor
  case magic => rw [window_put_of_apart hput (.inl (by simp)), h.magic]
  case next => simpa using window_put_self hput
  case count => rw [hkeep 16 2 (by decide), h.count]
  case start => rw [hkeep 18 2 (by decide), h.start]
  case finish => rw [hkeep 20 2 (by decide), h.finish]
  case room => exact h.room
  case offset => exact fun i row hrow => by rw [hkeep _ _ (by rw [kHeader]; omega), h.offset i row hrow]
  case length => exact fun i row hrow => by rw [hkeep _ _ (by rw [kHeader]; omega), h.length i row hrow]
  case live => exact fun i row hrow => by rw [hkeep _ _ (by rw [kHeader]; omega), h.live i row hrow]
  case tuple =>
    intro i row hrow
    have hbounds := (h.offset_bounds hrow).2.1
    rw [hkeep _ _ (by rw [kHeader] at hbounds; omega), h.tuple i row hrow]

theorem getElem?_append_row {row new : Row} (h : (rows ++ [new])[i]? = some row) :
    rows[i]? = some row ∨ i = rows.length ∧ row = new := by
  rcases Nat.lt_or_ge i rows.length with hlt | hge
  · rw [List.getElem?_append_left hlt] at h
    exact .inl h
  · rw [List.getElem?_append_right hge, List.getElem?_singleton] at h
    split at h
    · exact .inr ⟨by omega, (Option.some.inj h).symm⟩
    · simp at h

theorem offsetOf_append (h : i < rows.length) (new : Row) : offsetOf (rows ++ [new]) i = offsetOf rows i := by
  rw [offsetOf, offsetOf, List.take_append_of_le_length (by omega)]

theorem offsetOf_last (rows : List Row) (new : Row) :
    offsetOf (rows ++ [new]) rows.length = kPagePayloadSize - total rows - new.size := by
  rw [offsetOf, List.take_of_length_le (by simp), total_append]
  simp only [total, List.map_cons, List.map_nil, List.sum_singleton]
  omega

/-- A tuple that fits becomes the last row. -/
theorem Slotted.insertSlot (h : Slotted page next rows) {tuple : Tuple} (hfits : fits page tuple.bytes = true) :
    ∃ page', Execution.insertSlot tuple.bytes page = some page' ∧ Slotted page' next (rows ++ [⟨tuple, true⟩]) := by
  have hroom := (h.fits_iff tuple.bytes).mp hfits
  have hend : (get16 page 20 + 2 ^ 16 - tuple.bytes.length) % 2 ^ 16 =
      kPagePayloadSize - total rows - tuple.bytes.length := by
    rw [h.get16_finish]
    simp only [kHeader, kSlot, kPagePayloadSize_eq] at hroom ⊢
    omega
  obtain ⟨finish, hfinish⟩ : ∃ finish, finish = kPagePayloadSize - total rows - tuple.bytes.length := ⟨_, rfl⟩
  obtain ⟨sp, hsp⟩ : ∃ sp, sp = kHeader + rows.length * kSlot := ⟨_, rfl⟩
  have hbounds : 24 ≤ sp ∧ sp + 6 ≤ finish ∧ finish + tuple.bytes.length + total rows = 4064 := by
    simp only [kHeader, kSlot, kPagePayloadSize_eq] at hroom hfinish hsp
    omega
  rw [Execution.insertSlot, hend, h.get16_count, h.get16_start, ← hfinish, ← hsp]
  obtain ⟨page', hputs⟩ := puts_eq_some page
    [(finish, tuple.bytes), (sp, leBytes 2 finish), (sp + 2, leBytes 2 tuple.bytes.length), (sp + 4, leBytes 2 1),
      (16, leBytes 2 (rows.length + 1)), (18, leBytes 2 (sp + kSlot)), (20, leBytes 2 finish)]
    (by simp only [List.forall_mem_cons, List.not_mem_nil, false_implies, implies_true, and_true, leBytes_length,
          kPagePayloadSize_eq]; omega)
  refine ⟨page', hputs, ?_⟩
  -- The header before the count, the old slots and the old tuples are not written to.
  have hkeep : ∀ at' n, at' + n ≤ 16 ∨ 24 ≤ at' ∧ at' + n ≤ sp ∨ finish + tuple.bytes.length ≤ at' →
      window page'.bytes at' n = window page.bytes at' n := by
    intro at' n hat
    apply window_puts_of_apart hputs
    simp only [List.forall_mem_cons, List.not_mem_nil, false_implies, implies_true, and_true, leBytes_length, Apart]
    omega
  have hold : ∀ {i row}, rows[i]? = some row → kHeader + i * kSlot + 6 ≤ sp ∧ 24 ≤ kHeader + i * kSlot ∧
      finish + tuple.bytes.length ≤ offsetOf rows i := by
    intro i row hrow
    have hi := (List.getElem?_eq_some_iff.mp hrow).1
    have htake := total_take_le rows (i + 1)
    simp only [offsetOf, kHeader, kSlot, kPagePayloadSize_eq] at hsp ⊢
    omega
  constructor
  case magic => rw [hkeep 0 6 (by omega), h.magic]
  case next => rw [hkeep 8 8 (by omega), h.next]
  case count =>
    rw [List.length_append, List.length_singleton]
    exact window_puts_field [_, _, _, _] hputs (by simp [Apart])
  case start =>
    rw [List.length_append, List.length_singleton, Nat.add_mul, ← Nat.add_assoc, Nat.one_mul, ← hsp]
    exact window_puts_field [_, _, _, _, _] hputs (by simp [Apart])
  case finish =>
    have htotal : kPagePayloadSize - total (rows ++ [⟨tuple, true⟩]) = finish := by
      rw [total_append, hfinish, Nat.sub_sub]
      rfl
    rw [htotal]
    exact window_puts_field [_, _, _, _, _, _] hputs (by simp)
  case room =>
    rw [List.length_append, List.length_singleton, total_append]
    exact hroom
  case offset =>
    intro i row hrow
    rcases getElem?_append_row hrow with hrow | ⟨rfl, rfl⟩
    · rw [hkeep _ _ (by have := hold hrow; omega), h.offset i row hrow,
        offsetOf_append (List.getElem?_eq_some_iff.mp hrow).1]
    · rw [offsetOf_last, ← hsp, show kPagePayloadSize - total rows - (⟨tuple, true⟩ : Row).size = finish from hfinish.symm]
      exact window_puts_field [_] hputs (by simp [Apart]; omega)
  case length =>
    intro i row hrow
    rcases getElem?_append_row hrow with hrow | ⟨rfl, rfl⟩
    · rw [hkeep _ _ (by have := hold hrow; omega), h.length i row hrow]
    · rw [← hsp]
      exact window_puts_field [_, _] hputs (by simp [Apart]; omega)
  case live =>
    intro i row hrow
    rcases getElem?_append_row hrow with hrow | ⟨rfl, rfl⟩
    · rw [hkeep _ _ (by have := hold hrow; omega), h.live i row hrow]
    · rw [← hsp]
      exact window_puts_field [_, _, _] hputs (by simp [Apart]; omega)
  case tuple =>
    intro i row hrow
    rcases getElem?_append_row hrow with hrow | ⟨rfl, rfl⟩
    · rw [offsetOf_append (List.getElem?_eq_some_iff.mp hrow).1, hkeep _ _ (by have := hold hrow; omega),
        h.tuple i row hrow]
    · rw [offsetOf_last, show kPagePayloadSize - total rows - (⟨tuple, true⟩ : Row).size = finish from hfinish.symm]
      refine window_puts_field [] hputs ?_
      simp only [List.forall_mem_cons, List.not_mem_nil, false_implies, implies_true, and_true, leBytes_length, Apart]
      omega

/-- The row with its live flag cleared. -/
def Row.erased (row : Row) : Row := { row with live := false }

/-- A slot that is not there, or not live, is not written to. -/
theorem Slotted.eraseSlot_none (h : Slotted page next rows) {slotId : UInt32}
    (hdead : ∀ row, rows[slotId.toNat]? = some row → row.live = false) : Execution.eraseSlot slotId page = none := by
  rw [Execution.eraseSlot]
  split
  · rename_i hslot
    have hlt := (h.hasSlot_iff slotId).mp hslot
    have hrow := List.getElem?_eq_getElem hlt
    rw [h.readSlot_eq hrow]
    dsimp only
    rw [if_pos]
    rw [Row.flag, hdead _ hrow]
    rfl
  · rfl

theorem total_set_erased (hrow : rows[i]? = some row) (rows' : List Row) (hrows' : rows' = rows.set i row.erased) (j : Nat) :
    total (rows'.take j) = total (rows.take j) := by
  subst hrows'
  have hsizes : (rows.set i row.erased).map Row.size = rows.map Row.size := by
    rw [List.map_set]
    have hsize : row.erased.size = row.size := rfl
    rw [hsize]
    apply List.ext_getElem?
    intro k
    by_cases hk : i = k
    · subst hk
      rw [List.getElem?_set_self (by simpa using (List.getElem?_eq_some_iff.mp hrow).1), List.getElem?_map, hrow,
        Option.map_some]
    · rw [List.getElem?_set_ne hk]
  rw [total, total, List.map_take, List.map_take, hsizes]

/-- A live row is killed. -/
theorem Slotted.eraseSlot (h : Slotted page next rows) {slotId : UInt32} (hrow : rows[slotId.toNat]? = some row)
    (hlive : row.live = true) :
    ∃ page', Execution.eraseSlot slotId page = some page' ∧ Slotted page' next (rows.set slotId.toNat row.erased) := by
  obtain ⟨-, hdown, hi⟩ := h.offset_bounds hrow
  have hroom := h.count_le
  generalize hslot : slotId.toNat = i at *
  obtain ⟨page', hput, -⟩ := put_eq_some page (kHeader + i * kSlot + 4) (leBytes 2 0)
    (by simp only [kHeader, kSlot, kPagePayloadSize_eq, leBytes_length] at hroom ⊢; omega)
  have herase : Execution.eraseSlot slotId page = some page' := by
    rw [Execution.eraseSlot, if_pos ((h.hasSlot_iff slotId).mpr (by omega)), hslot, h.readSlot_eq hrow]
    dsimp only
    rw [if_neg (by simp [Row.flag, hlive]), hput]
  have hkeep : ∀ at' n, at' + n ≤ kHeader + i * kSlot + 4 ∨ kHeader + i * kSlot + 6 ≤ at' →
      window page'.bytes at' n = window page.bytes at' n := by
    intro at' n hat
    apply window_put_of_apart hput
    simp only [Apart, leBytes_length]
    omega
  have htotal := total_set_erased hrow _ rfl
  have hwhole : total (rows.set i row.erased) = total rows := by
    have := htotal (rows.length)
    rwa [List.take_of_length_le (by simp), List.take_of_length_le (Nat.le_refl _)] at this
  -- A row of the new page is a row of the old one, but for its flag.
  have hback : ∀ {j new}, (rows.set i row.erased)[j]? = some new →
      ∃ old, rows[j]? = some old ∧ old.tuple = new.tuple ∧ (j ≠ i → old = new) := by
    intro j new hnew
    by_cases hj : j = i
    · subst hj
      rw [List.getElem?_set_self hi] at hnew
      obtain rfl := Option.some.inj hnew
      exact ⟨row, hrow, rfl, fun hne => absurd rfl hne⟩
    · rw [List.getElem?_set_ne (Ne.symm hj)] at hnew
      exact ⟨new, hnew, rfl, fun _ => rfl⟩
  have hoffset : ∀ j, offsetOf (rows.set i row.erased) j = offsetOf rows j := fun j => by
    rw [offsetOf, offsetOf, htotal]
  refine ⟨page', herase, ?_⟩
  constructor
  case magic => rw [hkeep 0 6 (by rw [kHeader]; omega), h.magic]
  case next => rw [hkeep 8 8 (by rw [kHeader]; omega), h.next]
  case count => rw [hkeep 16 2 (by rw [kHeader]; omega), h.count, List.length_set]
  case start => rw [hkeep 18 2 (by rw [kHeader]; omega), h.start, List.length_set]
  case finish => rw [hkeep 20 2 (by rw [kHeader]; omega), h.finish, hwhole]
  case room =>
    rw [List.length_set, hwhole]
    exact h.room
  case offset =>
    intro j new hnew
    obtain ⟨old, hold, -, -⟩ := hback hnew
    rw [hoffset, hkeep _ _ (by simp only [kSlot]; omega), h.offset j old hold]
  case length =>
    intro j new hnew
    obtain ⟨old, hold, htuple, -⟩ := hback hnew
    rw [hkeep _ _ (by simp only [kSlot]; omega), h.length j old hold, Row.size, Row.size, htuple]
  case live =>
    intro j new hnew
    by_cases hj : j = i
    · subst hj
      rw [List.getElem?_set_self hi] at hnew
      obtain rfl := Option.some.inj hnew
      have hself := window_put_self hput
      rw [leBytes_length] at hself
      rw [hself]
      rfl
    · obtain ⟨old, hold, -, hsame⟩ := hback hnew
      obtain rfl := hsame hj
      rw [hkeep _ _ (by simp only [kSlot]; omega), h.live j old hold]
  case tuple =>
    intro j new hnew
    obtain ⟨old, hold, htuple, -⟩ := hback hnew
    have hdown' := (h.offset_bounds hold).2.1
    rw [hoffset, hkeep _ _ (by simp only [kSlot] at hdown' ⊢; omega), Row.size, ← htuple]
    exact h.tuple j old hold

/-! ## What the readers see -/

/-- All tuples of the page fit the schema. -/
def Conforms (schema : Schema) (rows : List Row) : Prop := ∀ row ∈ rows, schema.validates row.tuple.values = true

variable {schema : Schema}

theorem Slotted.size_lt (h : Slotted page next rows) (hrow : rows[i]? = some row) : row.tuple.bytes.length < 2 ^ 32 := by
  have hbounds := (h.offset_bounds hrow).1
  simp only [Row.size, kPagePayloadSize_eq] at hbounds
  omega

theorem Slotted.deserialize_row (h : Slotted page next rows) (hschema : Conforms schema rows) (hrow : rows[i]? = some row) :
    deserialize schema (window page.bytes (offsetOf rows i) row.size) = some row.tuple := by
  rw [h.tuple i row hrow]
  exact deserialize_bytes (hschema row (List.mem_of_getElem? hrow)) (h.size_lt hrow)

theorem Slotted.readTuple (h : Slotted page next rows) (hschema : Conforms schema rows) (hrow : rows[i]? = some row) :
    TableHeap.readTuple schema page ⟨offsetOf rows i, row.size, row.flag⟩ = if row.live then some row.tuple else none := by
  have hbounds := (h.offset_bounds hrow).1
  rw [TableHeap.readTuple]
  cases hlive : row.live with
  | false => rw [if_pos (Or.inl (by simp [Row.flag, hlive]))]; rfl
  | true =>
    rw [if_neg, h.deserialize_row hschema hrow]
    · rfl
    · simp only [Row.flag, hlive, if_true]
      omega

/-- The live rows of a page with their records. -/
def liveRows (id : PageId) : Nat → List Row → List (RecordId × Tuple)
  | _, [] => []
  | i, row :: rest =>
    if row.live then (⟨id, UInt32.ofNat i⟩, row.tuple) :: liveRows id (i + 1) rest else liveRows id (i + 1) rest

theorem Slotted.scanSlots (h : Slotted page next rows) (hschema : Conforms schema rows) (id : PageId) (i : Nat) :
    TableHeap.scanSlots schema id page (rows.length - i) i = .ok (liveRows id i (rows.drop i)) := by
  generalize hn : rows.length - i = n
  induction n generalizing i with
  | zero =>
    rw [List.drop_eq_nil_of_le (by omega)]
    rfl
  | succ n ih =>
    have hlt : i < rows.length := by omega
    have hrow := List.getElem?_eq_getElem hlt
    have hbounds := (h.offset_bounds hrow).1
    have hrest := ih (i + 1) (by omega)
    rw [TableHeap.scanSlots, h.readSlot_eq hrow, List.drop_eq_getElem_cons hlt, liveRows]
    dsimp only
    cases hlive : rows[i].live with
    | false => rw [if_pos (by simp [Row.flag, hlive]), hrest]; rfl
    | true =>
      rw [if_neg (by simp [Row.flag, hlive]), if_neg (by omega), h.deserialize_row hschema hrow, hrest]
      rfl

end Ddb.Execution
