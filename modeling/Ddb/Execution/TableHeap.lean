import Ddb.Execution.Tuple
import Ddb.Index.Node
import Ddb.Lib.Paged

/-!
# The table heap

A heap is a chain of slotted pages behind a metadata page. In a data page the slot directory grows up from the header and
the tuple bytes grow down from the end of the page; a slot is an offset, a length and a live flag, all of 16 bits. A tuple
goes into the last page if it fits there and into a new page otherwise. Slots are never reused, so a `RecordId` names one
record for good; erasing clears the live flag.

The object caches the ends of the chain in `first` and `last`. A page is accessed as a whole: pinned, read, changed under
the mutation context if there is one, and unpinned. A write that would leave the page is `outOfBounds`.
-/

namespace Ddb.Execution

open Ddb.Lib Ddb.Storage Ddb.Index

def kHeader : Nat := 24
def kSlot : Nat := 6
def kMetaMagic : Bytes := [68, 68, 66, 84, 72, 52]
def kDataMagic : Bytes := [68, 68, 66, 68, 80, 52]

/-! ## Fields of a page -/

def hasMagic (page : Payload) (magic : Bytes) : Bool := decide (window page.bytes 0 6 = magic)

structure Slot where
  offset : Nat
  length : Nat
  live : Nat

/-- Slot `i` of the directory, unless it lies outside the page. -/
def readSlot (page : Payload) (i : Nat) : Option Slot :=
  let sp := kHeader + i * kSlot
  if sp + kSlot ≤ kPagePayloadSize then some ⟨get16 page sp, get16 page (sp + 2), get16 page (sp + 4)⟩ else none

/-- `clear`, then the fields of an empty metadata page. -/
def metaInit : Option Payload :=
  puts .zero [(0, kMetaMagic), (8, leBytes 8 PageId.invalid.index), (16, leBytes 8 PageId.invalid.index)]

def dataInit : Option Payload :=
  puts .zero [(0, kDataMagic), (8, leBytes 8 PageId.invalid.index), (16, leBytes 2 0), (18, leBytes 2 kHeader),
    (20, leBytes 2 kPagePayloadSize)]

/-- Whether there is room for a tuple and its slot. The difference is an `int` that is converted to `size_t`. -/
def fits (page : Payload) (bytes : Bytes) : Bool :=
  decide (bytes.length + kSlot ≤ (get16 page 20 + 2 ^ 64 - get16 page 18) % 2 ^ 64)

/-- The tail of `insert_impl`: the tuple bytes, the slot and the header fields. -/
def insertSlot (bytes : Bytes) (page : Payload) : Option Payload :=
  let slots := get16 page 16
  let start := get16 page 18
  let end' := (get16 page 20 + 2 ^ 16 - bytes.length) % 2 ^ 16
  let sp := kHeader + slots * kSlot
  puts page [(end', bytes), (sp, leBytes 2 end'), (sp + 2, leBytes 2 bytes.length), (sp + 4, leBytes 2 1),
    (16, leBytes 2 (slots + 1)), (18, leBytes 2 (start + kSlot)), (20, leBytes 2 end')]

/-- Whether the page is a data page with a slot of this number. -/
def hasSlot (page : Payload) (slotId : UInt32) : Bool :=
  hasMagic page kDataMagic && decide (slotId.toNat < get16 page 16)

/-- What `erase_impl` writes: nothing when there is no such slot or it is not live. -/
def eraseSlot (slotId : UInt32) (page : Payload) : Option Payload :=
  if hasSlot page slotId then
    match readSlot page slotId.toNat with
    | some slot => if slot.live = 0 then none else page.put (kHeader + slotId.toNat * kSlot + 4) (leBytes 2 0)
    | none => none
  else none

/-! ## The object -/

structure TableHeap where
  metadata : PageId
  schema : Schema
  first : PageId
  last : PageId

abbrev HeapOp := Method PageId Payload Err TableHeap

namespace TableHeap

def create {σ : Type} (schema : Schema) : Method PageId Payload Err σ PageId := do
  if schema.columns.isEmpty then throw (.invalidArgument "table schema must contain at least one column")
  let id ← Method.allocate
  let _ ← Method.update id (fun _ => metaInit) (.runtime "cannot pin table metadata") .outOfBounds
  return id

/-- The constructor. -/
def openHeap {σ : Type} (metadata : PageId) (schema : Schema) : Method PageId Payload Err σ TableHeap := do
  match ← Method.access metadata fun _ => none with
  | none => throw (.runtime "invalid table metadata page")
  | some page =>
    if hasMagic page kMetaMagic then return ⟨metadata, schema, getPageId page 8, getPageId page 16⟩
    else throw (.runtime "invalid table metadata page")

/-- A new object on the same metadata page takes the place of this one. -/
def reopen : HeapOp Unit := do
  let heap ← get
  set (← openHeap heap.metadata heap.schema)

def writeMetadata : HeapOp Unit := do
  let heap ← get
  let _ ← Method.update heap.metadata
    (fun page => puts page [(8, leBytes 8 heap.first.index), (16, leBytes 8 heap.last.index)])
    (.runtime "cannot pin table metadata") .outOfBounds

/-- A new data page at the end of the chain. -/
def grow : HeapOp PageId := do
  let id ← Method.allocate
  let _ ← Method.update id (fun _ => dataInit) (.runtime "cannot pin new data page") .outOfBounds
  let heap ← get
  if heap.last.isValid then
    let _ ← Method.update heap.last (fun page => page.put 8 (leBytes 8 id.index)) (.runtime "cannot pin previous data page")
      .outOfBounds
  else
    modify fun heap => { heap with first := id }
  modify fun heap => { heap with last := id }
  writeMetadata
  return id

/-- The record of the slot an insertion has filled. -/
def newRecord (id : PageId) (page : Payload) : RecordId := ⟨id, UInt32.ofNat (get16 page 16)⟩

def insertImpl (tuple : Tuple) : HeapOp (Option RecordId) := do
  let heap ← get
  match serialize heap.schema tuple with
  | .error e => throw e
  | .ok bytes =>
    if bytes.length + kHeader + kSlot > kPagePayloadSize then return none
    else
      -- The last page is changed in the access that finds out whether the tuple fits there.
      let last ← (if heap.last.isValid then
          Method.access heap.last fun page => if fits page bytes then insertSlot bytes page else none
        else return none)
      match last.filter fun page => fits page bytes with
      | some page =>
        if (insertSlot bytes page).isSome then return some (newRecord heap.last page) else throw .outOfBounds
      | none =>
        let id ← grow
        let page ← Method.update id (insertSlot bytes) (.runtime "cannot re-pin new data page") .outOfBounds
        return some (newRecord id page)

/-- The tuple of a slot, nothing for a dead one or one that reaches out of the page. -/
def readTuple (schema : Schema) (page : Payload) (slot : Slot) : Option Tuple :=
  if slot.live = 0 ∨ slot.offset + slot.length > kPagePayloadSize then none
  else deserialize schema (window page.bytes slot.offset slot.length)

def getRecord (r : RecordId) : HeapOp (Option Tuple) := do
  let heap ← get
  if r.pageId.isValid = false then return none
  match ← Method.access r.pageId fun _ => none with
  | none => return none
  | some page =>
    if hasSlot page r.slotId then
      match readSlot page r.slotId.toNat with
      | none => throw .outOfBounds
      | some slot => return readTuple heap.schema page slot
    else return none

def eraseImpl (r : RecordId) : HeapOp Bool := do
  match ← Method.access r.pageId (eraseSlot r.slotId) with
  | none => return false
  | some page =>
    if hasSlot page r.slotId then
      match readSlot page r.slotId.toNat with
      | none => throw .outOfBounds
      | some slot => return decide (slot.live ≠ 0)
    else return false

/-- The live tuples of one page, from slot `i` on. -/
def scanSlots (schema : Schema) (id : PageId) (page : Payload) :
    Nat → Nat → Except Err (List (RecordId × Tuple))
  | 0, _ => .ok []
  | n + 1, i =>
    match readSlot page i with
    | none => .error .outOfBounds
    | some slot =>
      if slot.live = 0 then scanSlots schema id page n (i + 1)
      else if slot.offset + slot.length > kPagePayloadSize then .error .outOfBounds
      else
        match deserialize schema (window page.bytes slot.offset slot.length) with
        | none => .error (.runtime "corrupt tuple")
        | some tuple => (scanSlots schema id page n (i + 1)).map fun rows => (⟨id, UInt32.ofNat i⟩, tuple) :: rows

/-- The loop of `scan`. A chain that ends has at most one turn for every page id. -/
def scanLoop (schema : Schema) : Nat → PageId → HeapOp (List (RecordId × Tuple))
  | 0, _ => throw .outOfFuel
  | fuel + 1, id => do
    if id.isValid = false then return []
    let page ← Method.pin id (fun _ => none) (.runtime "cannot pin data page")
    if hasMagic page kDataMagic = false then throw (.runtime "invalid data page")
    match scanSlots schema id page (get16 page 16) 0 with
    | .error e => throw e
    | .ok rows =>
      let rest ← scanLoop schema fuel (getPageId page 8)
      return rows ++ rest

def scan : HeapOp (List (RecordId × Tuple)) := do
  let heap ← get
  scanLoop heap.schema (2 ^ 64) heap.first

end TableHeap

end Ddb.Execution
