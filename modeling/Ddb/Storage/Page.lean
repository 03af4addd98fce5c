import Ddb.Lib.Bytes
import Ddb.Lib.Op

/-!
# Pages

A page is an id, the PageLSN and a payload of 4064 bytes. The payload carries its size, so a page image of another size
cannot be built; reads and writes at an offset say when they would leave the array.

LSNs are natural numbers: the 64-bit counter is not reached by any log that can be written.
-/

namespace Ddb.Storage

open Ddb.Lib

/-- The exceptions of the program, with their messages. An access outside an array has no exception of its own in the
source; a loop of the model that runs out of its bound has none either. -/
inductive Err where
  | storage (message : String)
  | walDurability (message : String)
  | wal (message : String)
  | logic (message : String)
  | runtime (message : String)
  | invalidArgument (message : String)
  | overflow (message : String)
  | outOfBounds
  | outOfFuel
  deriving DecidableEq, Repr

def kPageSize : Nat := 4096
def kPageHeaderSize : Nat := 32
def kPagePayloadSize : Nat := kPageSize - kPageHeaderSize

theorem kPagePayloadSize_eq : kPagePayloadSize = 4064 := rfl

structure PageId where
  value : UInt64
  deriving DecidableEq, Repr

namespace PageId

def kInvalidValue : UInt64 := 0xFFFFFFFFFFFFFFFF

/-- The default-constructed id. -/
def invalid : PageId := ⟨kInvalidValue⟩

def isValid (id : PageId) : Bool := id.value != kInvalidValue

/-- The id as an index into the file. -/
def index (id : PageId) : Nat := id.value.toNat

def ofIndex (i : Nat) : PageId := ⟨UInt64.ofNat i⟩

theorem ext_index {a b : PageId} (h : a.index = b.index) : a = b := by
  cases a
  cases b
  exact congrArg PageId.mk (UInt64.toNat_inj.mp h)

theorem index_ofIndex {i : Nat} (h : i < 2 ^ 64) : (ofIndex i).index = i := by
  rw [index, ofIndex, UInt64.toNat_ofNat']
  exact Nat.mod_eq_of_lt h

@[simp] theorem ofIndex_index (id : PageId) : ofIndex id.index = id := by
  cases id
  simp [ofIndex, index]

theorem isValid_of_index_lt {id : PageId} (h : id.index < 2 ^ 64 - 1) : id.isValid = true := by
  rw [isValid, bne_iff_ne]
  intro heq
  have hindex : id.index = kInvalidValue.toNat := congrArg UInt64.toNat heq
  have hvalue : kInvalidValue.toNat = 2 ^ 64 - 1 := by decide
  omega

theorem isValid_iff {id : PageId} : id.isValid = true ↔ id ≠ invalid := by
  cases id
  simp [isValid, invalid]

end PageId

structure Payload where
  bytes : Bytes
  size_eq : bytes.length = kPagePayloadSize
  deriving DecidableEq

namespace Payload

/-- A payload of one byte repeated. -/
def filled (byte : UInt8) : Payload := ⟨List.replicate kPagePayloadSize byte, List.length_replicate⟩

def zero : Payload := filled 0

theorem ext_bytes {a b : Payload} (h : a.bytes = b.bytes) : a = b := by
  obtain ⟨left, hleft⟩ := a
  obtain ⟨right, hright⟩ := b
  obtain rfl : left = right := h
  rfl

/-- Overwrite the bytes at an offset; nothing when they would leave the payload. -/
def put (p : Payload) (offset : Nat) (field : Bytes) : Option Payload :=
  if h : offset + field.length ≤ kPagePayloadSize then
    some ⟨overwrite p.bytes offset field, by rw [overwrite_length (by rw [p.size_eq]; exact h), p.size_eq]⟩
  else none

end Payload

structure Page where
  id : PageId
  lsn : Nat
  payload : Payload
  deriving DecidableEq

/-- `Page{}`. -/
def Page.blank : Page := ⟨.invalid, 0, .zero⟩

namespace Page

def withPayload (page : Page) (payload : Payload) : Page := ⟨page.id, page.lsn, payload⟩

/-- `set_lsn`. -/
def withLsn (page : Page) (lsn : Nat) : Page := ⟨page.id, lsn, page.payload⟩

end Page

end Ddb.Storage
