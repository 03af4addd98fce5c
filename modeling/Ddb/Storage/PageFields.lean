import Ddb.Storage.Page

/-!
# Fields of a page

Structures on pages keep numbers and page ids at fixed offsets of the payload, little-endian. They write a page by a list of
writes; what is read back at an offset is what was last written there, and what no write meets is as it was.
-/

namespace Ddb.Storage

open Ddb.Lib

def get16 (page : Payload) (at' : Nat) : Nat := leValue (window page.bytes at' 2)

def getPageId (page : Payload) (at' : Nat) : PageId := PageId.ofIndex (leValue (window page.bytes at' 8))

/-- Writes one after the other. -/
def puts (page : Payload) : List (Nat × Bytes) → Option Payload
  | [] => some page
  | (at', field) :: rest => do
    let page ← page.put at' field
    puts page rest

variable {page page' : Payload} {at' n : Nat} {field : Bytes} {writes : List (Nat × Bytes)}

/-- The window does not meet the write. -/
def Apart (at' n : Nat) (write : Nat × Bytes) : Prop := at' + n ≤ write.1 ∨ write.1 + write.2.length ≤ at'

theorem put_eq_some (page : Payload) (at' : Nat) (field : Bytes) (h : at' + field.length ≤ kPagePayloadSize) :
    ∃ page', page.put at' field = some page' ∧ page'.bytes = overwrite page.bytes at' field := by
  rw [Payload.put, dif_pos h]
  exact ⟨_, rfl, rfl⟩

theorem put_bytes (h : page.put at' field = some page') :
    at' + field.length ≤ page.bytes.length ∧ page'.bytes = overwrite page.bytes at' field := by
  rw [Payload.put] at h
  split at h
  · rename_i hle
    obtain rfl := Option.some.inj h
    exact ⟨by rw [page.size_eq]; exact hle, rfl⟩
  · simp at h

theorem window_put_self (h : page.put at' field = some page') : window page'.bytes at' field.length = field := by
  obtain ⟨hle, hbytes⟩ := put_bytes h
  rw [hbytes, window_overwrite_self (by omega)]

theorem window_put_of_apart (h : page.put at' field = some page') {other : Nat} (hapart : Apart other n (at', field)) :
    window page'.bytes other n = window page.bytes other n := by
  obtain ⟨hle, hbytes⟩ := put_bytes h
  rw [hbytes, window_overwrite_of_disjoint hle hapart]

theorem puts_eq_some (page : Payload) (writes : List (Nat × Bytes))
    (h : ∀ write ∈ writes, write.1 + write.2.length ≤ kPagePayloadSize) : ∃ page', puts page writes = some page' := by
  induction writes generalizing page with
  | nil => exact ⟨page, rfl⟩
  | cons write rest ih =>
    obtain ⟨page₁, hput, -⟩ := put_eq_some page write.1 write.2 (h write List.mem_cons_self)
    obtain ⟨page', hrest⟩ := ih page₁ fun w hw => h w (List.mem_cons_of_mem write hw)
    exact ⟨page', by rw [puts, hput]; exact hrest⟩

theorem puts_cons {write : Nat × Bytes} {rest : List (Nat × Bytes)} (h : puts page (write :: rest) = some page') :
    ∃ page₁, page.put write.1 write.2 = some page₁ ∧ puts page₁ rest = some page' := by
  rw [puts] at h
  cases hput : page.put write.1 write.2 with
  | none => simp [hput] at h
  | some page₁ => exact ⟨page₁, rfl, by simpa [hput] using h⟩

/-- Writes that succeed lie in the page. -/
theorem puts_inside (h : puts page writes = some page') : ∀ write ∈ writes, write.1 + write.2.length ≤ kPagePayloadSize := by
  induction writes generalizing page with
  | nil => simp
  | cons write rest ih =>
    obtain ⟨page₁, hput, hrest⟩ := puts_cons h
    refine List.forall_mem_cons.mpr ⟨?_, ih hrest⟩
    rw [← page.size_eq]
    exact (put_bytes hput).1

theorem puts_append {first second : List (Nat × Bytes)} (h : puts page (first ++ second) = some page') :
    ∃ page₁, puts page first = some page₁ ∧ puts page₁ second = some page' := by
  induction first generalizing page with
  | nil => exact ⟨page, rfl, h⟩
  | cons write first ih =>
    obtain ⟨page₀, hput, hrest⟩ := puts_cons h
    obtain ⟨page₁, hfirst, hsecond⟩ := ih hrest
    exact ⟨page₁, by rw [puts, hput]; exact hfirst, hsecond⟩

/-- What no write meets is as it was. -/
theorem window_puts_of_apart (h : puts page writes = some page') (hapart : ∀ write ∈ writes, Apart at' n write) :
    window page'.bytes at' n = window page.bytes at' n := by
  induction writes generalizing page with
  | nil =>
    obtain rfl := Option.some.inj h
    rfl
  | cons write rest ih =>
    obtain ⟨page₁, hput, hrest⟩ := puts_cons h
    rw [ih hrest fun w hw => hapart w (List.mem_cons_of_mem write hw),
      window_put_of_apart hput (hapart write List.mem_cons_self)]

/-- A write that no later one meets reads back. -/
theorem window_puts_field (before : List (Nat × Bytes)) {after : List (Nat × Bytes)}
    (h : puts page (before ++ (at', field) :: after) = some page')
    (hapart : ∀ write ∈ after, Apart at' field.length write) : window page'.bytes at' field.length = field := by
  induction before generalizing page with
  | nil =>
    obtain ⟨page₁, hput, hrest⟩ := puts_cons h
    rw [window_puts_of_apart hrest hapart, window_put_self hput]
  | cons write before ih =>
    obtain ⟨page₁, -, hrest⟩ := puts_cons h
    exact ih hrest

theorem get16_of_window (h : window page.bytes at' 2 = leBytes 2 n) (hn : n < 2 ^ 16) : get16 page at' = n := by
  rw [get16, h, leValue_leBytes_of_lt (by simpa using hn)]

theorem getPageId_of_window {id : PageId} (h : window page.bytes at' 8 = leBytes 8 id.index) : getPageId page at' = id := by
  rw [getPageId, h, leValue_leBytes_of_lt id.value.toNat_lt, PageId.ofIndex_index]

end Ddb.Storage
