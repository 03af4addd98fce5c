import Ddb.Execution.TableHeap
import Ddb.Lib.PagedReading

/-!
# What the heap returns without looking at the pages

A scan and a lookup change nothing, and the tuples they return have the types of the schema: they were read by it, whatever
the pages hold.
-/

namespace Ddb.Execution

open Ddb.Lib Ddb.Storage Ddb.Index

variable {schema : Schema}

/-- The columns of a row. -/
def Tuple.HasTypes (t : Tuple) (types : List ValueType) : Prop := t.values.map Value.type = types

def Schema.types (schema : Schema) : List ValueType := schema.columns.map Column.type

theorem deserializeValue_type {type : ValueType} {bytes rest : Bytes} {value : Value}
    (h : deserializeValue type bytes = some (value, rest)) : value.type = type := by
  cases type <;> simp only [deserializeValue, Option.ite_none_left_eq_some, Option.some.injEq, Prod.mk.injEq] at h
  all_goals
    obtain ⟨-, h⟩ := h
    first
    | obtain ⟨rfl, -⟩ := h; rfl
    | obtain ⟨-, rfl, -⟩ := h; rfl

theorem deserializeValues_types {columns : List Column} {bytes : Bytes} {values : List Value}
    (h : deserializeValues columns bytes = some values) : values.map Value.type = columns.map Column.type := by
  induction columns generalizing bytes values with
  | nil =>
    rw [deserializeValues, Option.ite_none_right_eq_some] at h
    rw [← Option.some.inj h.2]
    rfl
  | cons column columns ih =>
    rw [deserializeValues] at h
    obtain ⟨⟨value, rest⟩, hvalue, h⟩ := Option.bind_eq_some_iff.mp h
    obtain ⟨others, hothers, h⟩ := Option.bind_eq_some_iff.mp h
    obtain rfl := Option.some.inj h
    rw [List.map_cons, List.map_cons, deserializeValue_type hvalue, ih hothers]

theorem deserialize_hasTypes {bytes : Bytes} {t : Tuple} (h : deserialize schema bytes = some t) : t.HasTypes schema.types := by
  obtain ⟨values, hvalues, rfl⟩ := Option.map_eq_some_iff.mp h
  exact deserializeValues_types hvalues

theorem scanSlots_hasTypes {id : PageId} {page : Payload} {n i : Nat} {rows : List (RecordId × Tuple)}
    (h : TableHeap.scanSlots schema id page n i = .ok rows) : ∀ row ∈ rows, row.2.HasTypes schema.types := by
  induction n generalizing i rows with
  | zero =>
    obtain rfl := Except.ok.inj h
    nofun
  | succ n ih =>
    rw [TableHeap.scanSlots] at h
    split at h
    · cases h
    split at h
    · exact ih h
    split at h
    · cases h
    split at h
    · cases h
    · rename_i tuple htuple
      cases hrest : TableHeap.scanSlots schema id page n (i + 1) with
      | error e =>
        rw [hrest] at h
        cases h
      | ok rest =>
        rw [hrest] at h
        obtain rfl := Except.ok.inj h
        exact List.forall_mem_cons.mpr ⟨deserialize_hasTypes htuple, ih hrest⟩

theorem tells_scanLoop (fuel : Nat) (id : PageId) {heap : TableHeap} :
    (TableHeap.scanLoop schema fuel id).Tells heap fun rows => ∀ row ∈ rows, row.2.HasTypes schema.types := by
  induction fuel generalizing id with
  | zero => exact Method.tells_throw _
  | succ fuel ih =>
    rw [TableHeap.scanLoop]
    split
    · exact Method.tells_pure nofun
    refine (Method.reads_pin _ fun _ => rfl).tells_bind fun page => (Method.tells_throw_bind _ _).ite ?_
    cases hrows : TableHeap.scanSlots schema id page (get16 page 16) 0 with
    | error e => exact Method.tells_throw e
    | ok rows =>
      refine (ih (getPageId page 8)).bind fun rest hrest => Method.tells_pure fun row hrow => ?_
      exact (List.mem_append.mp hrow).elim (scanSlots_hasTypes hrows row) (hrest row)

theorem tells_scan (heap : TableHeap) :
    TableHeap.scan.Tells heap fun rows => ∀ row ∈ rows, row.2.HasTypes heap.schema.types := by
  refine Method.tells_get.bind ?_
  rintro _ rfl
  exact tells_scanLoop _ _

theorem tells_getRecord (heap : TableHeap) (r : RecordId) :
    (TableHeap.getRecord r).Tells heap fun tuple => ∀ t, tuple = some t → t.HasTypes heap.schema.types := by
  refine Method.tells_get.bind ?_
  rintro _ rfl
  refine Method.Tells.ite ?_ ?_
  · exact Method.tells_pure nofun
  refine (Method.reads_access fun _ => rfl).tells_bind fun page => ?_
  split
  · exact Method.tells_pure nofun
  split
  · split
    · exact Method.tells_throw _
    · refine Method.tells_pure fun t ht => ?_
      rw [TableHeap.readTuple, Option.ite_none_left_eq_some] at ht
      exact deserialize_hasTypes ht.2
  · exact Method.tells_pure nofun

theorem reads_openHeap {σ : Type} (metadata : PageId) (schema : Schema) :
    (TableHeap.openHeap metadata schema : Method PageId Payload Err σ TableHeap).Reads := by
  refine (Method.reads_access fun _ => rfl).bind fun page => ?_
  split
  · exact Method.reads_throw _
  · split
    · exact Method.reads_pure _
    · exact Method.reads_throw _

theorem looks_reopen : TableHeap.reopen.Looks :=
  Method.looks_get.bind fun heap => (reads_openHeap heap.metadata heap.schema).looks.bind fun opened => Method.looks_set opened

theorem looks_scan : TableHeap.scan.Looks := fun heap => PageProg.Reads.mono (tells_scan heap) fun _ _ => trivial

theorem looks_getRecord (r : RecordId) : (TableHeap.getRecord r).Looks := fun heap =>
  PageProg.Reads.mono (tells_getRecord heap r) fun _ _ => trivial

end Ddb.Execution
