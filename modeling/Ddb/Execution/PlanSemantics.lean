import Mathlib.Data.Option.Basic
import Mathlib.Order.Defs.LinearOrder
import Ddb.Execution.Executor
import Ddb.Execution.HeapReading
import Ddb.Execution.HeapRefinement
import Ddb.Index.ReadOnly
import Ddb.Index.TreeRefinement

/-!
# What a plan means

The rows of a plan are a list, by recursion on the plan: the live tuples of the heap in order, those that pass the predicate,
the columns asked for, the stable sort by the keys, for each left row the matching right rows. Columns are typed; a plan is
well typed if its columns are there and it compares like with like, and no doubles.

An executor yields a list of rows from a state if `next` answers them one by one, and then says that there is no more. From
whatever state, `init` leaves a state that yields the rows of the plan: that is all a parent needs to know of its child, and
the induction over plans carries it up.
-/

namespace Ddb.Execution

open Ddb.Lib Ddb.Storage Ddb.Index
open Ddb.Concurrency (Database)

/-! ## The order of values -/

namespace Value

def number : Value → Int
  | .int64 integer => integer.toInt
  | .double bits => bits.toNat
  | .boolean value => if value then 1 else 0
  | .string _ => 0

def text : Value → Bytes
  | .string text => text
  | _ => []

def typeIndex (value : Value) : Nat :=
  match value.type with
  | .int64 => 0
  | .double => 1
  | .boolean => 2
  | .string => 3

/-- By type, and within a type integers and booleans by size and strings by their bytes. -/
def cmp : Value → Value → Ordering :=
  compareLex (compareOn typeIndex) (compareLex (compareOn number) (compareOn text))

instance : Ord Value := ⟨cmp⟩

instance : Std.TransOrd Value := inferInstanceAs (Std.TransCmp (compareLex _ (compareLex _ _)))

end Value

/-! ## Rows -/

/-- What the tables and trees of a plan answer. -/
structure Catalog where
  scan : TableHeap → List (RecordId × Tuple)
  record : TableHeap → RecordId → Option Tuple
  find : BPlusTree → KeyType → Option RecordId

/-- The value of a column; a well typed plan asks for no other. -/
def Tuple.column (t : Tuple) (c : Nat) : Value := t.values.getD c (.boolean false)

def Predicate.Op.admits : Predicate.Op → Ordering → Bool
  | .eq, o => o.isEq
  | .ne, o => o.isNe
  | .lt, o => o.isLT
  | .le, o => o.isLE
  | .gt, o => o.isGT
  | .ge, o => o.isGE

def Predicate.holds (p : Predicate) (t : Tuple) : Bool := p.op.admits (compare (t.column p.column) p.value)

def SortKey.cmp (k : SortKey) (a b : Tuple) : Ordering :=
  if k.ascending then compareOn (fun t : Tuple => t.column k.column) a b else compareOn (fun t : Tuple => t.column k.column) b a

/-- By the first key, and where that says equal by the others. -/
def cmpRows : List SortKey → Tuple → Tuple → Ordering
  | [] => fun _ _ => .eq
  | k :: keys => compareLex k.cmp (cmpRows keys)

def sortRows (keys : List SortKey) (rows : List Tuple) : List Tuple := rows.mergeSort fun a b => (cmpRows keys a b).isLE

def joinRows (a b : Nat) (left right : List Tuple) : List Tuple :=
  left.flatMap fun t => (right.filter fun r => decide (t.column a = r.column b)).map fun r => ⟨t.values ++ r.values⟩

def aggregateRows (aggregates : List AggregateSpec) (groups : List Nat) (input : List Tuple) : Except Err (List Tuple) := do
  (← makeBuckets groups input).mapM (aggregateRow aggregates groups)

namespace Plan

def rows (c : Catalog) : Plan → List Tuple
  | seqScan table => (c.scan table).map Prod.snd
  | indexScan table tree key => ((c.find tree key).bind (c.record table)).toList
  | filter child predicate => (child.rows c).filter predicate.holds
  | projection child columns => (child.rows c).map fun t => ⟨columns.map t.column⟩
  | sort child keys => sortRows keys (child.rows c)
  | aggregate child aggregates groups => (aggregateRows aggregates groups (child.rows c)).toOption.getD []
  | join left right leftColumn rightColumn => joinRows leftColumn rightColumn (left.rows c) (right.rows c)

/-! ## Types -/

/-- The column is there and holds no doubles. -/
def Ordered (types : List ValueType) (column : Nat) : Prop := types[column]?.any (fun type => decide (type ≠ .double)) = true

instance (types : List ValueType) (column : Nat) : Decidable (Ordered types column) := inferInstanceAs (Decidable (_ = true))

/-- The types of the columns of a well typed plan. Aggregates have none: how many columns they return depends on the rows. -/
def types : Plan → Option (List ValueType)
  | seqScan table | indexScan table _ _ => some (table.schema.columns.map Column.type)
  | filter child predicate => do
    let types ← child.types
    guard (Ordered types predicate.column ∧ types[predicate.column]? = some predicate.value.type)
    return types
  | projection child columns => do
    let types ← child.types
    columns.mapM fun column => types[column]?
  | sort child keys => do
    let types ← child.types
    guard (∀ k ∈ keys, Ordered types k.column)
    return types
  | aggregate _ _ _ => none
  | join left right leftColumn rightColumn => do
    let leftTypes ← left.types
    let rightTypes ← right.types
    guard (Ordered leftTypes leftColumn ∧ leftTypes[leftColumn]? = rightTypes[rightColumn]?)
    return leftTypes ++ rightTypes

end Plan

/-! ## Comparisons -/

/-- The three answers of `compareValues`. -/
def signOf : Ordering → Int
  | .lt => -1
  | .eq => 0
  | .gt => 1

theorem threeWay_eq_signOf {α : Type} {less : α → α → Bool} (cmp : α → α → Ordering) [Std.OrientedCmp cmp]
    (h : ∀ a b, less a b = (cmp a b == .lt)) (x y : α) : threeWay less x y = signOf (cmp x y) := by
  have hswap : cmp y x = (cmp x y).swap := Std.OrientedCmp.eq_swap
  rw [threeWay, h, h, hswap]
  cases cmp x y <;> rfl

theorem compare_int64 (x y : Int64) : compare (Value.int64 x) (.int64 y) = compareOn Int64.toInt x y := by
  change ((compare 0 0).then ((compare x.toInt y.toInt).then (compare [] []))) = compare x.toInt y.toInt
  cases compare x.toInt y.toInt <;> rfl

theorem compare_string (x y : Bytes) : compare (Value.string x) (.string y) = compare x y := rfl

theorem compareValues_eq {a b : Value} (htype : a.type = b.type) (hdouble : a.type ≠ .double) :
    compareValues a b = .ok (signOf (compare a b)) := by
  cases a with
  | int64 x =>
    cases b with
    | int64 y =>
      rw [compare_int64, compareValues]
      refine congrArg Except.ok (threeWay_eq_signOf (compareOn Int64.toInt) (fun a b => ?_) x y)
      rw [Bool.eq_iff_iff, decide_eq_true_iff, beq_iff_eq, compareOn, Int.compare_eq_lt, Int64.lt_iff_toInt_lt]
    | _ => cases htype
  | double x => exact absurd rfl hdouble
  | boolean x =>
    cases b with
    | boolean y => cases x <;> cases y <;> rfl
    | _ => cases htype
  | string x =>
    cases b with
    | string y =>
      rw [compare_string, compareValues]
      exact congrArg Except.ok (threeWay_eq_signOf compare (fun _ _ => rfl) x y)
    | _ => cases htype

theorem equals_eq {a b : Value} (hdouble : a.type ≠ .double) : a.equals b = decide (a = b) := by
  cases a with
  | double x => exact absurd rfl hdouble
  | _ => rfl

variable {t t' : Tuple} {types : List ValueType} {column : Nat}

theorem Tuple.HasTypes.valueAt (h : t.HasTypes types) {type : ValueType} (hcolumn : types[column]? = some type) :
    t.valueAt column = .ok (t.column column) ∧ (t.column column).type = type := by
  rw [← h, List.getElem?_map, Option.map_eq_some_iff] at hcolumn
  obtain ⟨value, hvalue, rfl⟩ := hcolumn
  have hself : t.column column = value := by rw [Tuple.column, List.getD_eq_getElem?_getD, hvalue, Option.getD_some]
  rw [hself, Tuple.valueAt, hvalue]
  exact ⟨rfl, rfl⟩

theorem Plan.Ordered.exists (h : Plan.Ordered types column) : ∃ type, types[column]? = some type ∧ type ≠ .double := by
  unfold Plan.Ordered at h
  cases htype : types[column]? with
  | none =>
    rw [htype] at h
    cases h
  | some type =>
    rw [htype] at h
    exact ⟨type, rfl, of_decide_eq_true h⟩

theorem Predicate.matchesTuple_eq {p : Predicate} (h : t.HasTypes types) (hordered : Plan.Ordered types p.column)
    (htype : types[p.column]? = some p.value.type) : p.matchesTuple t = .ok (p.holds t) := by
  obtain ⟨hvalue, hsame⟩ := h.valueAt htype
  obtain ⟨type, htype', hdouble⟩ := hordered.exists
  obtain rfl := Option.some.inj (htype.symm.trans htype')
  rw [Predicate.matchesTuple, Predicate.holds, hvalue]
  simp only [bind, Except.bind, compareValues_eq hsame (hsame.trans_ne hdouble)]
  cases compare (t.column p.column) p.value <;> cases p.op <;> rfl

theorem sortLess_eq {keys : List SortKey} (h : t.HasTypes types) (h' : t'.HasTypes types)
    (hkeys : ∀ k ∈ keys, Plan.Ordered types k.column) : sortLess keys t t' = .ok (cmpRows keys t t' == .lt) := by
  induction keys with
  | nil => rfl
  | cons k keys ih =>
    obtain ⟨hk, hkeys⟩ := List.forall_mem_cons.mp hkeys
    obtain ⟨type, htype, hdouble⟩ := hk.exists
    obtain ⟨hvalue, hcolumn⟩ := h.valueAt htype
    obtain ⟨hvalue', hcolumn'⟩ := h'.valueAt htype
    have hcompare := compareValues_eq (hcolumn.trans hcolumn'.symm) (hcolumn.trans_ne hdouble)
    have hswap : compare (t'.column k.column) (t.column k.column) = (compare (t.column k.column) (t'.column k.column)).swap :=
      Std.OrientedCmp.eq_swap
    rw [sortLess, hvalue, hvalue', cmpRows, compareLex, SortKey.cmp, compareOn, compareOn, hswap, ih hkeys]
    simp only [bind, Except.bind, hcompare]
    cases compare (t.column k.column) (t'.column k.column) <;> cases k.ascending <;> rfl

instance (k : SortKey) : Std.TransCmp k.cmp := by
  unfold SortKey.cmp
  cases k.ascending
  · exact inferInstanceAs (Std.TransCmp fun a b => compareOn (fun t : Tuple => t.column k.column) b a)
  · exact inferInstanceAs (Std.TransCmp (compareOn fun t : Tuple => t.column k.column))

instance transCmp_cmpRows : (keys : List SortKey) → Std.TransCmp (cmpRows keys)
  | [] => { eq_swap := rfl, isLE_trans := fun _ _ => rfl }
  | k :: keys => have := transCmp_cmpRows keys; inferInstanceAs (Std.TransCmp (compareLex k.cmp (cmpRows keys)))

theorem stableSort_eq {keys : List SortKey} {rows : List Tuple} (hrows : ∀ t ∈ rows, t.HasTypes types)
    (hkeys : ∀ k ∈ keys, Plan.Ordered types k.column) : stableSort (sortLess keys) rows = .ok (sortRows keys rows) :=
  stableSort_ok fun a ha b hb => sortLess_eq (hrows a ha) (hrows b hb) hkeys

end Ddb.Execution
