import Ddb.Execution.TableHeap
import Ddb.Index.BPlusTree
import Ddb.Lib.PagedReading
import Ddb.Lib.StableSort

/-!
# Plans and executors

A plan is a tree; `makeExecutor` builds an executor for it, an iterator with `init` and `next`. Scans, filters and
projections stream, sorts, aggregates and joins materialize their rows in `init`. `next` writes to the tuple it is given and
says whether there was a row.

The fields of an executor survive an exception. `values.at` outside the tuple is a `logic` error, as `std::out_of_range` is;
`values[]` there is `outOfBounds`. A `while` over the rows of a child has `fuel` turns. `std::stable_sort` is an insertion
sort; when the comparison throws, the rows stay as they were. Labels and `explain` are left out.
-/

namespace Ddb.Execution

open Ddb.Lib Ddb.Storage Ddb.Index

/-! ## Values -/

/-- The expression `x < y ? -1 : (x > y ? 1 : 0)`. -/
def threeWay {α : Type} (less : α → α → Bool) (x y : α) : Int := if less x y then -1 else if less y x then 1 else 0

/-- All exponent bits are set and the mantissa is not zero. -/
def doubleIsNan (bits : UInt64) : Bool := decide (0x7ff0000000000000 < bits.toNat % 2 ^ 63)

/-- Sign and magnitude as a number; both zeros are 0. -/
def doubleKey (bits : UInt64) : Int :=
  if bits.toNat < 2 ^ 63 then (bits.toNat : Int) else -((bits.toNat % 2 ^ 63 : Nat) : Int)

def doubleLess (x y : UInt64) : Bool := !doubleIsNan x && !doubleIsNan y && decide (doubleKey x < doubleKey y)

def doubleEqual (x y : UInt64) : Bool := !doubleIsNan x && !doubleIsNan y && decide (doubleKey x = doubleKey y)

def compareValues : Value → Value → Except Err Int
  | .int64 x, .int64 y => .ok (threeWay (fun a b => decide (a < b)) x y)
  | .double x, .double y => .ok (threeWay doubleLess x y)
  | .boolean x, .boolean y => .ok (threeWay (fun a b => !a && b) x y)
  | .string x, .string y => .ok (threeWay (fun a b => compare a b == .lt) x y)
  | _, _ => .error (.invalidArgument "cannot compare unlike values")

/-- The `==` of the variant. -/
def Value.equals : Value → Value → Bool
  | .double x, .double y => doubleEqual x y
  | x, y => decide (x = y)

namespace Tuple

/-- The expression `values.at(column)`. -/
def valueAt (tuple : Tuple) (column : Nat) : Except Err Value :=
  match tuple.values[column]? with
  | some value => .ok value
  | none => .error (.logic "vector::at")

/-- The expression `values[column]`. -/
def valueOf (tuple : Tuple) (column : Nat) : Except Err Value :=
  match tuple.values[column]? with
  | some value => .ok value
  | none => .error .outOfBounds

end Tuple

inductive Predicate.Op where
  | eq
  | ne
  | lt
  | le
  | gt
  | ge
  deriving DecidableEq

structure Predicate where
  column : Nat
  op : Predicate.Op
  value : Value

def Predicate.matchesTuple (p : Predicate) (t : Tuple) : Except Err Bool := do
  let c ← compareValues (← t.valueAt p.column) p.value
  match p.op with
  | .eq => return decide (c = 0)
  | .ne => return decide (c ≠ 0)
  | .lt => return decide (c < 0)
  | .le => return decide (c ≤ 0)
  | .gt => return decide (c > 0)
  | .ge => return decide (c ≥ 0)

/-! ## Plans -/

structure SortKey where
  column : Nat
  ascending : Bool := true

inductive AggregateKind where
  | count
  | sum
  | min
  | max
  | avg
  deriving DecidableEq

structure AggregateSpec where
  kind : AggregateKind
  column : Option Nat

/-- A scan holds the table and the tree as they are when it runs. -/
inductive Plan where
  | seqScan (table : TableHeap)
  | indexScan (table : TableHeap) (tree : BPlusTree) (key : KeyType)
  | filter (child : Plan) (predicate : Predicate)
  | projection (child : Plan) (columns : List Nat)
  | sort (child : Plan) (keys : List SortKey)
  | aggregate (child : Plan) (aggregates : List AggregateSpec) (groups : List Nat)
  | join (left right : Plan) (leftColumn rightColumn : Nat)

/-! ## Executors -/

structure Executor where
  State : Type
  start : State
  init : Method PageId Payload Err State Unit
  next : Tuple → Method PageId Payload Err State (Bool × Tuple)

/-- The loop `while (child.next(t)) rows.push_back(t)` into a local vector. -/
def Executor.drain (e : Executor) : Nat → Tuple → Method PageId Payload Err e.State (List Tuple × Tuple)
  | 0, _ => throw .outOfFuel
  | fuel + 1, t => do
    let (more, t) ← e.next t
    if more then
      let (rows, last) ← e.drain fuel t
      return (t :: rows, last)
    else return ([], t)

structure SeqScanExecutor where
  rows : List (RecordId × Tuple)
  pos : Nat

def seqScanExecutor (table : TableHeap) : Executor where
  State := SeqScanExecutor
  start := ⟨[], 0⟩
  init := do
    let rows ← Method.on table TableHeap.scan
    set (⟨rows, 0⟩ : SeqScanExecutor)
  next o := do
    let s ← get
    if s.pos = s.rows.length then return (false, o)
    else
      let row ← getAt s.rows s.pos
      set { s with pos := s.pos + 1 }
      return (true, row.2)

structure IndexScanExecutor where
  done : Bool

def indexScanExecutor (table : TableHeap) (tree : BPlusTree) (key : KeyType) : Executor where
  State := IndexScanExecutor
  start := ⟨false⟩
  init := set (⟨false⟩ : IndexScanExecutor)
  next o := do
    let s ← get
    if s.done then return (false, o)
    else
      set (⟨true⟩ : IndexScanExecutor)
      match ← Method.on tree (BPlusTree.getValue key) with
      | none => return (false, o)
      | some r =>
        match ← Method.on table (TableHeap.getRecord r) with
        | none => return (false, o)
        | some t => return (true, t)

def filterLoop (child : Executor) (p : Predicate) : Nat → Tuple → Method PageId Payload Err child.State (Bool × Tuple)
  | 0, _ => throw .outOfFuel
  | fuel + 1, o => do
    let (more, o) ← child.next o
    if more then
      if ← Method.ofExcept (p.matchesTuple o) then return (true, o) else filterLoop child p fuel o
    else return (false, o)

def filterExecutor (fuel : Nat) (child : Executor) (p : Predicate) : Executor where
  State := child.State
  start := child.start
  init := child.init
  next o := filterLoop child p fuel o

def projectionExecutor (child : Executor) (columns : List Nat) : Executor where
  State := child.State
  start := child.start
  init := child.init
  next o := do
    let (more, input) ← child.next ⟨[]⟩
    if more then
      let values ← Method.ofExcept (columns.mapM input.valueAt)
      return (true, ⟨values⟩)
    else return (false, o)

/-! ### Materializing executors -/

structure MaterializedExecutor (σ : Type) where
  children : σ
  rows : List Tuple
  pos : Nat

namespace MaterializedExecutor

variable {σ α : Type}

abbrev Op (σ : Type) := Method PageId Payload Err (MaterializedExecutor σ)

/-- A call of a child. -/
def onChildren (x : Method PageId Payload Err σ α) : Op σ α :=
  x.zoom children fun s children => { s with children }

def pushBack (t : Tuple) : Op σ Unit := modify fun s => { s with rows := s.rows ++ [t] }

def clear : Op σ Unit := modify fun s => { s with rows := [] }

def init : Op σ Unit := modify fun s => { s with pos := 0 }

def next (o : Tuple) : Op σ (Bool × Tuple) := do
  let s ← get
  if s.pos = s.rows.length then return (false, o)
  else
    let row ← getAt s.rows s.pos
    set { s with pos := s.pos + 1 }
    return (true, row)

end MaterializedExecutor

open MaterializedExecutor (onChildren pushBack)

/-- The comparison of the sort. -/
def sortLess : List SortKey → Tuple → Tuple → Except Err Bool
  | [], _, _ => .ok false
  | k :: keys, a, b => do
    let c ← compareValues (← a.valueAt k.column) (← b.valueAt k.column)
    if c ≠ 0 then return if k.ascending then decide (c < 0) else decide (c > 0) else sortLess keys a b

/-- The loop of the sort, which fills the rows of the executor itself. -/
def sortLoop (child : Executor) : Nat → Tuple → MaterializedExecutor.Op child.State Unit
  | 0, _ => throw .outOfFuel
  | fuel + 1, t => do
    let (more, t) ← onChildren (child.next t)
    if more then
      pushBack t
      sortLoop child fuel t
    else return

def sortExecutor (fuel : Nat) (child : Executor) (keys : List SortKey) : Executor where
  State := MaterializedExecutor child.State
  start := ⟨child.start, [], 0⟩
  init := do
    MaterializedExecutor.clear
    onChildren child.init
    sortLoop child fuel ⟨[]⟩
    let s ← get
    let rows ← Method.ofExcept (stableSort (sortLess keys) s.rows)
    set { s with rows }
    MaterializedExecutor.init
  next := MaterializedExecutor.next

/-- The inner loop of the join. -/
def joinRow {σ : Type} (a b : Nat) (t : Tuple) : List Tuple → MaterializedExecutor.Op σ Unit
  | [] => return
  | r :: rs => do
    let left ← Method.ofExcept (t.valueAt a)
    let right ← Method.ofExcept (r.valueAt b)
    if left.equals right then
      pushBack ⟨t.values ++ r.values⟩
      joinRow a b t rs
    else joinRow a b t rs

def onLeft {σ τ α : Type} (x : Method PageId Payload Err σ α) : MaterializedExecutor.Op (σ × τ) α :=
  onChildren (x.zoom Prod.fst fun s left => (left, s.2))

def onRight {σ τ α : Type} (x : Method PageId Payload Err τ α) : MaterializedExecutor.Op (σ × τ) α :=
  onChildren (x.zoom Prod.snd fun s right => (s.1, right))

def joinLoop {τ : Type} (left : Executor) (a b : Nat) (rs : List Tuple) :
    Nat → Tuple → MaterializedExecutor.Op (left.State × τ) Unit
  | 0, _ => throw .outOfFuel
  | fuel + 1, t => do
    let (more, t) ← onLeft (left.next t)
    if more then
      joinRow a b t rs
      joinLoop left a b rs fuel t
    else return

def nestedLoopJoinExecutor (fuel : Nat) (left right : Executor) (a b : Nat) : Executor where
  State := MaterializedExecutor (left.State × right.State)
  start := ⟨(left.start, right.start), [], 0⟩
  init := do
    MaterializedExecutor.clear
    onRight right.init
    let (rs, t) ← onRight (right.drain fuel ⟨[]⟩)
    onLeft left.init
    joinLoop left a b rs fuel t
    MaterializedExecutor.init
  next := MaterializedExecutor.next

/-! ### Aggregates -/

/-- The grouping columns of two rows are the same. -/
def sameGroup (x y : Tuple) : List Nat → Except Err Bool
  | [] => .ok true
  | c :: groups => do
    if (← x.valueOf c).equals (← y.valueOf c) then sameGroup x y groups else return false

/-- A row goes to the first bucket of its group, or to a new one. -/
def putInBucket (groups : List Nat) (x : Tuple) : List (List Tuple) → Except Err (List (List Tuple))
  | [] => .ok [[x]]
  | bucket :: buckets => do
    let found ← match bucket with
      | [] => .ok false
      | first :: _ => sameGroup first x groups
    if found then return (bucket ++ [x]) :: buckets
    else
      let buckets ← putInBucket groups x buckets
      return bucket :: buckets

def makeBuckets (groups : List Nat) (input : List Tuple) : Except Err (List (List Tuple)) :=
  if groups.isEmpty then .ok [input] else input.foldlM (fun buckets x => putInBucket groups x buckets) []

/-- The loop of `MIN` and `MAX`, whose test is `better` on the comparison with the value so far. -/
def extremum (better : Int → Bool) (column : Nat) : List Tuple → Value → Except Err Value
  | [], v => .ok v
  | r :: rows, v => do
    let value ← r.valueOf column
    let c ← compareValues value v
    extremum better column rows (if better c then value else v)

def numeric : Value → Except Err Float
  | .int64 z => .ok z.toFloat
  | .double bits => .ok (Float.ofBits bits)
  | _ => .error (.invalidArgument "SUM/AVG requires numeric column")

def sumColumn (column : Nat) : List Tuple → Float → Except Err Float
  | [], sum => .ok sum
  | r :: rows, sum => do
    let z ← numeric (← r.valueOf column)
    sumColumn column rows (sum + z)

/-- The value of one aggregate, nothing where the loop goes on without one. -/
def aggregateValue (a : AggregateSpec) (bucket : List Tuple) : Except Err (Option Value) :=
  match a.kind, bucket with
  | .count, _ => .ok (some (.int64 (Int64.ofNat bucket.length)))
  | _, [] => .ok none
  | kind, first :: _ => do
    let column ← match a.column with
      | some column => .ok column
      | none => .error .outOfBounds
    let v ← first.valueOf column
    match kind with
    | .min => return some (← extremum (fun c => decide (c < 0)) column bucket v)
    | .max => return some (← extremum (fun c => decide (c > 0)) column bucket v)
    | .avg => return some (.double ((← sumColumn column bucket 0) / (UInt64.ofNat bucket.length).toFloat).toBits)
    | _ => return some (.double (← sumColumn column bucket 0).toBits)

def aggregateRow (aggregates : List AggregateSpec) (groups : List Nat) (bucket : List Tuple) : Except Err Tuple := do
  let keys ← match bucket with
    | [] => .ok []
    | first :: _ => groups.mapM first.valueOf
  let values ← aggregates.mapM fun a => aggregateValue a bucket
  return ⟨keys ++ values.reduceOption⟩

/-- The loop over the buckets. -/
def aggregateLoop {σ : Type} (aggregates : List AggregateSpec) (groups : List Nat) :
    List (List Tuple) → MaterializedExecutor.Op σ Unit
  | [] => return
  | bucket :: buckets => do
    let out ← Method.ofExcept (aggregateRow aggregates groups bucket)
    pushBack out
    aggregateLoop aggregates groups buckets

def aggregateExecutor (fuel : Nat) (child : Executor) (aggregates : List AggregateSpec) (groups : List Nat) : Executor where
  State := MaterializedExecutor child.State
  start := ⟨child.start, [], 0⟩
  init := do
    MaterializedExecutor.clear
    onChildren child.init
    let (input, _) ← onChildren (child.drain fuel ⟨[]⟩)
    let buckets ← Method.ofExcept (makeBuckets groups input)
    aggregateLoop aggregates groups buckets
    MaterializedExecutor.init
  next := MaterializedExecutor.next

/-! ## The executor of a plan -/

def makeExecutor (fuel : Nat) : Plan → Executor
  | .seqScan table => seqScanExecutor table
  | .indexScan table tree key => indexScanExecutor table tree key
  | .filter child predicate => filterExecutor fuel (makeExecutor fuel child) predicate
  | .projection child columns => projectionExecutor (makeExecutor fuel child) columns
  | .sort child keys => sortExecutor fuel (makeExecutor fuel child) keys
  | .aggregate child aggregates groups => aggregateExecutor fuel (makeExecutor fuel child) aggregates groups
  | .join left right leftColumn rightColumn =>
    nestedLoopJoinExecutor fuel (makeExecutor fuel left) (makeExecutor fuel right) leftColumn rightColumn

/-- What the users of an executor do: `init`, then `next` until it says that there is no row. -/
def Executor.collect (e : Executor) (fuel : Nat) : Method PageId Payload Err e.State (List Tuple) := do
  e.init
  let (rows, _) ← e.drain fuel ⟨[]⟩
  return rows

end Ddb.Execution
