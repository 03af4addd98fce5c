import Mathlib.Data.List.ReduceOption
import Ddb.Execution.Queries
import Ddb.Lib.Buckets
import Ddb.Lib.Paired

/-!
# Aggregates

The rows of an aggregate are made in two loops: the input is sorted into buckets by the grouping columns, and each bucket gives
one row, its key followed by one value for each aggregate. A bucket of the first loop is never empty. Without grouping columns
there is one bucket, the whole input, and that may be empty: then only `COUNT` has a value, the other aggregates are left out
of the row, and what follows them moves to the left.
-/

namespace Ddb.Execution

open Ddb.Lib Ddb.Storage Ddb.Index
open Ddb.Concurrency (Database)

variable {m : Memory PageId Payload} {rows bucket : List Tuple} {t t' : Tuple} {c : Nat} {groups : List Nat}
  {aggregates : List AggregateSpec} {a : AggregateSpec} {fuel : Nat} {buckets : List (List Tuple)} {type : ValueType}

/-! ## Columns -/

theorem valueOf_column (h : c < t.values.length) : t.valueOf c = .ok (t.column c) := by
  rw [Tuple.valueOf, Tuple.column, List.getD_eq_getElem?_getD, List.getElem?_eq_getElem h]
  rfl

/-- The values of the column are all of one type. -/
def HasColumn (rows : List Tuple) (c : Nat) (type : ValueType) : Prop :=
  ∀ t ∈ rows, c < t.values.length ∧ (t.column c).type = type

def Value.isNumeric : Value → Bool
  | .int64 _ | .double _ => true
  | .boolean _ | .string _ => false

/-- The column of the aggregate is there: values that can be added, or values that can be compared with each other. -/
def AggregateSpec.Valid (a : AggregateSpec) (rows : List Tuple) : Prop :=
  match a.kind with
  | .count => True
  | .sum | .avg => ∃ c, a.column = some c ∧ ∀ t ∈ rows, c < t.values.length ∧ (t.column c).isNumeric = true
  | .min | .max => ∃ c type, a.column = some c ∧ HasColumn rows c type

theorem AggregateSpec.Valid.mono (h : a.Valid rows) (hsub : ∀ t ∈ bucket, t ∈ rows) : a.Valid bucket := by
  unfold AggregateSpec.Valid at h ⊢
  cases hkind : a.kind with
  | count => trivial
  | sum | avg =>
    simp only [hkind] at h
    obtain ⟨c, hc, hcolumn⟩ := h
    exact ⟨c, hc, fun t ht => hcolumn t (hsub t ht)⟩
  | min | max =>
    simp only [hkind] at h
    obtain ⟨c, type, hc, hcolumn⟩ := h
    exact ⟨c, type, hc, fun t ht => hcolumn t (hsub t ht)⟩

/-! ## Buckets -/

/-- The grouping columns of two rows are equal. -/
def sameKey (groups : List Nat) (x y : Tuple) : Bool := groups.all fun c => (x.column c).equals (y.column c)

theorem doubleEqual_iff {x y : UInt64} : doubleEqual x y = true ↔
    doubleIsNan x = false ∧ doubleIsNan y = false ∧ doubleKey x = doubleKey y := by
  simp [doubleEqual, and_assoc]

theorem equals_symm {x y : Value} (h : x.equals y = true) : y.equals x = true := by
  cases x with
  | double x =>
    cases y with
    | double y =>
      obtain ⟨hx, hy, heq⟩ := doubleEqual_iff.mp h
      exact doubleEqual_iff.mpr ⟨hy, hx, heq.symm⟩
    | _ => cases h
  | _ =>
    obtain rfl := of_decide_eq_true h
    exact h

theorem equals_trans {x y z : Value} (h : x.equals y = true) (h' : y.equals z = true) : x.equals z = true := by
  cases x with
  | double x =>
    cases y with
    | double y =>
      cases z with
      | double z =>
        obtain ⟨hx, -, heq⟩ := doubleEqual_iff.mp h
        obtain ⟨-, hz, heq'⟩ := doubleEqual_iff.mp h'
        exact doubleEqual_iff.mpr ⟨hx, hz, heq.trans heq'⟩
      | _ => cases h'
    | _ => cases h
  | _ =>
    obtain rfl := of_decide_eq_true h
    exact h'

theorem sameKey_symm (x y : Tuple) (h : sameKey groups x y = true) : sameKey groups y x = true := by
  rw [sameKey, List.all_eq_true] at h ⊢
  exact fun c hc => equals_symm (h c hc)

theorem sameKey_trans (x y z : Tuple) (h : sameKey groups x y = true) (h' : sameKey groups y z = true) :
    sameKey groups x z = true := by
  rw [sameKey, List.all_eq_true] at h h' ⊢
  exact fun c hc => equals_trans (h c hc) (h' c hc)

/-- The row has all grouping columns. -/
def HasKey (groups : List Nat) (t : Tuple) : Prop := ∀ c ∈ groups, c < t.values.length

theorem sameGroup_eq (h : HasKey groups t) (h' : HasKey groups t') : sameGroup t t' groups = .ok (sameKey groups t t') := by
  induction groups with
  | nil => rfl
  | cons c groups ih =>
    have hrest := ih (fun c hc => h c (List.mem_cons_of_mem _ hc)) fun c hc => h' c (List.mem_cons_of_mem _ hc)
    rw [sameGroup, valueOf_column (h c (List.mem_cons_self ..)), valueOf_column (h' c (List.mem_cons_self ..)), hrest]
    simp only [bind, Except.bind, sameKey, List.all_cons]
    cases (t.column c).equals (t'.column c) <;> rfl

theorem putInBucket_eq (hbuckets : ∀ b ∈ buckets, ∀ t ∈ b, HasKey groups t) (h : HasKey groups t) :
    putInBucket groups t buckets = .ok (putBy (sameKey groups) t buckets) := by
  induction buckets with
  | nil => rfl
  | cons b buckets ih =>
    obtain ⟨hb, hrest⟩ := List.forall_mem_cons.mp hbuckets
    unfold putInBucket
    rw [ih hrest, putBy]
    cases b with
    | nil => rfl
    | cons first rest =>
      simp only [sameGroup_eq (hb first (List.mem_cons_self ..)) h, bind, Except.bind, pure, Except.pure, List.head?_cons,
        Option.any_some]
      exact (apply_ite Except.ok _ _ _).symm

/-- The buckets of the input. -/
def bucketsOf (groups : List Nat) (rows : List Tuple) : List (List Tuple) :=
  if groups.isEmpty then [rows] else bucketsBy (sameKey groups) rows

theorem mem_of_mem_bucketsBy {r : Tuple → Tuple → Bool} (hb : bucket ∈ bucketsBy r rows) (ht : t ∈ bucket) : t ∈ rows :=
  (bucketed_bucketsBy r rows).perm.mem_iff.mp (List.mem_flatten.mpr ⟨bucket, hb, ht⟩)

theorem makeBuckets_eq (h : ∀ t ∈ rows, HasKey groups t) : makeBuckets groups rows = .ok (bucketsOf groups rows) := by
  rw [makeBuckets, bucketsOf]
  split
  · rfl
  · induction rows using List.reverseRecOn with
    | nil => rfl
    | append_singleton rows t ih =>
      have hrows : ∀ t ∈ rows, HasKey groups t := fun t ht => h t (List.mem_append_left _ ht)
      have hkey : HasKey groups t := h t (List.mem_append_right _ (List.mem_singleton_self t))
      have hsplit : bucketsBy (sameKey groups) (rows ++ [t]) = putBy (sameKey groups) t (bucketsBy (sameKey groups) rows) := by
        rw [bucketsBy, List.foldl_append]
        rfl
      rw [List.foldlM_append, ih hrows, hsplit]
      have hkeys : ∀ b ∈ bucketsBy (sameKey groups) rows, ∀ t ∈ b, HasKey groups t := fun b hb t ht =>
        hrows t (mem_of_mem_bucketsBy hb ht)
      simp only [bind, Except.bind, List.foldlM_cons, List.foldlM_nil, pure, Except.pure]
      rw [putInBucket_eq hkeys hkey]

/-- The groups of the input: one bucket without grouping columns; with them a bucket for each key, in the order in which the
keys first appear, each with all rows of its key. A key with a NaN is equal to no key, and its row is alone. -/
structure GroupedBy (groups : List Nat) (rows : List Tuple) (buckets : List (List Tuple)) : Prop where
  single : groups = [] → buckets = [rows]
  firsts : groups ≠ [] → firsts buckets = rows.eraseDupsBy fun y x => sameKey groups x y
  nonempty : groups ≠ [] → ∀ b ∈ buckets, b ≠ []
  distinct : (Lib.firsts buckets).Pairwise fun x y => sameKey groups x y = false
  perm : buckets.flatten.Perm rows
  whole : ∀ b ∈ buckets, ∀ x, b.head? = some x → sameKey groups x x = true → b = rows.filter (sameKey groups x)

theorem groupedBy_bucketsOf (groups : List Nat) (rows : List Tuple) : GroupedBy groups rows (bucketsOf groups rows) := by
  unfold bucketsOf
  cases groups with
  | nil =>
    refine ⟨fun _ => rfl, nofun, nofun, ?_, ?_, ?_⟩
    · cases rows with
      | nil => exact .nil
      | cons t rows => exact List.pairwise_singleton _ _
    · simp
    · intro b hb x _ _
      have hall : rows.filter (sameKey [] x) = rows := List.filter_eq_self.mpr fun _ _ => rfl
      exact (List.mem_singleton.mp hb).trans hall.symm
  | cons c groups =>
    have hbuckets := bucketed_bucketsBy (sameKey (c :: groups)) rows
    refine ⟨nofun, fun _ => hbuckets.firsts, fun _ b hb => ?_, hbuckets.distinct, hbuckets.perm, ?_⟩
    · obtain ⟨z, rest, rfl, -⟩ := hbuckets.same b hb
      exact List.cons_ne_nil z rest
    · exact bucketsBy_whole sameKey_symm sameKey_trans rows

/-! ## Values -/

theorem compareValues_ok {x y : Value} (h : x.type = y.type) : ∃ o, compareValues x y = .ok o := by
  cases x <;> cases y <;> first | exact ⟨_, rfl⟩ | cases h

/-- The value wins over the other in the loop with this test. -/
def beats (better : Int → Bool) (x y : Value) : Bool := better (signOf (compare x y))

/-- The loop of `MIN` and `MAX` ends with the value it began with or one of the column. Unless they are doubles, it comes before
all of these in the order of the test. -/
theorem extremum_ok {better : Int → Bool} {cmp : Value → Value → Ordering} [Std.TransCmp cmp]
    (hbeats : ∀ x y, beats better x y = (cmp x y).isLT) {v : Value} (hcolumn : HasColumn rows c type) (hv : v.type = type) :
    ∃ w, extremum better c rows v = .ok w ∧ w ∈ v :: rows.map (·.column c) ∧
      (type ≠ .double → ∀ x ∈ v :: rows.map (·.column c), (cmp w x).isLE = true) := by
  induction rows generalizing v with
  | nil =>
    refine ⟨v, rfl, List.mem_cons_self .., fun _ x hx => ?_⟩
    rw [List.mem_singleton.mp hx, (Std.ReflCmp.compare_self : cmp v v = .eq)]
    rfl
  | cons t rows ih =>
    obtain ⟨⟨hlt, htype⟩, hrest⟩ := List.forall_mem_cons.mp hcolumn
    obtain ⟨o, ho⟩ := compareValues_ok (htype.trans hv.symm)
    have hnext : (if better o then t.column c else v).type = type := by
      split
      · exact htype
      · exact hv
    obtain ⟨w, hrun, hmem, hbound⟩ := ih hrest hnext
    refine ⟨w, ?_, ?_, fun hdouble x hx => ?_⟩
    · rw [extremum, valueOf_column hlt]
      simp only [bind, Except.bind, ho]
      exact hrun
    · rcases List.mem_cons.mp hmem with rfl | hmem
      · split
        · exact List.mem_cons_of_mem _ (List.mem_cons_self ..)
        · exact List.mem_cons_self ..
      · exact List.mem_cons_of_mem _ (List.mem_cons_of_mem _ hmem)
    · have hbound := hbound hdouble
      rw [compareValues_eq (htype.trans hv.symm) (htype.trans_ne hdouble)] at ho
      obtain rfl := Except.ok.inj ho
      have hwins : better (signOf (compare (t.column c) v)) = (cmp (t.column c) v).isLT := hbeats _ _
      have hkept := hbound _ (List.mem_cons_self ..)
      rw [hwins] at hkept
      -- The value of this row and the one before it: the loop went on with the winner, and the result comes before that.
      have hboth : (cmp w v).isLE = true ∧ (cmp w (t.column c)).isLE = true := by
        cases horder : cmp (t.column c) v with
        | lt =>
          rw [horder, if_pos (by decide)] at hkept
          exact ⟨Std.TransCmp.isLE_trans hkept (by rw [horder]; rfl), hkept⟩
        | eq | gt =>
          rw [horder, if_neg (by decide)] at hkept
          exact ⟨hkept, Std.TransCmp.isLE_trans hkept (by rw [@Std.OrientedCmp.eq_swap _ cmp _ v, horder]; rfl)⟩
      rcases List.mem_cons.mp hx with rfl | hx
      · exact hboth.1
      · rcases List.mem_cons.mp hx with rfl | hx
        · exact hboth.2
        · exact hbound x (List.mem_cons_of_mem _ hx)

theorem beats_min (x y : Value) : beats (fun c => decide (c < 0)) x y = (compare x y).isLT := by
  unfold beats
  cases compare x y <;> rfl

theorem beats_max (x y : Value) : beats (fun c => decide (c > 0)) x y = (compare y x).isLT := by
  rw [Std.OrientedOrd.eq_swap (a := y)]
  unfold beats
  cases compare x y <;> rfl

theorem HasColumn.type_of_mem {w : Value} (h : HasColumn rows c type) (hw : w ∈ rows.map (·.column c)) : w.type = type := by
  obtain ⟨t, ht, rfl⟩ := List.mem_map.mp hw
  exact (h t ht).2

/-- An extremum begins with the first value of the column. -/
theorem extremum_column {better : Int → Bool} {cmp : Value → Value → Ordering} [Std.TransCmp cmp]
    (hbeats : ∀ x y, beats better x y = (cmp x y).isLT) {first : Tuple} {rest : List Tuple}
    (hcolumn : HasColumn (first :: rest) c type) : ∃ w, extremum better c (first :: rest) (first.column c) = .ok w ∧
      w ∈ (first :: rest).map (·.column c) ∧ (w.type ≠ .double → ∀ t ∈ first :: rest, (cmp w (t.column c)).isLE = true) := by
  obtain ⟨w, hrun, hmem, hbound⟩ := extremum_ok hbeats hcolumn (hcolumn first (List.mem_cons_self ..)).2
  have hmem : w ∈ (first :: rest).map (·.column c) := by
    rcases List.mem_cons.mp hmem with rfl | hmem
    · exact List.mem_cons_self ..
    · exact hmem
  exact ⟨w, hrun, hmem, fun hdouble t ht =>
    hbound (hcolumn.type_of_mem hmem ▸ hdouble) _ (List.mem_cons_of_mem _ (List.mem_map_of_mem ht))⟩

theorem numeric_ok {v : Value} (h : v.isNumeric = true) : ∃ z, numeric v = .ok z := by
  cases v with
  | int64 z => exact ⟨_, rfl⟩
  | double bits => exact ⟨_, rfl⟩
  | boolean b => cases h
  | string text => cases h

theorem sumColumn_ok (h : ∀ t ∈ rows, c < t.values.length ∧ (t.column c).isNumeric = true) (sum : Float) :
    ∃ total, sumColumn c rows sum = .ok total := by
  induction rows generalizing sum with
  | nil => exact ⟨sum, rfl⟩
  | cons t rows ih =>
    obtain ⟨⟨hlt, hnumeric⟩, hrest⟩ := List.forall_mem_cons.mp h
    obtain ⟨z, hz⟩ := numeric_ok hnumeric
    obtain ⟨total, htotal⟩ := ih hrest (sum + z)
    refine ⟨total, ?_⟩
    rw [sumColumn, valueOf_column hlt]
    simp only [bind, Except.bind, hz]
    exact htotal

/-- What the value of an aggregate is for a group. A `COUNT` is taken modulo `2 ^ 64`. -/
structure AggregateSpec.Result (a : AggregateSpec) (bucket : List Tuple) (v : Value) : Prop where
  value : aggregateValue a bucket = .ok (some v)
  count : a.kind = .count → v = .int64 (Int64.ofNat bucket.length)
  min : a.kind = .min → ∃ c, a.column = some c ∧ v ∈ bucket.map (·.column c) ∧
    (v.type ≠ .double → ∀ t ∈ bucket, (compare v (t.column c)).isLE = true)
  max : a.kind = .max → ∃ c, a.column = some c ∧ v ∈ bucket.map (·.column c) ∧
    (v.type ≠ .double → ∀ t ∈ bucket, (compare (t.column c) v).isLE = true)

theorem aggregateValue_ok (h : a.Valid bucket) (hbucket : bucket ≠ [] ∨ a.kind = .count) : ∃ v, a.Result bucket v := by
  obtain ⟨kind, column⟩ := a
  cases kind with
  | count => exact ⟨_, rfl, fun _ => rfl, nofun, nofun⟩
  | sum =>
    obtain ⟨c, rfl, hcolumn⟩ := h
    obtain ⟨first, rest, rfl⟩ := List.exists_cons_of_ne_nil (hbucket.resolve_right nofun)
    obtain ⟨total, htotal⟩ := sumColumn_ok hcolumn 0
    have hfirst := valueOf_column (hcolumn first (List.mem_cons_self ..)).1
    refine ⟨.double total.toBits, ?_, nofun, nofun, nofun⟩
    simp only [aggregateValue, bind, Except.bind, hfirst, htotal, pure, Except.pure]
  | avg =>
    obtain ⟨c, rfl, hcolumn⟩ := h
    obtain ⟨first, rest, rfl⟩ := List.exists_cons_of_ne_nil (hbucket.resolve_right nofun)
    obtain ⟨total, htotal⟩ := sumColumn_ok hcolumn 0
    have hfirst := valueOf_column (hcolumn first (List.mem_cons_self ..)).1
    refine ⟨.double (total / (UInt64.ofNat (first :: rest).length).toFloat).toBits, ?_, nofun, nofun, nofun⟩
    simp only [aggregateValue, bind, Except.bind, hfirst, htotal, pure, Except.pure]
  | min =>
    obtain ⟨c, type, rfl, hcolumn⟩ := h
    obtain ⟨first, rest, rfl⟩ := List.exists_cons_of_ne_nil (hbucket.resolve_right nofun)
    obtain ⟨w, hrun, hmem, hbound⟩ := extremum_column beats_min hcolumn
    refine ⟨w, ?_, nofun, fun _ => ⟨c, rfl, hmem, hbound⟩, nofun⟩
    simp only [aggregateValue, bind, Except.bind, valueOf_column (hcolumn first (List.mem_cons_self ..)).1, hrun, pure, Except.pure]
  | max =>
    obtain ⟨c, type, rfl, hcolumn⟩ := h
    obtain ⟨first, rest, rfl⟩ := List.exists_cons_of_ne_nil (hbucket.resolve_right nofun)
    have : Std.TransCmp fun x y : Value => compare y x := Std.TransCmp.opposite
    obtain ⟨w, hrun, hmem, hbound⟩ := extremum_column beats_max hcolumn
    refine ⟨w, ?_, nofun, nofun, fun _ => ⟨c, rfl, hmem, hbound⟩⟩
    simp only [aggregateValue, bind, Except.bind, valueOf_column (hcolumn first (List.mem_cons_self ..)).1, hrun, pure, Except.pure]

/-! ## Rows -/

theorem mapM_ok {α β : Type} {f : α → Except Err β} {g : α → β} {xs : List α} (h : ∀ x ∈ xs, f x = .ok (g x)) :
    xs.mapM f = .ok (xs.map g) := by
  induction xs with
  | nil => rfl
  | cons x xs ih =>
    obtain ⟨hx, hxs⟩ := List.forall_mem_cons.mp h
    rw [List.mapM_cons, hx, ih hxs]
    rfl

/-- The row of a group: its key, and behind it a value for each aggregate. -/
structure Aggregated (aggregates : List AggregateSpec) (groups : List Nat) (bucket : List Tuple) (row : Tuple) : Prop where
  width : row.values.length = groups.length + aggregates.length
  keys : ∀ (j c : Nat), groups[j]? = some c → ∀ first, bucket.head? = some first → row.values[j]? = some (first.column c)
  values : ∀ (i : Nat) a, aggregates[i]? = some a → ∃ v, row.values[groups.length + i]? = some v ∧ a.Result bucket v

theorem aggregateRow_ok (hkey : ∀ t ∈ bucket, HasKey groups t) (hvalid : ∀ a ∈ aggregates, a.Valid bucket)
    (hbucket : bucket = [] → groups = [] ∧ ∀ a ∈ aggregates, a.kind = .count) :
    ∃ row, aggregateRow aggregates groups bucket = .ok row ∧ Aggregated aggregates groups bucket row := by
  have hvalue : ∀ a ∈ aggregates, ∃ v, a.Result bucket v := by
    intro a ha
    refine aggregateValue_ok (hvalid a ha) ?_
    by_cases hempty : bucket = []
    · exact Or.inr ((hbucket hempty).2 a ha)
    · exact Or.inl hempty
  have : Nonempty Value := ⟨.boolean false⟩
  choose! value hvalue using hvalue
  have hvalues : aggregates.mapM (fun a => aggregateValue a bucket) = .ok (aggregates.map (some ∘ value)) :=
    mapM_ok fun a ha => (hvalue a ha).value
  have hreduce : (aggregates.map (some ∘ value)).reduceOption = aggregates.map value := by
    rw [List.reduceOption, List.filterMap_map]
    exact congrFun List.filterMap_eq_map aggregates
  obtain ⟨keys, hkeys, hlength, hcolumns⟩ : ∃ keys : List Value, (match bucket with
        | [] => .ok []
        | first :: _ => groups.mapM first.valueOf : Except Err (List Value)) = .ok keys ∧ keys.length = groups.length ∧
      ∀ (j c : Nat), groups[j]? = some c → ∀ first, bucket.head? = some first → keys[j]? = some (first.column c) := by
    cases bucket with
    | nil => exact ⟨[], rfl, (congrArg List.length (hbucket rfl).1).symm, nofun⟩
    | cons first rest =>
      have hfirst : HasKey groups first := hkey first (List.mem_cons_self ..)
      refine ⟨groups.map first.column, mapM_ok fun c hc => valueOf_column (hfirst c hc), List.length_map _, ?_⟩
      intro j c hc _ hhead
      obtain rfl := Option.some.inj hhead
      rw [List.getElem?_map, hc]
      rfl
  refine ⟨⟨keys ++ aggregates.map value⟩, ?_, ?_, fun j c hc first hfirst => ?_, fun i a ha => ?_⟩
  · cases bucket with
    | nil =>
      obtain rfl := Except.ok.inj hkeys
      simp only [aggregateRow, bind, Except.bind, hvalues, pure, Except.pure, hreduce]
    | cons first rest =>
      simp only [aggregateRow, bind, Except.bind, hvalues, pure, Except.pure, hreduce]
      dsimp only at hkeys
      rw [hkeys]
  · simp [hlength]
  · rw [List.getElem?_append_left (hlength ▸ (List.getElem?_eq_some_iff.mp hc).1)]
    exact hcolumns j c hc first hfirst
  · refine ⟨value a, ?_, hvalue a (List.mem_of_getElem? ha)⟩
    rw [List.getElem?_append_right (by omega), hlength, Nat.add_sub_cancel_left, List.getElem?_map, ha]
    rfl

/-- An empty group has values for `COUNT` only. -/
theorem aggregateRow_nil (aggregates : List AggregateSpec) (groups : List Nat) :
    ∃ row, aggregateRow aggregates groups [] = .ok row ∧
      row.values.length = aggregates.countP fun a => decide (a.kind = .count) := by
  have hvalue : ∀ a : AggregateSpec, aggregateValue a [] =
      .ok (if a.kind = .count then some (.int64 (Int64.ofNat 0)) else none) := by
    rintro ⟨kind, column⟩
    cases kind <;> rfl
  have hvalues := mapM_ok fun a (_ : a ∈ aggregates) => hvalue a
  refine ⟨⟨[] ++ (aggregates.map fun a => if a.kind = .count then some (Value.int64 (Int64.ofNat 0)) else none).reduceOption⟩,
    ?_, ?_⟩
  · simp only [aggregateRow, bind, Except.bind, hvalues, pure, Except.pure]
  · induction aggregates with
    | nil => rfl
    | cons a aggregates ih =>
      have hrest := ih (mapM_ok fun a _ => hvalue a)
      rw [List.countP_cons, ← hrest, List.map_cons]
      by_cases hkind : a.kind = .count
      · simp [hkind, List.reduceOption_cons_of_some]
      · simp [hkind, List.reduceOption_cons_of_none]

/-! ## The executor -/

theorem gives_aggregateLoop {σ : Type} {children : σ} {acc out : List Tuple} {pos : Nat}
    (h : List.Forall₂ (fun b row => aggregateRow aggregates groups b = .ok row) buckets out) :
    (aggregateLoop aggregates groups buckets : MaterializedExecutor.Op σ Unit).Gives Database.blank ⟨children, acc, pos⟩ m
      fun _ s' m' => m' = m ∧ s'.rows = acc ++ out := by
  induction h generalizing acc with
  | nil => exact Method.gives_pure ⟨rfl, (List.append_nil acc).symm⟩
  | @cons b row buckets out hrow _ ih =>
    apply Method.gives_bind
    refine Method.gives_ofExcept hrow ?_
    apply Method.gives_bind
    apply Method.gives_modify
    refine ih.mono ?_
    rintro _ s' m' ⟨rfl, hrows⟩
    exact ⟨rfl, hrows.trans (List.append_assoc acc [row] out)⟩

theorem restarts_aggregate {child : Executor} {out : List Tuple} (h : child.Restarts m rows) (hfuel : rows.length < fuel)
    (hbuckets : makeBuckets groups rows = .ok buckets)
    (hrows : List.Forall₂ (fun b row => aggregateRow aggregates groups b = .ok row) buckets out) :
    (aggregateExecutor fuel child aggregates groups).Restarts m out := by
  intro s
  apply Method.gives_bind
  apply Method.gives_modify
  apply Method.gives_bind
  apply Method.gives_zoom
  refine (h s.children).mono ?_
  rintro _ s' m' ⟨rfl, hyields⟩
  apply Method.gives_bind
  apply Method.gives_zoom
  refine (hyields.gives_drain hfuel _).mono ?_
  rintro ⟨_, t⟩ s'' m'' ⟨rfl, rfl⟩
  apply Method.gives_bind
  refine Method.gives_ofExcept hbuckets ?_
  apply Method.gives_bind
  refine (gives_aggregateLoop hrows).mono ?_
  rintro _ ⟨children, out, pos⟩ m'' ⟨rfl, rfl⟩
  exact Method.gives_modify ⟨rfl, yields_materialized [] _⟩

/-- The number at a position of a row, 0 if there is none. -/
def countAt (position : Nat) (row : Tuple) : Int :=
  match row.values[position]? with
  | some (.int64 n) => n.toInt
  | _ => 0

theorem toInt_count {n : Nat} (h : n < 2 ^ 63) : (Int64.ofNat n).toInt = n := by
  rw [Int64.toInt_ofNat_of_lt h]

theorem sum_countAt {out : List Tuple} {i : Nat} (h : List.Forall₂ (Aggregated aggregates groups) buckets out)
    (ha : aggregates[i]? = some a) (hkind : a.kind = .count) (hsize : buckets.flatten.length < 2 ^ 63) :
    (out.map (countAt (groups.length + i))).sum = buckets.flatten.length := by
  induction h with
  | nil => rfl
  | @cons b row buckets out hrow _ ih =>
    rw [List.flatten_cons, List.length_append] at hsize ⊢
    obtain ⟨v, hv, hresult⟩ := hrow.values i a ha
    have hcount : countAt (groups.length + i) row = b.length := by
      rw [countAt, hv, hresult.count hkind]
      exact toInt_count (by omega)
    rw [List.map_cons, List.sum_cons, ih (by omega), hcount]
    omega

/-- Only `COUNT` is asked of an input without rows and without grouping columns. -/
def CountsEmpty (aggregates : List AggregateSpec) (groups : List Nat) (rows : List Tuple) : Prop :=
  rows = [] → groups = [] → ∀ a ∈ aggregates, a.kind = .count

theorem countP_count_eq_length : (aggregates.countP fun a => decide (a.kind = .count)) = aggregates.length ↔
    ∀ a ∈ aggregates, a.kind = .count := by
  rw [List.countP_eq_length]
  exact forall₂_congr fun a _ => decide_eq_true_iff

/-- The output of an aggregate over any executor that yields the input: a row for each group, in the order of the groups. Every
row has its full width exactly when only `COUNT` is asked of an input without rows and without grouping columns. Then each row
has the key of its group in front and behind it, at their positions, the values of the aggregates for it; and a column of
counts adds up to the number of input rows. -/
theorem aggregate_rows {child : Executor} (h : child.Restarts m rows) (hfuel : rows.length < fuel)
    (hgroups : ∀ t ∈ rows, HasKey groups t) (hvalid : ∀ a ∈ aggregates, a.Valid rows) :
    ∃ buckets out, (aggregateExecutor fuel child aggregates groups).Restarts m out ∧ GroupedBy groups rows buckets ∧
      out.length = buckets.length ∧
      ((∀ row ∈ out, row.values.length = groups.length + aggregates.length) ↔ CountsEmpty aggregates groups rows) ∧
      (CountsEmpty aggregates groups rows → List.Forall₂ (Aggregated aggregates groups) buckets out ∧
        ∀ (i : Nat) a, aggregates[i]? = some a → a.kind = .count → rows.length < 2 ^ 63 →
          (out.map (countAt (groups.length + i))).sum = rows.length) := by
  have hgrouped := groupedBy_bucketsOf groups rows
  have hmem : ∀ b ∈ bucketsOf groups rows, ∀ t ∈ b, t ∈ rows := fun b hb t ht =>
    hgrouped.perm.mem_iff.mp (List.mem_flatten.mpr ⟨b, hb, ht⟩)
  have hrow : ∀ b ∈ bucketsOf groups rows, (b = [] → groups = [] ∧ ∀ a ∈ aggregates, a.kind = .count) →
      ∃ row, aggregateRow aggregates groups b = .ok row ∧ Aggregated aggregates groups b row := fun b hb hempty =>
    aggregateRow_ok (fun t ht => hgroups t (hmem b hb t ht)) (fun a ha => (hvalid a ha).mono (hmem b hb)) hempty
  by_cases hcounts : CountsEmpty aggregates groups rows
  · have hrow : ∀ b ∈ bucketsOf groups rows, ∃ row,
        aggregateRow aggregates groups b = .ok row ∧ Aggregated aggregates groups b row := by
      intro b hb
      refine hrow b hb ?_
      rintro rfl
      have hnone : groups = [] := by
        by_contra hsome
        exact hgrouped.nonempty hsome [] hb rfl
      have hrows := hgrouped.single hnone
      rw [hrows, List.mem_singleton] at hb
      exact ⟨hnone, hcounts hb.symm hnone⟩
    obtain ⟨out, hout⟩ := exists_forall₂ hrow
    have hrows := hout.imp fun _ _ h => h.2
    refine ⟨bucketsOf groups rows, out, ?_, hgrouped, hout.length_eq.symm, iff_of_true ?_ hcounts, fun _ => ⟨hrows, ?_⟩⟩
    · exact restarts_aggregate h hfuel (makeBuckets_eq hgroups) (hout.imp fun _ _ h => h.1)
    · intro row hrow
      obtain ⟨b, -, hb⟩ := exists_left_of_mem hrows hrow
      exact hb.width
    · intro i a ha hkind hsize
      rw [← hgrouped.perm.length_eq] at hsize ⊢
      exact sum_countAt hrows ha hkind hsize
  · -- The one group is empty, and the aggregates that are not `COUNT` are missing.
    have hempty := hcounts
    unfold CountsEmpty at hempty
    push Not at hempty
    obtain ⟨rfl, rfl, a, ha, hkind⟩ := hempty
    obtain ⟨row, hrow, hlength⟩ := aggregateRow_nil aggregates []
    refine ⟨[[]], [row], restarts_aggregate h hfuel rfl (.cons hrow .nil), hgrouped, rfl, iff_of_false (fun hwidth => ?_) hcounts,
      fun hcounts' => absurd hcounts' hcounts⟩
    have hwidth := hwidth row (List.mem_singleton_self row)
    rw [hlength, List.length_nil, Nat.zero_add, countP_count_eq_length] at hwidth
    exact hkind (hwidth a ha)

def townRows : List Tuple :=
  [⟨[.int64 3, .string [98]]⟩, ⟨[.int64 1, .string [97]]⟩, ⟨[.int64 2, .string [98]]⟩]

theorem towns_scanned : ∃ heap tree db, towns = ((.ok (heap, tree), ()), db) ∧
    (seqScanExecutor heap).Restarts db.memory townRows := by
  obtain ⟨heap, tree, db, htowns, ⟨hscan, -⟩, hready⟩ := towns_smooth
  exact ⟨heap, tree, db, htowns, restarts_seqScan (gives_of_run (tells_scan heap) hready hscan.1 (of_toOption hscan.2))⟩

/-- The number of rows of each town and the smallest number of them. -/
def townCounts : List AggregateSpec := [⟨.count, none⟩, ⟨.min, some 0⟩]

theorem towns_counted : ∃ heap tree db, towns = ((.ok (heap, tree), ()), db) ∧ ∃ buckets out,
    (aggregateExecutor 4 (seqScanExecutor heap) townCounts [1]).Restarts db.memory out ∧
    GroupedBy [1] townRows buckets ∧ List.Forall₂ (Aggregated townCounts [1]) buckets out := by
  obtain ⟨heap, tree, db, htowns, hscan⟩ := towns_scanned
  have hkeys : ∀ t ∈ townRows, ∀ c ∈ [1], c < t.values.length := by decide
  have hcolumn : ∀ t ∈ townRows, 0 < t.values.length ∧ (t.column 0).type = .int64 := by decide
  have hvalid : ∀ a ∈ townCounts, a.Valid townRows := by
    intro a ha
    rcases List.mem_cons.mp ha with rfl | ha
    · trivial
    · rw [List.mem_singleton.mp ha]
      exact ⟨0, .int64, rfl, hcolumn⟩
  obtain ⟨buckets, out, hrestarts, hgrouped, -, -, hrows⟩ := aggregate_rows hscan (by decide : _ < 4) hkeys hvalid
  exact ⟨heap, tree, db, htowns, buckets, out, hrestarts, hgrouped, (hrows nofun).1⟩

/-- The smallest of no numbers and how many there are. -/
def noTowns : List AggregateSpec := [⟨.min, some 0⟩, ⟨.count, none⟩]

/-- No row has a number above 9. The output is one row with one value, and the count, the second aggregate, is its first. -/
theorem no_towns_misplaced : ∃ heap tree db, towns = ((.ok (heap, tree), ()), db) ∧
    (filterExecutor 4 (seqScanExecutor heap) ⟨0, .gt, .int64 9⟩).Restarts db.memory [] ∧
    (aggregateExecutor 4 (filterExecutor 4 (seqScanExecutor heap) ⟨0, .gt, .int64 9⟩) noTowns []).Restarts db.memory
      [⟨[.int64 0]⟩] ∧ ¬ CountsEmpty noTowns [] [] := by
  obtain ⟨heap, tree, db, htowns, hscan⟩ := towns_scanned
  have hnone : (filterExecutor 4 (seqScanExecutor heap) ⟨0, .gt, .int64 9⟩).Restarts db.memory [] := by
    refine restarts_filter hscan (fun t ht => ?_) (by decide)
    simp only [townRows, List.mem_cons, List.not_mem_nil, or_false] at ht
    rcases ht with rfl | rfl | rfl <;> rfl
  refine ⟨heap, tree, db, htowns, hnone, restarts_aggregate hnone (by decide) rfl (.cons rfl .nil), fun hcounts => ?_⟩
  cases hcounts rfl rfl ⟨.min, some 0⟩ (List.mem_cons_self ..)

end Ddb.Execution
