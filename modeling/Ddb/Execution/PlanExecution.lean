import Ddb.Execution.PlanSemantics

/-!
# Executors produce the rows of their plan

An executor yields a list of rows from a state if `next` answers them one by one and then says that there is no more. From
whatever state, `init` leaves a state that yields the rows of the plan: that is all a parent needs to know of its child, and
the induction over plans carries it up. As nothing an executor does shows in the pages, `init` may follow any other calls,
also ones that threw.
-/

namespace Ddb.Execution

open Ddb.Lib Ddb.Storage Ddb.Index
open Ddb.Concurrency (Database)

/-! ## The rows of a well typed plan -/

variable {c : Catalog} {m : Memory PageId Payload} {plan : Plan} {types : List ValueType} {rows rest : List Tuple} {fuel : Nat}
  {child : Executor} {columns : List Nat} {table : TableHeap}

/-- The catalog says what the leaves of the plan answer on this memory. -/
def Plan.Backed (c : Catalog) (m : Memory PageId Payload) : Plan → Prop
  | seqScan table => TableHeap.scan.Gives table m fun rows _ _ => rows = c.scan table
  | indexScan table tree key =>
    (BPlusTree.getValue key).Gives Database.blank tree m (fun found _ _ => found = c.find tree key) ∧
    ∀ r, c.find tree key = some r → (TableHeap.getRecord r).Gives table m fun tuple _ _ => tuple = c.record table r
  | filter child _ | projection child _ | sort child _ | aggregate child _ _ => child.Backed c m
  | join left right _ _ => left.Backed c m ∧ right.Backed c m

theorem Plan.of_filter_types {child : Plan} {p : Predicate} (h : (filter child p).types = some types) :
    child.types = some types ∧ Ordered types p.column ∧ types[p.column]? = some p.value.type := by
  obtain ⟨types', hchild, h⟩ := Option.bind_eq_some_iff.mp h
  obtain ⟨_, hguard, h⟩ := Option.bind_eq_some_iff.mp h
  obtain rfl := Option.some.inj h
  exact ⟨hchild, (Option.guard_eq_some' _).mp hguard⟩

theorem Plan.of_projection_types {child : Plan} (h : (projection child columns).types = some types) :
    ∃ input, child.types = some input ∧ (columns.mapM fun column => input[column]?) = some types :=
  Option.bind_eq_some_iff.mp h

theorem Plan.of_sort_types {child : Plan} {keys : List SortKey} (h : (sort child keys).types = some types) :
    child.types = some types ∧ ∀ k ∈ keys, Ordered types k.column := by
  obtain ⟨types', hchild, h⟩ := Option.bind_eq_some_iff.mp h
  obtain ⟨_, hguard, h⟩ := Option.bind_eq_some_iff.mp h
  obtain rfl := Option.some.inj h
  exact ⟨hchild, (Option.guard_eq_some' _).mp hguard⟩

theorem Plan.of_join_types {left right : Plan} {a b : Nat} (h : (join left right a b).types = some types) :
    ∃ leftTypes rightTypes, left.types = some leftTypes ∧ right.types = some rightTypes ∧ types = leftTypes ++ rightTypes ∧
      Ordered leftTypes a ∧ leftTypes[a]? = rightTypes[b]? := by
  obtain ⟨leftTypes, hleft, h⟩ := Option.bind_eq_some_iff.mp h
  obtain ⟨rightTypes, hright, h⟩ := Option.bind_eq_some_iff.mp h
  obtain ⟨_, hguard, h⟩ := Option.bind_eq_some_iff.mp h
  obtain rfl := Option.some.inj h
  exact ⟨leftTypes, rightTypes, hleft, hright, rfl, (Option.guard_eq_some' _).mp hguard⟩

theorem projection_hasTypes {t : Tuple} {input : List ValueType} (h : t.HasTypes input)
    (hcolumns : (columns.mapM fun column => input[column]?) = some types) :
    columns.mapM t.valueAt = .ok (columns.map t.column) ∧ Tuple.HasTypes ⟨columns.map t.column⟩ types := by
  induction columns generalizing types with
  | nil =>
    obtain rfl := Option.some.inj hcolumns
    exact ⟨rfl, rfl⟩
  | cons column columns ih =>
    rw [List.mapM_cons] at hcolumns
    obtain ⟨type, htype, hcolumns⟩ := Option.bind_eq_some_iff.mp hcolumns
    obtain ⟨others, hothers, hcolumns⟩ := Option.bind_eq_some_iff.mp hcolumns
    obtain rfl := Option.some.inj hcolumns
    obtain ⟨hvalue, rfl⟩ := h.valueAt htype
    obtain ⟨hvalues, rfl⟩ := ih hothers
    refine ⟨?_, rfl⟩
    rw [List.mapM_cons, hvalue, hvalues]
    rfl

theorem rows_hasTypes (hbacked : plan.Backed c m) (htypes : plan.types = some types) :
    ∀ t ∈ plan.rows c, t.HasTypes types := by
  induction plan generalizing types with
  | seqScan table =>
    obtain rfl := Option.some.inj htypes
    rw [Plan.Backed] at hbacked
    obtain ⟨rows, hscan, hrows⟩ := (tells_scan table).exists_of_gives hbacked
    rw [hscan] at hrows
    intro t ht
    obtain ⟨row, hrow, rfl⟩ := List.mem_map.mp ht
    exact hrows row hrow
  | indexScan table tree key =>
    obtain rfl := Option.some.inj htypes
    intro t ht
    obtain ⟨r, hr, ht⟩ := Option.bind_eq_some_iff.mp (Option.mem_toList.mp ht)
    obtain ⟨tuple, hget, hrow⟩ := (tells_getRecord table r).exists_of_gives (hbacked.2 r hr)
    exact hrow t (hget.trans ht)
  | filter child p ih =>
    obtain ⟨hchild, -, -⟩ := Plan.of_filter_types htypes
    exact fun t ht => ih hbacked hchild t (List.mem_of_mem_filter ht)
  | projection child columns ih =>
    obtain ⟨input, hchild, hcolumns⟩ := Plan.of_projection_types htypes
    intro t ht
    obtain ⟨t', ht', rfl⟩ := List.mem_map.mp ht
    exact (projection_hasTypes (ih hbacked hchild t' ht') hcolumns).2
  | sort child keys ih =>
    obtain ⟨hchild, -⟩ := Plan.of_sort_types htypes
    exact fun t ht => ih hbacked hchild t (List.mem_mergeSort.mp ht)
  | aggregate child aggregates groups => cases htypes
  | join left right a b ihleft ihright =>
    obtain ⟨leftTypes, rightTypes, hleft, hright, rfl, -⟩ := Plan.of_join_types htypes
    intro t ht
    obtain ⟨l, hl, ht⟩ := List.mem_flatMap.mp ht
    obtain ⟨r, hr, rfl⟩ := List.mem_map.mp ht
    have hltypes := ihleft hbacked.1 hleft l hl
    have hrtypes := ihright hbacked.2 hright r (List.mem_of_mem_filter hr)
    rw [Tuple.HasTypes] at hltypes hrtypes ⊢
    rw [List.map_append, hltypes, hrtypes]

/-! ## What an executor yields -/

namespace Executor

/-- From this state `next` answers these rows, and then that there is no more. -/
def Yields (e : Executor) (m : Memory PageId Payload) : List Tuple → e.State → Prop
  | [], s => ∀ o, (e.next o).Gives Database.blank s m fun answer _ m' => answer.1 = false ∧ m' = m
  | row :: rest, s => ∀ o, (e.next o).Gives Database.blank s m fun answer s' m' =>
      answer = (true, row) ∧ m' = m ∧ e.Yields m rest s'

/-- After `init`, in whatever state it is called, the executor yields these rows. -/
def Restarts (e : Executor) (m : Memory PageId Payload) (rows : List Tuple) : Prop :=
  ∀ s, e.init.Gives Database.blank s m fun _ s' m' => m' = m ∧ e.Yields m rows s'

theorem Yields.gives_drain {e : Executor} {s : e.State} (h : e.Yields m rows s) (hfuel : rows.length < fuel) (t : Tuple) :
    (e.drain fuel t).Gives Database.blank s m fun result _ m' => result.1 = rows ∧ m' = m := by
  induction rows generalizing s fuel t with
  | nil =>
    obtain ⟨fuel, rfl⟩ := Nat.exists_eq_add_of_lt hfuel
    apply Method.gives_bind
    refine (h t).mono ?_
    rintro ⟨_, t'⟩ s' m' ⟨rfl, rfl⟩
    exact Method.gives_pure ⟨rfl, rfl⟩
  | cons row rest ih =>
    obtain ⟨fuel, rfl⟩ : ∃ n, fuel = n + 1 := ⟨fuel - 1, by omega⟩
    apply Method.gives_bind
    refine (h t).mono ?_
    rintro _ s' m' ⟨rfl, rfl, hrest⟩
    apply Method.gives_bind
    refine (ih hrest (by simpa using hfuel) row).mono ?_
    rintro ⟨_, last⟩ s'' m'' ⟨rfl, rfl⟩
    exact Method.gives_pure ⟨rfl, rfl⟩

theorem Restarts.gives_collect {e : Executor} (h : e.Restarts m rows) (hfuel : rows.length < fuel) (s : e.State) :
    (e.collect fuel).Gives Database.blank s m fun result _ m' => result = rows ∧ m' = m := by
  apply Method.gives_bind
  refine (h s).mono ?_
  rintro _ s' m' ⟨rfl, hyields⟩
  apply Method.gives_bind
  refine (hyields.gives_drain hfuel _).mono ?_
  rintro ⟨_, last⟩ s'' m'' ⟨rfl, rfl⟩
  exact Method.gives_pure ⟨rfl, rfl⟩

end Executor

/-! ## Streaming executors -/

theorem getAt_append {α σ : Type} {xs ys : List α} {x : α} {o : σ} {Q : α → σ → Memory PageId Payload → Prop} (h : Q x o m) :
    (getAt (xs ++ x :: ys) xs.length : Method PageId Payload Err σ α).Gives Database.blank o m Q := by
  unfold getAt
  rw [List.getElem?_append_right le_rfl, Nat.sub_self, List.getElem?_cons_zero]
  exact Method.gives_pure h

theorem yields_seqScan (done left : List (RecordId × Tuple)) :
    (seqScanExecutor table).Yields m (left.map Prod.snd) (⟨done ++ left, done.length⟩ : SeqScanExecutor) := by
  induction left generalizing done with
  | nil =>
    intro o
    apply Method.gives_bind
    apply Method.gives_get
    rw [if_pos (by simp)]
    exact Method.gives_pure ⟨rfl, rfl⟩
  | cons row left ih =>
    intro o
    apply Method.gives_bind
    apply Method.gives_get
    rw [if_neg (by simp)]
    apply Method.gives_bind
    apply getAt_append
    apply Method.gives_bind
    apply Method.gives_set
    have hnext := ih (done ++ [row])
    rw [List.append_assoc, List.length_append] at hnext
    exact Method.gives_pure ⟨rfl, rfl, hnext⟩

theorem restarts_seqScan {found : List (RecordId × Tuple)} (h : TableHeap.scan.Gives table m fun rows _ _ => rows = found) :
    (seqScanExecutor table).Restarts m (found.map Prod.snd) := by
  intro s
  apply Method.gives_bind
  apply Method.gives_on
  refine ((tells_scan table).gives h).mono ?_
  rintro rows heap m' ⟨rfl, -, -, rfl⟩
  exact Method.gives_set ⟨rfl, yields_seqScan [] rows⟩

theorem yields_done {tree : BPlusTree} {key : KeyType} :
    (indexScanExecutor table tree key).Yields m [] (⟨true⟩ : IndexScanExecutor) := by
  intro o
  apply Method.gives_bind
  apply Method.gives_get
  exact Method.gives_pure ⟨rfl, rfl⟩

theorem restarts_indexScan {tree : BPlusTree} {key : KeyType} {found : Option RecordId} {record : RecordId → Option Tuple}
    (hfind : (BPlusTree.getValue key).Gives Database.blank tree m fun r _ _ => r = found)
    (hrecord : ∀ r, found = some r → (TableHeap.getRecord r).Gives table m fun tuple _ _ => tuple = record r) :
    (indexScanExecutor table tree key).Restarts m (found.bind record).toList := by
  -- What the first call of `next` does, whatever it is to answer.
  have hnext : ∀ {Q : Bool × Tuple → IndexScanExecutor → Memory PageId Payload → Prop} (o : Tuple),
      (match found.bind record with
        | some t => Q (true, t) ⟨true⟩ m
        | none => Q (false, o) ⟨true⟩ m) →
      ((indexScanExecutor table tree key).next o).Gives Database.blank (⟨false⟩ : IndexScanExecutor) m Q := by
    intro Q o hQ
    apply Method.gives_bind
    apply Method.gives_get
    apply Method.gives_bind
    apply Method.gives_set
    apply Method.gives_bind
    apply Method.gives_on
    refine ((BPlusTree.reads_getValue key).tells.gives hfind).mono ?_
    rintro answer _ m' ⟨hanswer, -, -, rfl⟩
    rw [hanswer]
    cases found with
    | none => exact Method.gives_pure hQ
    | some r =>
      apply Method.gives_bind
      apply Method.gives_on
      refine ((tells_getRecord table r).gives (hrecord r rfl)).mono ?_
      rintro tuple _ m'' ⟨htuple, -, -, rfl⟩
      rw [Option.bind_some, ← htuple] at hQ
      cases tuple with
      | none | some t => exact Method.gives_pure hQ
  refine fun s => Method.gives_set ⟨rfl, ?_⟩
  cases hrow : found.bind record with
  | none =>
    refine fun o => hnext o ?_
    rw [hrow]
    exact ⟨rfl, rfl⟩
  | some t =>
    refine fun o => hnext o ?_
    rw [hrow]
    exact ⟨rfl, rfl, yields_done⟩

/-- One call of `next` of a filter: it ends with the child, or it stops at the next row that passes. -/
theorem gives_filterLoop {p : Predicate} {s : child.State} (h : child.Yields m rows s)
    (hmatch : ∀ t ∈ rows, p.matchesTuple t = .ok (p.holds t)) (hfuel : rows.length < fuel) (o : Tuple) :
    (filterLoop child p fuel o).Gives Database.blank s m fun answer s' m' => m' = m ∧
      ((answer.1 = false ∧ rows.filter p.holds = []) ∨
        ∃ row rest, answer = (true, row) ∧ child.Yields m rest s' ∧ (row :: rest) <:+ rows ∧
          rows.filter p.holds = row :: rest.filter p.holds) := by
  induction rows generalizing s fuel o with
  | nil =>
    obtain ⟨fuel, rfl⟩ : ∃ n, fuel = n + 1 := ⟨fuel - 1, by omega⟩
    apply Method.gives_bind
    refine (h o).mono ?_
    rintro ⟨_, o'⟩ s' m' ⟨rfl, rfl⟩
    exact Method.gives_pure ⟨rfl, .inl ⟨rfl, rfl⟩⟩
  | cons row rest ih =>
    obtain ⟨fuel, rfl⟩ : ∃ n, fuel = n + 1 := ⟨fuel - 1, by omega⟩
    obtain ⟨hrow, hrest⟩ := List.forall_mem_cons.mp hmatch
    apply Method.gives_bind
    refine (h o).mono ?_
    rintro _ s' m' ⟨rfl, rfl, hyields⟩
    apply Method.gives_bind
    refine Method.gives_ofExcept hrow ?_
    cases hholds : p.holds row with
    | true =>
      refine Method.gives_pure ⟨rfl, .inr ⟨row, rest, rfl, hyields, List.suffix_rfl, ?_⟩⟩
      rw [List.filter_cons_of_pos hholds]
    | false =>
      refine (ih hyields hrest (by simpa using hfuel) row).mono ?_
      rintro answer s'' m'' ⟨rfl, hanswer⟩
      rw [List.filter_cons_of_neg (by simp [hholds])]
      refine ⟨rfl, hanswer.imp_right ?_⟩
      rintro ⟨row', rest', hanswer, hyields, hsuffix, hfilter⟩
      exact ⟨row', rest', hanswer, hyields, hsuffix.trans (List.suffix_cons row rest), hfilter⟩

theorem yields_filter {p : Predicate} {s : child.State} (h : child.Yields m rows s)
    (hmatch : ∀ t ∈ rows, p.matchesTuple t = .ok (p.holds t)) (hfuel : rows.length < fuel) :
    (filterExecutor fuel child p).Yields m (rows.filter p.holds) s := by
  induction hlength : rows.length using Nat.strong_induction_on generalizing rows s with
  | _ n ih =>
    subst hlength
    cases hrows : rows.filter p.holds with
    | nil =>
      refine fun o => (gives_filterLoop h hmatch hfuel o).mono ?_
      rintro answer s' m' ⟨rfl, ⟨hanswer, -⟩ | ⟨row, rest, -, -, -, hfilter⟩⟩
      · exact ⟨hanswer, rfl⟩
      · rw [hfilter] at hrows
        cases hrows
    | cons first others =>
      refine fun o => (gives_filterLoop h hmatch hfuel o).mono ?_
      rintro answer s' m' ⟨rfl, ⟨-, hfilter⟩ | ⟨row, rest, rfl, hyields, hsuffix, hfilter⟩⟩
      · rw [hfilter] at hrows
        cases hrows
      · obtain ⟨rfl, rfl⟩ := List.cons.inj (hfilter.symm.trans hrows)
        have hle := hsuffix.length_le
        rw [List.length_cons] at hle
        refine ⟨rfl, rfl, ih rest.length (by omega) hyields (fun t ht => ?_) (by omega) rfl⟩
        exact hmatch t (hsuffix.subset (List.mem_cons_of_mem _ ht))

theorem restarts_filter {p : Predicate} (h : child.Restarts m rows) (hmatch : ∀ t ∈ rows, p.matchesTuple t = .ok (p.holds t))
    (hfuel : rows.length < fuel) : (filterExecutor fuel child p).Restarts m (rows.filter p.holds) :=
  fun s => (h s).mono fun _ _ _ ⟨hm, hyields⟩ => ⟨hm, yields_filter hyields hmatch hfuel⟩

theorem yields_projection {s : child.State} (h : child.Yields m rows s)
    (hcolumns : ∀ t ∈ rows, columns.mapM t.valueAt = .ok (columns.map t.column)) :
    (projectionExecutor child columns).Yields m (rows.map fun t => ⟨columns.map t.column⟩) s := by
  induction rows generalizing s with
  | nil =>
    intro o
    apply Method.gives_bind
    refine (h _).mono ?_
    rintro ⟨_, input⟩ s' m' ⟨rfl, rfl⟩
    exact Method.gives_pure ⟨rfl, rfl⟩
  | cons row rest ih =>
    obtain ⟨hrow, hrest⟩ := List.forall_mem_cons.mp hcolumns
    intro o
    apply Method.gives_bind
    refine (h _).mono ?_
    rintro _ s' m' ⟨rfl, rfl, hyields⟩
    apply Method.gives_bind
    refine Method.gives_ofExcept hrow ?_
    exact Method.gives_pure ⟨rfl, rfl, ih hyields hrest⟩

theorem restarts_projection (h : child.Restarts m rows)
    (hcolumns : ∀ t ∈ rows, columns.mapM t.valueAt = .ok (columns.map t.column)) :
    (projectionExecutor child columns).Restarts m (rows.map fun t => ⟨columns.map t.column⟩) :=
  fun s => (h s).mono fun _ _ _ ⟨hm, hyields⟩ => ⟨hm, yields_projection hyields hcolumns⟩

/-! ## Materializing executors -/

section Materialized

variable {σ : Type} {children : σ} {acc : List Tuple} {pos : Nat}

theorem yields_materialized {start : MaterializedExecutor σ} {init : MaterializedExecutor.Op σ Unit} (done left : List Tuple) :
    Executor.Yields ⟨MaterializedExecutor σ, start, init, MaterializedExecutor.next⟩ m left
      (⟨children, done ++ left, done.length⟩ : MaterializedExecutor σ) := by
  induction left generalizing done with
  | nil =>
    intro o
    apply Method.gives_bind
    apply Method.gives_get
    rw [if_pos (by simp)]
    exact Method.gives_pure ⟨rfl, rfl⟩
  | cons row left ih =>
    intro o
    apply Method.gives_bind
    apply Method.gives_get
    rw [if_neg (by simp)]
    apply Method.gives_bind
    apply getAt_append
    apply Method.gives_bind
    apply Method.gives_set
    have hnext := ih (done ++ [row])
    rw [List.append_assoc, List.length_append] at hnext
    exact Method.gives_pure ⟨rfl, rfl, hnext⟩

theorem gives_onLeft {τ α : Type} {x : Method PageId Payload Err σ α} {left : σ} {right : τ}
    {Q : α → MaterializedExecutor (σ × τ) → Memory PageId Payload → Prop}
    (h : x.Gives Database.blank left m fun answer left' m' => Q answer ⟨(left', right), acc, pos⟩ m') :
    (onLeft x).Gives Database.blank ⟨(left, right), acc, pos⟩ m Q := by
  unfold onLeft MaterializedExecutor.onChildren
  apply Method.gives_zoom
  apply Method.gives_zoom
  exact h

theorem gives_onRight {τ α : Type} {x : Method PageId Payload Err τ α} {left : σ} {right : τ}
    {Q : α → MaterializedExecutor (σ × τ) → Memory PageId Payload → Prop}
    (h : x.Gives Database.blank right m fun answer right' m' => Q answer ⟨(left, right'), acc, pos⟩ m') :
    (onRight x).Gives Database.blank ⟨(left, right), acc, pos⟩ m Q := by
  unfold onRight MaterializedExecutor.onChildren
  apply Method.gives_zoom
  apply Method.gives_zoom
  exact h

theorem gives_sortLoop {child : Executor} {s : child.State} (h : child.Yields m rows s) (hfuel : rows.length < fuel) (t : Tuple) :
    (sortLoop child fuel t).Gives Database.blank ⟨s, acc, pos⟩ m fun _ s' m' => m' = m ∧ s'.rows = acc ++ rows := by
  induction rows generalizing s fuel acc t with
  | nil =>
    obtain ⟨fuel, rfl⟩ : ∃ n, fuel = n + 1 := ⟨fuel - 1, by omega⟩
    apply Method.gives_bind
    apply Method.gives_zoom
    refine (h t).mono ?_
    rintro ⟨_, t'⟩ s' m' ⟨rfl, rfl⟩
    exact Method.gives_pure ⟨rfl, (List.append_nil acc).symm⟩
  | cons row rest ih =>
    obtain ⟨fuel, rfl⟩ : ∃ n, fuel = n + 1 := ⟨fuel - 1, by omega⟩
    apply Method.gives_bind
    apply Method.gives_zoom
    refine (h t).mono ?_
    rintro _ s' m' ⟨rfl, rfl, hyields⟩
    apply Method.gives_bind
    apply Method.gives_modify
    refine (ih hyields (by simpa using hfuel) row).mono ?_
    rintro _ s'' m'' ⟨rfl, hrows⟩
    exact ⟨rfl, hrows.trans (List.append_assoc acc [row] rest)⟩

theorem restarts_sort {child : Executor} {keys : List SortKey} (h : child.Restarts m rows) (hfuel : rows.length < fuel)
    (hsort : stableSort (sortLess keys) rows = .ok (sortRows keys rows)) :
    (sortExecutor fuel child keys).Restarts m (sortRows keys rows) := by
  intro s
  apply Method.gives_bind
  apply Method.gives_modify
  apply Method.gives_bind
  apply Method.gives_zoom
  refine (h s.children).mono ?_
  rintro _ s' m' ⟨rfl, hyields⟩
  apply Method.gives_bind
  refine (gives_sortLoop hyields hfuel _).mono ?_
  rintro _ ⟨children, out, pos⟩ m'' ⟨rfl, rfl⟩
  apply Method.gives_bind
  apply Method.gives_get
  apply Method.gives_bind
  refine Method.gives_ofExcept hsort ?_
  apply Method.gives_bind
  apply Method.gives_set
  exact Method.gives_modify ⟨rfl, yields_materialized [] _⟩

theorem gives_joinRow {a b : Nat} {t : Tuple} {rs : List Tuple} (hleft : t.valueAt a = .ok (t.column a))
    (hright : ∀ r ∈ rs, r.valueAt b = .ok (r.column b)) (hdouble : (t.column a).type ≠ .double) :
    (joinRow a b t rs : MaterializedExecutor.Op σ Unit).Gives Database.blank ⟨children, acc, pos⟩ m fun _ s' m' =>
      m' = m ∧ s' = ⟨children, acc ++ joinRows a b [t] rs, pos⟩ := by
  induction rs generalizing acc with
  | nil => exact Method.gives_pure ⟨rfl, by simp [joinRows]⟩
  | cons r rs ih =>
    obtain ⟨hr, hrs⟩ := List.forall_mem_cons.mp hright
    apply Method.gives_bind
    refine Method.gives_ofExcept hleft ?_
    apply Method.gives_bind
    refine Method.gives_ofExcept hr ?_
    rw [equals_eq hdouble]
    by_cases hequal : t.column a = r.column b
    · rw [decide_eq_true hequal, if_pos rfl]
      apply Method.gives_bind
      apply Method.gives_modify
      refine (ih hrs).mono ?_
      rintro _ s' m' ⟨rfl, rfl⟩
      exact ⟨rfl, by simp [joinRows, hequal]⟩
    · rw [decide_eq_false hequal, if_neg Bool.false_ne_true]
      refine (ih hrs).mono ?_
      rintro _ s' m' ⟨rfl, rfl⟩
      exact ⟨rfl, by simp [joinRows, hequal]⟩

theorem gives_joinLoop {τ : Type} {left : Executor} {right : τ} {a b : Nat} {rs : List Tuple} {s : left.State}
    (h : left.Yields m rows s) (hfuel : rows.length < fuel)
    (hleft : ∀ t ∈ rows, t.valueAt a = .ok (t.column a) ∧ (t.column a).type ≠ .double)
    (hright : ∀ r ∈ rs, r.valueAt b = .ok (r.column b)) (t : Tuple) :
    (joinLoop left a b rs fuel t).Gives Database.blank ⟨(s, right), acc, pos⟩ m fun _ s' m' =>
      m' = m ∧ s'.rows = acc ++ joinRows a b rows rs := by
  induction rows generalizing s fuel acc t with
  | nil =>
    obtain ⟨fuel, rfl⟩ : ∃ n, fuel = n + 1 := ⟨fuel - 1, by omega⟩
    apply Method.gives_bind
    apply gives_onLeft
    refine (h t).mono ?_
    rintro ⟨_, t'⟩ s' m' ⟨rfl, rfl⟩
    exact Method.gives_pure ⟨rfl, (List.append_nil acc).symm⟩
  | cons row rest ih =>
    obtain ⟨fuel, rfl⟩ : ∃ n, fuel = n + 1 := ⟨fuel - 1, by omega⟩
    obtain ⟨⟨hrow, hdouble⟩, hrest⟩ := List.forall_mem_cons.mp hleft
    apply Method.gives_bind
    apply gives_onLeft
    refine (h t).mono ?_
    rintro _ s' m' ⟨rfl, rfl, hyields⟩
    apply Method.gives_bind
    refine (gives_joinRow hrow hright hdouble).mono ?_
    rintro _ _ m'' ⟨rfl, rfl⟩
    refine (ih hyields (by simpa using hfuel) hrest row).mono ?_
    rintro _ s'' m'' ⟨rfl, hrows⟩
    refine ⟨rfl, hrows.trans ?_⟩
    rw [List.append_assoc, joinRows, joinRows, joinRows, ← List.flatMap_append]
    rfl

theorem restarts_join {left right : Executor} {a b : Nat} {rs : List Tuple} (h : left.Restarts m rows) (h' : right.Restarts m rs)
    (hfuel : rows.length < fuel) (hfuel' : rs.length < fuel)
    (hleft : ∀ t ∈ rows, t.valueAt a = .ok (t.column a) ∧ (t.column a).type ≠ .double)
    (hright : ∀ r ∈ rs, r.valueAt b = .ok (r.column b)) :
    (nestedLoopJoinExecutor fuel left right a b).Restarts m (joinRows a b rows rs) := by
  rintro ⟨⟨s, s₁⟩, acc, pos⟩
  apply Method.gives_bind
  apply Method.gives_modify
  apply Method.gives_bind
  apply gives_onRight
  refine (h' s₁).mono ?_
  rintro _ s' m' ⟨rfl, hyields'⟩
  apply Method.gives_bind
  apply gives_onRight
  refine (hyields'.gives_drain hfuel' _).mono ?_
  rintro ⟨_, t⟩ s'' m'' ⟨rfl, rfl⟩
  apply Method.gives_bind
  apply gives_onLeft
  refine (h s).mono ?_
  rintro _ s' m' ⟨rfl, hyields⟩
  apply Method.gives_bind
  refine (gives_joinLoop hyields hfuel hleft hright t).mono ?_
  rintro _ ⟨children, out, pos⟩ m'' ⟨rfl, rfl⟩
  exact Method.gives_modify ⟨rfl, yields_materialized [] _⟩

end Materialized

/-! ## The induction over plans -/

/-- Turns that are enough for the loops of the executor, and for the loop of who reads it. -/
def Plan.turns (c : Catalog) (plan : Plan) : Nat :=
  max ((plan.rows c).length + 1) <|
    match plan with
    | seqScan _ | indexScan _ _ _ => 0
    | filter child _ | projection child _ | sort child _ | aggregate child _ _ => child.turns c
    | join left right _ _ => max (left.turns c) (right.turns c)

theorem Plan.rows_lt_turns (c : Catalog) (plan : Plan) : (plan.rows c).length < plan.turns c := by
  rw [Plan.turns.eq_def]
  exact Nat.lt_of_lt_of_le (Nat.lt_succ_self _) (Nat.le_max_left _ _)

theorem Plan.turns_sort (c : Catalog) (child : Plan) (keys : List SortKey) : (sort child keys).turns c = child.turns c := by
  rw [Plan.turns, Plan.rows, sortRows, List.length_mergeSort]
  exact Nat.max_eq_right (child.rows_lt_turns c)

theorem restarts_makeExecutor (hbacked : plan.Backed c m) (htypes : plan.types = some types) (hfuel : plan.turns c ≤ fuel) :
    (makeExecutor fuel plan).Restarts m (plan.rows c) := by
  induction plan generalizing types with
  | seqScan table => exact restarts_seqScan hbacked
  | indexScan table tree key => exact restarts_indexScan hbacked.1 hbacked.2
  | filter child p ih =>
    obtain ⟨hchild, hordered, htype⟩ := Plan.of_filter_types htypes
    have hbacked : child.Backed c m := hbacked
    have hturns : child.turns c ≤ fuel := (Nat.le_max_right _ _).trans hfuel
    refine restarts_filter (ih hbacked hchild hturns) ?_ ((child.rows_lt_turns c).trans_le hturns)
    exact fun t ht => Predicate.matchesTuple_eq (rows_hasTypes hbacked hchild t ht) hordered htype
  | projection child columns ih =>
    obtain ⟨input, hchild, hcolumns⟩ := Plan.of_projection_types htypes
    have hbacked : child.Backed c m := hbacked
    refine restarts_projection (ih hbacked hchild ((Nat.le_max_right _ _).trans hfuel)) ?_
    exact fun t ht => (projection_hasTypes (rows_hasTypes hbacked hchild t ht) hcolumns).1
  | sort child keys ih =>
    obtain ⟨hchild, hkeys⟩ := Plan.of_sort_types htypes
    have hbacked : child.Backed c m := hbacked
    have hturns : child.turns c ≤ fuel := (Nat.le_max_right _ _).trans hfuel
    refine restarts_sort (ih hbacked hchild hturns) ((child.rows_lt_turns c).trans_le hturns) ?_
    exact stableSort_eq (rows_hasTypes hbacked hchild) hkeys
  | aggregate child aggregates groups => cases htypes
  | join left right a b ihleft ihright =>
    obtain ⟨leftTypes, rightTypes, hleft, hright, rfl, hordered, hsame⟩ := Plan.of_join_types htypes
    obtain ⟨type, htype, hdouble⟩ := hordered.exists
    have hturns : max (left.turns c) (right.turns c) ≤ fuel := (Nat.le_max_right _ _).trans hfuel
    obtain ⟨hfuel, hfuel'⟩ := max_le_iff.mp hturns
    refine restarts_join (ihleft hbacked.1 hleft hfuel) (ihright hbacked.2 hright hfuel')
      ((left.rows_lt_turns c).trans_le hfuel) ((right.rows_lt_turns c).trans_le hfuel') (fun t ht => ?_) fun t ht => ?_
    · obtain ⟨hvalue, hself⟩ := (rows_hasTypes hbacked.1 hleft t ht).valueAt htype
      exact ⟨hvalue, hself.trans_ne hdouble⟩
    · exact ((rows_hasTypes hbacked.2 hright t ht).valueAt (hsame ▸ htype)).1

end Ddb.Execution
