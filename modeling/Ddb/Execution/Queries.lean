import Ddb.Execution.PlanExecution

/-!
# Queries on a database

An executor reads pages and changes none. So whatever calls were made on it, and however they ended, the tables and trees of
its plan are as they were, and `init` starts the query anew.
-/

namespace Ddb.Execution

open Ddb.Lib Ddb.Storage Ddb.Index Ddb.Concurrency
open MaterializedExecutor (onChildren pushBack)

/-! ## Executors only look -/

/-- No method of the executor changes a page. -/
structure Executor.Looks (e : Executor) : Prop where
  init : e.init.Looks
  next : ∀ o, (e.next o).Looks

variable {child left right : Executor} {fuel : Nat}

theorem looks_getAt {α σ : Type} {xs : List α} {i : Nat} : (getAt xs i : Method PageId Payload Err σ α).Looks :=
  reads_getAt.looks

theorem looks_drain (h : child.Looks) (fuel : Nat) (t : Tuple) : (child.drain fuel t).Looks := by
  induction fuel generalizing t with
  | zero => exact Method.looks_throw _
  | succ fuel ih =>
    refine (h.next t).bind fun answer => Method.Looks.ite ?_ (Method.looks_pure _)
    exact (ih answer.2).bind fun result => Method.looks_pure _

theorem looks_seqScan (table : TableHeap) : (seqScanExecutor table).Looks where
  init := (tells_scan table).looks_on.bind fun rows => Method.looks_set _
  next o := by
    refine Method.looks_get.bind fun s => Method.Looks.ite (Method.looks_pure _) ?_
    exact looks_getAt.bind fun row => (Method.looks_set _).bind fun _ => Method.looks_pure _

theorem looks_indexScan (table : TableHeap) (tree : BPlusTree) (key : KeyType) : (indexScanExecutor table tree key).Looks where
  init := Method.looks_set _
  next o := by
    refine Method.looks_get.bind fun s => Method.Looks.ite (Method.looks_pure _) ?_
    refine (Method.looks_set _).bind fun _ => (BPlusTree.reads_getValue key).tells.looks_on.bind fun found => ?_
    cases found with
    | none => exact Method.looks_pure _
    | some r =>
      refine (tells_getRecord table r).looks_on.bind fun tuple => ?_
      cases tuple with
      | none | some t => exact Method.looks_pure _

theorem looks_filterLoop (h : child.Looks) (p : Predicate) (fuel : Nat) (o : Tuple) : (filterLoop child p fuel o).Looks := by
  induction fuel generalizing o with
  | zero => exact Method.looks_throw _
  | succ fuel ih =>
    refine (h.next o).bind fun answer => Method.Looks.ite ?_ (Method.looks_pure _)
    exact (Method.looks_ofExcept _).bind fun found => (Method.looks_pure _).ite (ih answer.2)

theorem looks_filter (h : child.Looks) (p : Predicate) : (filterExecutor fuel child p).Looks where
  init := h.init
  next := looks_filterLoop h p fuel

theorem looks_projection (h : child.Looks) (columns : List Nat) : (projectionExecutor child columns).Looks where
  init := h.init
  next _ := (h.next _).bind fun _ =>
    ((Method.looks_ofExcept _).bind fun _ => Method.looks_pure _).ite (Method.looks_pure _)

section Materialized

variable {σ : Type}

theorem looks_next (o : Tuple) : (MaterializedExecutor.next o : MaterializedExecutor.Op σ (Bool × Tuple)).Looks := by
  refine Method.looks_get.bind fun s => Method.Looks.ite (Method.looks_pure _) ?_
  exact looks_getAt.bind fun row => (Method.looks_set _).bind fun _ => Method.looks_pure _

theorem looks_sortLoop (h : child.Looks) (fuel : Nat) (t : Tuple) : (sortLoop child fuel t).Looks := by
  induction fuel generalizing t with
  | zero => exact Method.looks_throw _
  | succ fuel ih =>
    refine (h.next t).zoom.bind fun answer => Method.Looks.ite ?_ (Method.looks_pure _)
    exact (Method.looks_modify _).bind fun _ => ih answer.2

theorem looks_sort (h : child.Looks) (keys : List SortKey) : (sortExecutor fuel child keys).Looks where
  init := (Method.looks_modify _).bind fun _ => h.init.zoom.bind fun _ => (looks_sortLoop h fuel _).bind fun _ =>
    Method.looks_get.bind fun _ => (Method.looks_ofExcept _).bind fun _ => (Method.looks_set _).bind fun _ =>
      Method.looks_modify _
  next := looks_next

theorem looks_onLeft {τ α : Type} {x : Method PageId Payload Err σ α} (h : x.Looks) :
    (onLeft x : MaterializedExecutor.Op (σ × τ) α).Looks := by
  unfold onLeft onChildren
  exact h.zoom.zoom

theorem looks_onRight {τ α : Type} {x : Method PageId Payload Err τ α} (h : x.Looks) :
    (onRight x : MaterializedExecutor.Op (σ × τ) α).Looks := by
  unfold onRight onChildren
  exact h.zoom.zoom

theorem looks_joinRow (a b : Nat) (t : Tuple) (rs : List Tuple) : (joinRow a b t rs : MaterializedExecutor.Op σ Unit).Looks := by
  induction rs with
  | nil => exact Method.looks_pure _
  | cons r rs ih =>
    refine (Method.looks_ofExcept _).bind fun left => (Method.looks_ofExcept _).bind fun right => Method.Looks.ite ?_ ih
    exact (Method.looks_modify _).bind fun _ => ih

theorem looks_joinLoop {τ : Type} (h : left.Looks) (a b : Nat) (rs : List Tuple) (fuel : Nat) (t : Tuple) :
    (joinLoop left a b rs fuel t : MaterializedExecutor.Op (left.State × τ) Unit).Looks := by
  induction fuel generalizing t with
  | zero => exact Method.looks_throw _
  | succ fuel ih =>
    refine (looks_onLeft (h.next t)).bind fun answer => Method.Looks.ite ?_ (Method.looks_pure _)
    exact (looks_joinRow a b _ rs).bind fun _ => ih answer.2

theorem looks_join (hleft : left.Looks) (hright : right.Looks) (a b : Nat) :
    (nestedLoopJoinExecutor fuel left right a b).Looks where
  init := (Method.looks_modify _).bind fun _ => (looks_onRight hright.init).bind fun _ =>
    (looks_onRight (looks_drain hright fuel _)).bind fun _ => (looks_onLeft hleft.init).bind fun _ =>
      (looks_joinLoop hleft a b _ fuel _).bind fun _ => Method.looks_modify _
  next := looks_next

theorem looks_aggregateLoop (aggregates : List AggregateSpec) (groups : List Nat) (buckets : List (List Tuple)) :
    (aggregateLoop aggregates groups buckets : MaterializedExecutor.Op σ Unit).Looks := by
  induction buckets with
  | nil => exact Method.looks_pure _
  | cons bucket buckets ih =>
    exact (Method.looks_ofExcept _).bind fun _ => (Method.looks_modify _).bind fun _ => ih

theorem looks_aggregate (h : child.Looks) (aggregates : List AggregateSpec) (groups : List Nat) :
    (aggregateExecutor fuel child aggregates groups).Looks where
  init := (Method.looks_modify _).bind fun _ => h.init.zoom.bind fun _ => (looks_drain h fuel _).zoom.bind fun _ =>
    (Method.looks_ofExcept _).bind fun _ => (looks_aggregateLoop aggregates groups _).bind fun _ => Method.looks_modify _
  next := looks_next

end Materialized

theorem looks_makeExecutor (fuel : Nat) (plan : Plan) : (makeExecutor fuel plan).Looks := by
  induction plan with
  | seqScan table => exact looks_seqScan table
  | indexScan table tree key => exact looks_indexScan table tree key
  | filter child p ih => exact looks_filter ih p
  | projection child columns ih => exact looks_projection ih columns
  | sort child keys ih => exact looks_sort ih keys
  | aggregate child aggregates groups ih => exact looks_aggregate ih aggregates groups
  | join left right a b ihleft ihright => exact looks_join ihleft ihright a b

/-! ## Calls -/

inductive ExecutorCall where
  | init
  | next (o : Tuple)

/-- An executor and the database it reads. -/
structure Query (e : Executor) where
  db : Database
  state : e.State

namespace Query

variable {e : Executor}

/-- A query after a method of the executor, however that ended. -/
def perform {α : Type} (q : Query e) (client : Option TransactionId) (x : Method PageId Payload Err e.State α) :
    Except Err α × Query e :=
  let result := (x.run q.state).run (Database.pager client) q.db
  (result.1.1, ⟨result.2, result.1.2⟩)

/-- No page access and no allocation of the method fails. -/
structure Smooth {α : Type} (q : Query e) (client : Option TransactionId) (x : Method PageId Payload Err e.State α) : Prop where
  run : (x.run q.state).Smooth (Database.pager client) q.db

instance {α : Type} (q : Query e) (client : Option TransactionId) (x : Method PageId Payload Err e.State α) :
    Decidable (q.Smooth client x) := decidable_of_iff _ ⟨Smooth.mk, Smooth.run⟩

def step (q : Query e) : Option TransactionId × ExecutorCall → Query e
  | (client, .init) => (q.perform client e.init).2
  | (client, .next o) => (q.perform client (e.next o)).2

/-- A step shows in nothing but the state of the executor. -/
theorem step_keeps (h : e.Looks) {m : Memory PageId Payload} (q : Query e) (c : Option TransactionId × ExecutorCall)
    (hq : q.db.memory = m ∧ q.db.Ready) : (q.step c).db.memory = m ∧ (q.step c).db.Ready := by
  have hread : ∀ (db : Database) (id : PageId) (change : Payload → Option Payload), (∀ page, change page = none) →
      db.memory = m ∧ db.Ready → ((Database.pager c.1).access id change db).2.memory = m ∧
        ((Database.pager c.1).access id change db).2.Ready := by
    rintro db id change hchange ⟨hmemory, hready⟩
    obtain ⟨hsame, hready⟩ := Database.pager_read hready hchange
    exact ⟨hsame.trans hmemory, hready⟩
  obtain ⟨client, call⟩ := c
  cases call with
  | init => exact PageProg.Reads.run_keeps hread (h.init q.state) hq
  | next o => exact PageProg.Reads.run_keeps hread (h.next o q.state) hq

end Query

/-- Whatever calls were made on the executor of a well typed plan, `init` and then `next` until it ends give the rows of the
plan, as long as no page access of them fails. -/
theorem query_rows {db : Database} {c : Catalog} {plan : Plan} {types : List ValueType} {fuel : Nat} (hready : db.Ready)
    (hbacked : plan.Backed c db.memory) (htypes : plan.types = some types) (hfuel : plan.turns c ≤ fuel)
    (before : List (Option TransactionId × ExecutorCall)) (client : Option TransactionId)
    (q : Query (makeExecutor fuel plan)) (hq : q = exec Query.step ⟨db, (makeExecutor fuel plan).start⟩ before)
    (hsmooth : q.Smooth client ((makeExecutor fuel plan).collect fuel)) :
    (q.perform client ((makeExecutor fuel plan).collect fuel)).1 = .ok (plan.rows c) := by
  have hkeeps : q.db.memory = db.memory ∧ q.db.Ready := by
    rw [hq]
    exact exec_keeps (P := fun q : Query (makeExecutor fuel plan) => q.db.memory = db.memory ∧ q.db.Ready)
      (Query.step_keeps (looks_makeExecutor fuel plan)) ⟨rfl, hready⟩
  obtain ⟨hmemory, hready⟩ := hkeeps
  have hgives := (restarts_makeExecutor hbacked htypes hfuel).gives_collect ((plan.rows_lt_turns c).trans_le hfuel) q.state
  rw [← hmemory] at hgives
  obtain ⟨⟨rows, hrun, rfl, -⟩, -⟩ := (Database.pager_shows client).run_of_sat hready hsmooth.run hgives
  exact hrun

/-- What a method that only reads has answered is what it gives. -/
theorem gives_of_run {σ α : Type} {x : Method PageId Payload Err σ α} {o : σ} {P : α → Prop} {a : α} {db : Database}
    {client : Option TransactionId} (h : x.Tells o P) (hready : db.Ready) (hsmooth : (x.run o).Smooth (Database.pager client) db)
    (hrun : ((x.run o).run (Database.pager client) db).1.1 = .ok a) :
    x.Gives Database.blank o db.memory fun answer _ _ => answer = a := by
  refine ((Database.pager_shows client).sat_of_reads h hready hsmooth).mono ?_
  rintro result m rfl
  exact ⟨a, hrun, rfl⟩

/-- A table of numbers and towns, and a tree with the record of one number. -/
def townProg : Method PageId Payload Err Unit (TableHeap × BPlusTree) := do
  let heap ← TableHeap.createAndOpen ⟨[⟨"id", .int64⟩, ⟨"town", .string⟩]⟩
  let (heap, r) ← Method.on heap do
    let _ ← TableHeap.insertImpl ⟨[.int64 3, .string [98]]⟩
    let _ ← TableHeap.insertImpl ⟨[.int64 1, .string [97]]⟩
    let r ← TableHeap.insertImpl ⟨[.int64 2, .string [98]]⟩
    return (← get, r)
  let tree ← BPlusTree.openTree (← BPlusTree.create ⟨2, 2⟩)
  let tree ← Method.on tree do
    let _ ← BPlusTree.insertImpl 2 (r.getD ⟨.invalid, 0⟩)
    get
  return (heap, tree)

def townDb : Database := (System.new 4).db

def towns : (Except Err (TableHeap × BPlusTree) × Unit) × Database := (townProg.run ()).run (Database.pager none) townDb

/-- The rows above 1, each with the rows of its town, and with the indexed row if that is of the same town. -/
def townPairs (heap : TableHeap) (tree : BPlusTree) : Plan :=
  .projection (.join (.filter (.seqScan heap) ⟨0, .gt, .int64 1⟩)
    (.join (.seqScan heap) (.indexScan heap tree 2) 1 1) 1 1) [0, 2, 4]

def townPlan (heap : TableHeap) (tree : BPlusTree) : Plan := .sort (townPairs heap tree) [⟨0, true⟩, ⟨1, false⟩]

def townCatalog : Catalog where
  scan _ := [(⟨.ofIndex 1, 0⟩, ⟨[.int64 3, .string [98]]⟩), (⟨.ofIndex 1, 1⟩, ⟨[.int64 1, .string [97]]⟩),
    (⟨.ofIndex 1, 2⟩, ⟨[.int64 2, .string [98]]⟩)]
  record _ _ := some ⟨[.int64 2, .string [98]]⟩
  find _ _ := some ⟨.ofIndex 1, 2⟩

/-- A query that was begun and stopped after one row. -/
def townQuery (heap : TableHeap) (tree : BPlusTree) (db : Database) : Query (makeExecutor 10 (townPlan heap tree)) :=
  exec Query.step ⟨db, (makeExecutor 10 (townPlan heap tree)).start⟩ [(none, .init), (none, .next ⟨[]⟩)]

/-- Nothing fails, and the table and the tree answer as the catalog says. -/
def TownSmooth (heap : TableHeap) (tree : BPlusTree) (db : Database) : Prop :=
  ((TableHeap.scan.run heap).Smooth (Database.pager none) db ∧
    ((TableHeap.scan.run heap).run (Database.pager none) db).1.1.toOption = some (townCatalog.scan heap)) ∧
  (((BPlusTree.getValue 2).run tree).Smooth (Database.pager none) db ∧
    (((BPlusTree.getValue 2).run tree).run (Database.pager none) db).1.1.toOption = some (townCatalog.find tree 2)) ∧
  (((TableHeap.getRecord ⟨.ofIndex 1, 2⟩).run heap).Smooth (Database.pager none) db ∧
    (((TableHeap.getRecord ⟨.ofIndex 1, 2⟩).run heap).run (Database.pager none) db).1.1.toOption =
      some (townCatalog.record heap ⟨.ofIndex 1, 2⟩)) ∧
  ((townPlan heap tree).types = some [.int64, .int64, .int64] ∧ (townPairs heap tree).turns townCatalog ≤ 10) ∧
  (townQuery heap tree db).Smooth none ((makeExecutor 10 (townPlan heap tree)).collect 10)

instance (heap : TableHeap) (tree : BPlusTree) (db : Database) : Decidable (TownSmooth heap tree db) :=
  inferInstanceAs (Decidable (_ ∧ _))

theorem towns_smooth : ∃ heap tree db, towns = ((.ok (heap, tree), ()), db) ∧ TownSmooth heap tree db ∧ db.Ready := by
  have hchecks : (towns.1.1.toOption.any fun objects => decide (TownSmooth objects.1 objects.2 towns.2)) = true := by
    decide +kernel
  have hsmooth : (townProg.run ()).Smooth (Database.pager none) townDb := by decide +kernel
  have hready : towns.2.Ready :=
    (Database.pager_shows none).ready_of_smooth (Database.ready_exec (System.launch_new 4).working []) hsmooth
  rcases htowns : towns with ⟨⟨outcome, _⟩, db⟩
  rw [htowns] at hchecks hready
  cases outcome with
  | error e => cases hchecks
  | ok objects => exact ⟨objects.1, objects.2, db, rfl, of_decide_eq_true hchecks, hready⟩

theorem of_toOption {α : Type} {outcome : Except Err α} {a : α} (h : outcome.toOption = some a) : outcome = .ok a := by
  cases outcome with
  | error e => cases h
  | ok b => exact congrArg Except.ok (Option.some.inj h)

/-- The query is begun anew and gives all rows. -/
theorem towns_rows : ∃ heap tree db, towns = ((.ok (heap, tree), ()), db) ∧
    ((townQuery heap tree db).perform none ((makeExecutor 10 (townPlan heap tree)).collect 10)).1 =
      .ok ((townPlan heap tree).rows townCatalog) := by
  obtain ⟨heap, tree, db, htowns, ⟨hscan, hfind, hget, ⟨htypes, hturns⟩, hsmooth⟩, hready⟩ := towns_smooth
  have hseq : (Plan.seqScan heap).Backed townCatalog db.memory :=
    gives_of_run (tells_scan heap) hready hscan.1 (of_toOption hscan.2)
  have hfound : (BPlusTree.getValue 2).Gives Database.blank tree db.memory fun found _ _ => found = townCatalog.find tree 2 :=
    gives_of_run (BPlusTree.reads_getValue 2).tells hready hfind.1 (of_toOption hfind.2)
  have hindex : (Plan.indexScan heap tree 2).Backed townCatalog db.memory := by
    refine ⟨hfound, fun r hr => ?_⟩
    obtain rfl := Option.some.inj hr
    exact gives_of_run (tells_getRecord heap _) hready hget.1 (of_toOption hget.2)
  have hbacked : (townPlan heap tree).Backed townCatalog db.memory := ⟨hseq, hseq, hindex⟩
  have hfuel : (townPlan heap tree).turns townCatalog ≤ 10 := (Plan.turns_sort _ _ _).trans_le hturns
  have hrows := query_rows hready hbacked htypes hfuel [(none, .init), (none, .next ⟨[]⟩)] none (townQuery heap tree db) rfl hsmooth
  exact ⟨heap, tree, db, htowns, hrows⟩

/-! ## Tables and maps -/

/-- What tables and maps answer. -/
def Catalog.ofTables (table : TableHeap → Table) (map : BPlusTree → KeyMap) : Catalog :=
  ⟨fun heap => (table heap).rows, fun heap r => (table heap).getRecord r, map⟩

section Tables

variable {m : Memory PageId Payload} {heap : TableHeap} {chain : List DataPage} {table : TableHeap → Table}
  {map : BPlusTree → KeyMap} {tree : BPlusTree} {s : Store} {levels : List (List Inner)} {leaves : List Leaf} {key : KeyType}

theorem backed_seqScan (h : Holds heap m chain) (htable : entries chain = table heap) :
    (Plan.seqScan heap).Backed (.ofTables table map) m := by
  rw [Plan.Backed]
  refine (gives_scan h).mono fun rows _ _ hrows => ?_
  rw [hrows.1, htable]
  rfl

theorem backed_indexScan (h : Holds heap m chain) (htable : entries chain = table heap)
    (htree : Index.Represents m tree s levels leaves (map tree))
    (hthere : ∀ r, map tree key = some r → r.pageId.isValid = true → (m r.pageId).isSome = true)
    (hown : ∀ r, map tree key = some r → r.pageId ∈ chain.map DataPage.id ∨ ¬ ForeignPage m r.pageId) :
    (Plan.indexScan heap tree key).Backed (.ofTables table map) m := by
  refine ⟨?_, fun r hr => ?_⟩
  · have hfind : (BPlusTree.getValue key).Does tree s fun found _ _ => found = map tree key :=
      htree.stands.does_getValue key fun found hfound => Option.ext fun value => by rw [hfound, htree.entries]
    refine (hfind m htree.store).mono ?_
    rintro found tree' m' ⟨s', -, hfound⟩
    exact hfound
  · refine (gives_getRecord h (hthere r hr) (hown r hr)).mono fun _ _ _ hrecord => ?_
    rw [hrecord.1, htable]
    rfl

end Tables

end Ddb.Execution
