import Ddb.Execution.IndexedTable
import Ddb.Execution.Queries

/-!
# Rows and their index

A row goes into the heap, and its key with the record into the tree; later the record is erased and the key removed. As long as
no two rows have one key, the tree maps the keys of the live rows to their records and holds nothing else. So a lookup through
the tree and a scan that filters by the key return the same rows.
-/

namespace Ddb.Execution

open Ddb.Lib Ddb.Storage Ddb.Index Ddb.Concurrency

namespace Table

variable {table : Table} {r : RecordId} {t : Tuple}

theorem rows_ids (table : Table) : (table.rows.map Prod.fst).Sublist (table.map Prod.fst) := by
  induction table with
  | nil => exact .slnil
  | cons entry table ih =>
    rw [rows, List.filterMap_cons]
    split
    · exact ih.cons _
    · rename_i row hrow
      rw [← Option.some.inj (Option.ite_none_right_eq_some.mp hrow).2]
      exact ih.cons_cons _

theorem getRecord_of_mem (h : (table.map Prod.fst).Nodup) (hmem : (r, t) ∈ table.rows) : table.getRecord r = some t := by
  obtain ⟨⟨_, row⟩, hentry, hrow⟩ := List.mem_filterMap.mp hmem
  obtain ⟨hlive, hrow⟩ := Option.ite_none_right_eq_some.mp hrow
  obtain ⟨rfl, rfl⟩ := Prod.mk.inj (Option.some.inj hrow)
  obtain ⟨before, after, rfl⟩ := List.append_of_mem hentry
  rw [List.map_append, List.map_cons, List.nodup_middle, List.nodup_cons, List.mem_append, not_or] at h
  rw [getRecord, lookup_append, lookup_eq_none_iff.mpr h.1.1, Option.none_or, lookup, List.find?_cons_of_pos (by simp)]
  exact if_pos hlive

theorem rows_eraseRecord (table : Table) (r : RecordId) :
    (table.eraseRecord r).rows = table.rows.filter fun row => row.1 ≠ r := by
  rw [rows, eraseRecord, List.filterMap_map, rows, List.filter_filterMap]
  apply List.filterMap_congr
  intro entry _
  dsimp only [Function.comp]
  by_cases hr : entry.1 = r
  · cases entry.2.live <;> simp [Row.erased, Option.filter, hr]
  · cases hlive : entry.2.live <;> simp [Option.filter, hr, hlive]

end Table

/-! ## Tables with their index -/

variable {column : Nat} {live : List (KeyType × RecordId)} {contents : Contents} {key : KeyType} {r : RecordId} {tuple : Tuple}

/-- The tree has the keys of the live rows with their records, and no two rows have one key. -/
structure Indexed (column : Nat) (live : List (KeyType × RecordId)) (contents : Contents) : Prop where
  keys : (live.map Prod.fst).Nodup
  ids : (contents.table.map Prod.fst).Nodup
  map : ∀ key r, contents.map key = some r ↔ (key, r) ∈ live
  row : ∀ row ∈ contents.table.rows, ∃ key, row.2.values[column]? = some (.int64 key) ∧ (key, row.1) ∈ live
  there : ∀ entry ∈ live, ∃ t, (entry.2, t) ∈ contents.table.rows ∧ t.values[column]? = some (.int64 entry.1)

theorem Indexed.insert (h : Indexed column live contents) (hkey : tuple.values[column]? = some (.int64 key))
    (hnew : ∀ entry ∈ live, entry.1 ≠ key) (hr : r ∉ contents.table.map Prod.fst) :
    Indexed column ((key, r) :: live)
      ⟨contents.table ++ [(r, ⟨tuple, true⟩)], contents.map.after (.insert key r)⟩ := by
  have hrows : Table.rows (contents.table ++ [(r, ⟨tuple, true⟩)]) = contents.table.rows ++ [(r, tuple)] := Table.rows_append _ _
  have habsent : contents.map key = none := by
    refine Option.eq_none_iff_forall_ne_some.mpr fun r' hr' => ?_
    exact hnew _ ((h.map key r').mp hr') rfl
  refine ⟨?_, ?_, fun k r' => ?_, fun row hrow => ?_, fun entry hentry => ?_⟩
  · refine List.nodup_cons.mpr ⟨fun hmem => ?_, h.keys⟩
    obtain ⟨entry, hentry, heq⟩ := List.mem_map.mp hmem
    exact hnew entry hentry heq
  · rw [List.map_append, List.map_singleton, List.nodup_append_comm]
    exact List.nodup_cons.mpr ⟨hr, h.ids⟩
  · dsimp only [KeyMap.after]
    rw [if_pos habsent, Function.update_apply, List.mem_cons, ← h.map, Prod.mk.injEq]
    by_cases hk : k = key
    · subst hk
      simp [habsent, eq_comm]
    · simp [hk]
  · rw [hrows, List.mem_append, List.mem_singleton] at hrow
    rcases hrow with hrow | rfl
    · obtain ⟨k, hk, hmem⟩ := h.row row hrow
      exact ⟨k, hk, List.mem_cons_of_mem _ hmem⟩
    · exact ⟨key, hkey, List.mem_cons_self⟩
  · rw [hrows]
    rcases List.mem_cons.mp hentry with rfl | hentry
    · exact ⟨tuple, by simp, hkey⟩
    · obtain ⟨t, ht, hk⟩ := h.there entry hentry
      exact ⟨t, List.mem_append_left _ ht, hk⟩

theorem Indexed.erase (h : Indexed column live contents) (hmem : (key, r) ∈ live) :
    Indexed column (live.erase (key, r)) ⟨contents.table.eraseRecord r, contents.map.after (.remove key)⟩ := by
  have hnodup : live.Nodup := .of_map _ h.keys
  obtain ⟨t, ht, htkey⟩ := h.there _ hmem
  refine ⟨h.keys.sublist (List.erase_sublist.map _), ?_, fun k r' => ?_, fun row hrow => ?_, fun entry hentry => ?_⟩
  · have hids : (contents.table.eraseRecord r).map Prod.fst = contents.table.map Prod.fst := by
      rw [Table.eraseRecord, List.map_map]
      refine List.map_congr_left fun entry _ => ?_
      rw [Function.comp, apply_ite Prod.fst, ite_self]
    exact hids ▸ h.ids
  · dsimp only [KeyMap.after]
    rw [Function.update_apply, hnodup.mem_erase_iff, ← h.map]
    split
    · rename_i hk
      subst hk
      rw [(h.map k r).mpr hmem]
      simp [eq_comm]
    · rename_i hk
      simp [hk]
  · rw [Table.rows_eraseRecord, List.mem_filter, decide_eq_true_eq] at hrow
    obtain ⟨k, hk, hin⟩ := h.row row hrow.1
    exact ⟨k, hk, (List.mem_erase_of_ne fun heq => hrow.2 (Prod.mk.inj heq).2).mpr hin⟩
  · obtain ⟨hne, hin⟩ := hnodup.mem_erase_iff.mp hentry
    obtain ⟨t', ht', hkey'⟩ := h.there entry hin
    refine ⟨t', ?_, hkey'⟩
    rw [Table.rows_eraseRecord, List.mem_filter, decide_eq_true_eq]
    refine ⟨ht', fun heq => hne ?_⟩
    -- The record has one tuple, and the tuple one key.
    have hrecord := Table.getRecord_of_mem h.ids ht'
    rw [show entry.2 = r from heq, Table.getRecord_of_mem h.ids ht] at hrecord
    rw [← Option.some.inj hrecord, htkey] at hkey'
    exact Prod.ext (Value.int64.inj (Option.some.inj hkey')).symm heq

theorem holds_eq {t : Tuple} {k : KeyType} (h : t.values[column]? = some (.int64 k)) :
    Predicate.holds ⟨column, .eq, .int64 key⟩ t = decide (k = key) := by
  have hcolumn : t.column column = .int64 k := by rw [Tuple.column, List.getD_eq_getElem?_getD, h, Option.getD_some]
  rw [Predicate.holds, hcolumn, compare_int64, Bool.eq_iff_iff, decide_eq_true_eq, compareOn, Predicate.Op.admits,
    Ordering.isEq_iff_eq_eq, Int.compare_eq_eq, Int64.toInt_inj]

/-- The row that the tree leads to is the only one with the key. -/
theorem Indexed.rows_eq (h : Indexed column live contents) (key : KeyType) :
    ((contents.map key).bind contents.table.getRecord).toList =
      (contents.table.rows.map Prod.snd).filter (Predicate.holds ⟨column, .eq, .int64 key⟩) := by
  have hother : ∀ rows : List (RecordId × Tuple), (∀ row ∈ rows, row ∈ contents.table.rows ∧ contents.map key ≠ some row.1) →
      (rows.map Prod.snd).filter (Predicate.holds ⟨column, .eq, .int64 key⟩) = [] := by
    intro rows hrows
    rw [List.filter_eq_nil_iff]
    rintro t ht
    obtain ⟨row, hrow, rfl⟩ := List.mem_map.mp ht
    obtain ⟨k, hk, hin⟩ := h.row row (hrows row hrow).1
    rw [holds_eq hk, decide_eq_true_eq]
    rintro rfl
    exact (hrows row hrow).2 ((h.map k row.1).mpr hin)
  cases hmap : contents.map key with
  | none => exact (hother _ fun row hrow => ⟨hrow, by rw [hmap]; nofun⟩).symm
  | some r =>
    obtain ⟨t, ht, hkey⟩ := h.there _ ((h.map key r).mp hmap)
    have hids := h.ids.sublist (Table.rows_ids contents.table)
    obtain ⟨before, after, hsplit⟩ := List.append_of_mem ht
    rw [hsplit, List.map_append, List.map_cons, List.nodup_middle, ← List.map_append, List.nodup_cons] at hids
    have hne : ∀ row ∈ before ++ after, row ∈ contents.table.rows ∧ contents.map key ≠ some row.1 := by
      refine fun row hrow => ⟨?_, fun heq => hids.1 ?_⟩
      · rw [hsplit]
        exact List.mem_append.mpr ((List.mem_append.mp hrow).imp_right (List.mem_cons_of_mem _))
      · have hrow' := List.mem_map_of_mem (f := Prod.fst) hrow
        rwa [← Option.some.inj (heq.symm.trans hmap)]
    rw [Option.bind_some, Table.getRecord_of_mem h.ids ht, hsplit, List.map_append, List.map_cons, List.filter_append,
      List.filter_cons_of_pos (by rw [holds_eq hkey, decide_eq_true rfl]),
      hother before fun row hrow => hne row (List.mem_append_left _ hrow),
      hother after fun row hrow => hne row (List.mem_append_right _ hrow)]
    rfl

/-! ## Runs -/

/-- A row goes into both structures, or comes out of both. -/
inductive RowOp where
  | insert (key : KeyType) (tuple : Tuple)
  | erase (key : KeyType) (r : RecordId)

/-- A table with its index, and the keys and records of the rows that were inserted and not erased. -/
structure Ledger where
  table : IndexedTable
  live : List (KeyType × RecordId)

namespace Ledger

/-- What the insertion of a row into the heap has answered. -/
def inserted : Except Err TableAnswer → Option RecordId
  | .ok (.heap (.inserted r)) => r
  | _ => none

def step (l : Ledger) : Option TransactionId × RowOp → Ledger
  | (client, .insert key tuple) =>
    let (answer, table) := l.table.call client (.heap (.insert tuple))
    match inserted answer with
    | some r => ⟨(table.call client (.tree (.insert key r))).2, (key, r) :: l.live⟩
    | none => ⟨table, l.live⟩
  | (client, .erase key r) =>
    ⟨((l.table.call client (.heap (.erase r))).2.call client (.tree (.remove key))).2, l.live.erase (key, r)⟩

/-- No page access and no allocation of the step fails. -/
def StepSmooth (l : Ledger) : Option TransactionId × RowOp → Prop
  | (client, .insert key tuple) => l.table.CallSmooth client (.heap (.insert tuple)) ∧
      ∀ r ∈ inserted (l.table.call client (.heap (.insert tuple))).1,
        (l.table.call client (.heap (.insert tuple))).2.CallSmooth client (.tree (.insert key r))
  | (client, .erase key r) => l.table.CallSmooth client (.heap (.erase r)) ∧
      (l.table.call client (.heap (.erase r))).2.CallSmooth client (.tree (.remove key))

/-- A new row has its key in the column, and no other row has it; what is erased is a row together with its key. -/
def Proper (column : Nat) (l : Ledger) : Option TransactionId × RowOp → Prop
  | (_, .insert key tuple) => tuple.values[column]? = some (.int64 key) ∧ ∀ entry ∈ l.live, entry.1 ≠ key
  | (_, .erase key r) => (key, r) ∈ l.live

instance (l : Ledger) : (op : Option TransactionId × RowOp) → Decidable (l.StepSmooth op)
  | (_, .insert _ _) | (_, .erase _ _) => inferInstanceAs (Decidable (_ ∧ _))

instance (column : Nat) (l : Ledger) : (op : Option TransactionId × RowOp) → Decidable (l.Proper column op)
  | (_, .insert _ _) => inferInstanceAs (Decidable (_ ∧ _))
  | (_, .erase key r) => inferInstanceAs (Decidable ((key, r) ∈ _))

variable {l : Ledger} {m₀ : Memory PageId Payload} {schema : Schema}

/-- The structures hold contents that fit together. -/
def Sound (m₀ : Memory PageId Payload) (schema : Schema) (column : Nat) (l : Ledger) : Prop :=
  ∃ contents, l.table.Holds m₀ schema contents ∧ Indexed column l.live contents

theorem Sound.step (h : l.Sound m₀ schema column) {op : Option TransactionId × RowOp} (hproper : l.Proper column op)
    (hsmooth : l.StepSmooth op) : (l.step op).Sound m₀ schema column := by
  obtain ⟨contents, hholds, hindexed⟩ := h
  obtain ⟨client, op⟩ := op
  cases op with
  | insert key tuple =>
    obtain ⟨⟨table, map⟩, ⟨rfl, answer, hanswer, hallows⟩, hholds'⟩ := hholds.call hsmooth.1
    have hsecond := hsmooth.2
    have hsame : inserted (l.table.call client (.heap (.insert tuple))).1 = none → table = contents.table →
        (l.step (client, .insert key tuple)).Sound m₀ schema column := by
      rintro hnone rfl
      rw [Ledger.step]
      dsimp only
      rw [hnone]
      exact ⟨contents, hholds', hindexed⟩
    rw [Table.Allows] at hallows
    split at hallows
    · rcases hallows with ⟨-, rfl, htable⟩ | ⟨r, -, hr, rfl, htable⟩
      · exact hsame (by rw [hanswer]; rfl) htable
      · have hinserted : inserted (l.table.call client (.heap (.insert tuple))).1 = some r := by
          rw [hanswer]
          rfl
        obtain ⟨last, ⟨hlast, hmap, -⟩, hholds''⟩ := hholds'.call (hsecond r hinserted)
        have hlast : last = ⟨contents.table ++ [(r, ⟨tuple, true⟩)], contents.map.after (.insert key r)⟩ := by
          rw [← htable, ← hmap, ← hlast]
        rw [Ledger.step]
        dsimp only
        rw [hinserted]
        exact ⟨last, hholds'', hlast ▸ hindexed.insert hproper.1 hproper.2 hr⟩
    · exact hsame (by rw [hanswer, hallows.1]; rfl) hallows.2
  | erase key r =>
    obtain ⟨⟨table, map⟩, ⟨rfl, answer, -, htable, -⟩, hholds'⟩ := hholds.call hsmooth.1
    obtain ⟨last, ⟨hlast, hmap, -⟩, hholds''⟩ := hholds'.call hsmooth.2
    have hlast : last = ⟨contents.table.eraseRecord r, contents.map.after (.remove key)⟩ := by rw [← htable, ← hmap, ← hlast]
    exact ⟨last, hholds'', hlast ▸ hindexed.erase hproper⟩

end Ledger

/-! ## The two plans -/

/-- The plan's executor, asked for its rows from the start, answers these if no page access of it fails. -/
def Plan.Yields (plan : Plan) (db : Database) (fuel : Nat) (rows : List Tuple) : Prop :=
  ∀ client, Query.Smooth ⟨db, (makeExecutor fuel plan).start⟩ client ((makeExecutor fuel plan).collect fuel) →
    (Query.perform ⟨db, (makeExecutor fuel plan).start⟩ client ((makeExecutor fuel plan).collect fuel)).1 = .ok rows

theorem Plan.yields {plan : Plan} {db : Database} {c : Catalog} {types : List ValueType} {fuel : Nat} (hready : db.Ready)
    (hbacked : plan.Backed c db.memory) (htypes : plan.types = some types) (hfuel : plan.turns c ≤ fuel) :
    plan.Yields db fuel (plan.rows c) :=
  fun client hsmooth => query_rows hready hbacked htypes hfuel [] client _ rfl hsmooth

/-- A heap and a tree that were created together, and any rows inserted with different keys and erased again: for every key an
index scan and a filtered scan yield the same rows. -/
theorem index_agrees {db db' : Database} {client : Option TransactionId} {schema : Schema} {config : BPlusTreeConfig}
    {heap : TableHeap} {tree : BPlusTree} (hready : db.Ready) (haccepted : config.Accepted)
    (hcolumn : schema.types[column]? = some .int64)
    (hsmooth : ((createBoth client schema config).run ()).Smooth (Database.pager client) db)
    (hcreated : ((createBoth client schema config).run ()).run (Database.pager client) db = ((.ok (heap, tree), ()), db'))
    (ops : List (Option TransactionId × RowOp))
    (hops : EachStep Ledger.step (fun l op => l.Proper column op ∧ l.StepSmooth op) ⟨⟨db', heap, tree⟩, []⟩ ops)
    (x : IndexedTable) (hx : x = (exec Ledger.step ⟨⟨db', heap, tree⟩, []⟩ ops).table) (key : KeyType) :
    ∃ rows turns, ∀ fuel, turns ≤ fuel → (Plan.indexScan x.heap x.tree key).Yields x.db fuel rows ∧
      (Plan.filter (.seqScan x.heap) ⟨column, .eq, .int64 key⟩).Yields x.db fuel rows := by
  have hcolumns : schema.columns ≠ [] := by
    intro hnil
    simp [Schema.types, hnil] at hcolumn
  obtain ⟨heap', tree', db₁, hrun, hholds⟩ := holds_created hready hcolumns haccepted hsmooth
  obtain ⟨hboth, rfl⟩ := Prod.mk.inj (hcreated.symm.trans hrun)
  obtain ⟨rfl, rfl⟩ := Prod.mk.inj (Except.ok.inj (Prod.mk.inj hboth).1)
  have hsound : Ledger.Sound db.memory schema column ⟨⟨db', heap, tree⟩, []⟩ :=
    ⟨_, hholds, List.nodup_nil, List.nodup_nil, by simp, nofun, nofun⟩
  obtain ⟨contents, ⟨hready', chain, s, levels, leaves, hshelved⟩, hindexed⟩ :=
    (always_of_eachStep (fun _ _ h hop => h.step hop.1 hop.2) hsound hops).last
  rw [← hx] at hready' hshelved
  have hentries : entries chain = contents.table := hshelved.rows.entries
  have hrecord : ∀ r, contents.map key = some r → r.pageId ∈ chain.map DataPage.id := by
    intro r hr
    obtain ⟨t, ht, -⟩ := hindexed.there _ ((hindexed.map key r).mp hr)
    by_contra hnot
    refine not_mem_entries hnot ?_
    rw [hentries]
    exact (Table.rows_ids contents.table).subset (List.mem_map_of_mem (f := Prod.fst) ht)
  obtain ⟨c, hc⟩ : ∃ c, c = Catalog.ofTables (fun _ => contents.table) fun _ => contents.map := ⟨_, rfl⟩
  have hindex : (Plan.indexScan x.heap x.tree key).Backed c x.db.memory :=
    hc ▸ backed_indexScan hshelved.rows.holds hentries hshelved.index
      (fun r hr _ => Option.ne_none_iff_isSome.mp (hshelved.rows.holds.there (.inr (hrecord r hr)))) fun r hr => .inl (hrecord r hr)
  have hscan : (Plan.filter (.seqScan x.heap) ⟨column, .eq, .int64 key⟩).Backed c x.db.memory :=
    hc ▸ backed_seqScan hshelved.rows.holds hentries
  have htypes : (Plan.filter (.seqScan x.heap) ⟨column, .eq, .int64 key⟩).types = some schema.types := by
    have hseq : (Plan.seqScan x.heap).types = some schema.types := by rw [Plan.types, hshelved.rows.schema]; rfl
    have hordered : Plan.Ordered schema.types column := by rw [Plan.Ordered, hcolumn]; rfl
    rw [Plan.types, hseq]
    simp [hordered, hcolumn, Value.type, guard]
  have hrows : (Plan.indexScan x.heap x.tree key).rows c =
      (Plan.filter (.seqScan x.heap) ⟨column, .eq, .int64 key⟩).rows c := hc ▸ hindexed.rows_eq key
  refine ⟨(Plan.indexScan x.heap x.tree key).rows c, max ((Plan.indexScan x.heap x.tree key).turns c)
    ((Plan.filter (.seqScan x.heap) ⟨column, .eq, .int64 key⟩).turns c), fun fuel hfuel => ⟨?_, ?_⟩⟩
  · exact Plan.yields hready' hindex rfl ((le_max_left _ _).trans hfuel)
  · rw [hrows]
    exact Plan.yields hready' hscan htypes ((le_max_right _ _).trans hfuel)

def enrolled : (Except Err (TableHeap × BPlusTree) × Unit) × Database :=
  ((createBoth none ledgerSchema ⟨2, 2⟩).run ()).run (Database.pager none) townDb

/-- The third key splits the leaf, and the second is then removed. -/
def enrolments : List (Option TransactionId × RowOp) :=
  [(none, .insert 7 ⟨[.int64 7, .string [65]]⟩), (none, .insert 3 ⟨[.int64 3, .string [66]]⟩),
    (none, .insert 5 ⟨[.int64 5, .string [67]]⟩), (none, .erase 3 ⟨.ofIndex 3, 1⟩)]

theorem enrolled_agrees : ∃ heap tree db, enrolled = ((.ok (heap, tree), ()), db) ∧
    EachStep Ledger.step (fun l op => l.Proper 0 op ∧ l.StepSmooth op) ⟨⟨db, heap, tree⟩, []⟩ enrolments ∧
    ∃ x, x = (exec Ledger.step ⟨⟨db, heap, tree⟩, []⟩ enrolments).table ∧ ∃ rows turns, ∀ fuel, turns ≤ fuel →
      (Plan.indexScan x.heap x.tree 5).Yields x.db fuel rows ∧
      (Plan.filter (.seqScan x.heap) ⟨0, .eq, .int64 5⟩).Yields x.db fuel rows := by
  have hchecks : (enrolled.1.1.toOption.any fun objects => decide (EachStep Ledger.step
      (fun l op => l.Proper 0 op ∧ l.StepSmooth op) ⟨⟨enrolled.2, objects.1, objects.2⟩, []⟩ enrolments)) = true := by
    decide +kernel
  have hsmooth : ((createBoth none ledgerSchema ⟨2, 2⟩).run ()).Smooth (Database.pager none) townDb := by decide +kernel
  rcases henrolled : enrolled with ⟨⟨outcome, _⟩, db⟩
  rw [henrolled] at hchecks
  cases outcome with
  | error e => cases hchecks
  | ok objects =>
    refine ⟨objects.1, objects.2, db, rfl, of_decide_eq_true hchecks, _, rfl, ?_⟩
    exact index_agrees (Database.ready_exec (System.launch_new 4).working []) ⟨by decide, by decide, by decide, by decide⟩ (by decide) hsmooth henrolled enrolments
      (of_decide_eq_true hchecks) _ rfl 5

end Ddb.Execution
