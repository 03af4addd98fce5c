import Ddb.Execution.HeapChain

/-!
# The table heap refines a table

The calls of one heap on a database, each made for some transaction or for none. As long as no page access and no
allocation fails, what they answer is a run of a table, the list of the records ever inserted with their live flags. A
`RecordId` that names a page of another heap is no record of this one: the page format does not tell the two apart, and
nothing is said about the answer, only that this heap is not touched.
-/

namespace Ddb.Execution

open Ddb.Lib Ddb.Storage Ddb.Index Ddb.Concurrency

inductive HeapCall where
  | insert (tuple : Tuple)
  | erase (r : RecordId)
  | get (r : RecordId)
  | scan
  | reopen

inductive HeapAnswer where
  | inserted (r : Option RecordId)
  | erased (done : Bool)
  | got (tuple : Option Tuple)
  | rows (rows : List (RecordId × Tuple))
  | reopened
  deriving DecidableEq

def HeapCall.method : HeapCall → HeapOp HeapAnswer
  | .insert tuple => do return .inserted (← TableHeap.insertImpl tuple)
  | .erase r => do return .erased (← TableHeap.eraseImpl r)
  | .get r => do return .got (← TableHeap.getRecord r)
  | .scan => do return .rows (← TableHeap.scan)
  | .reopen => do
    TableHeap.reopen
    return .reopened

/-! ## Runs of a heap -/

/-- A heap object and the database it lives in. -/
structure HeapState where
  db : Database
  heap : TableHeap

namespace HeapState

/-- One call, for a transaction or for none. -/
def call (s : HeapState) (client : Option TransactionId) (c : HeapCall) : Except Err HeapAnswer × HeapState :=
  let result := (c.method.run s.heap).run (Database.pager client) s.db
  (result.1.1, ⟨result.2, result.1.2⟩)

/-- What a list of calls answers. -/
def answers : HeapState → List (Option TransactionId × HeapCall) → List (Except Err HeapAnswer)
  | _, [] => []
  | s, (client, c) :: rest => (s.call client c).1 :: answers (s.call client c).2 rest

/-- No page access and no allocation of the calls fails. -/
def Smooth : HeapState → List (Option TransactionId × HeapCall) → Prop
  | _, [] => True
  | s, (client, c) :: rest =>
    (c.method.run s.heap).Smooth (Database.pager client) s.db ∧ Smooth (s.call client c).2 rest

instance decidableSmooth : (s : HeapState) → (calls : List (Option TransactionId × HeapCall)) → Decidable (s.Smooth calls)
  | _, [] => isTrue trivial
  | s, (client, c) :: rest =>
    have := decidableSmooth (s.call client c).2 rest
    inferInstanceAs (Decidable (_ ∧ _))

end HeapState

/-- `create`, and the constructor on the page it returned. -/
def TableHeap.createAndOpen (schema : Schema) : Method PageId Payload Err Unit TableHeap := do
  let id ← TableHeap.create schema
  TableHeap.openHeap id schema

/-! ## Runs of a table -/

namespace Table

/-- What a call may answer, and the table after it. -/
def Allows (schema : Schema) (foreign : PageId → Prop) (table : Table) (answer : Except Err HeapAnswer) (table' : Table) :
    HeapCall → Prop
  | .insert tuple =>
    if schema.validates tuple.values then
      (kMaxTuple < tuple.bytes.length ∧ answer = .ok (.inserted none) ∧ table' = table) ∨
      ∃ r, tuple.bytes.length ≤ kMaxTuple ∧ r ∉ table.map Prod.fst ∧ answer = .ok (.inserted (some r)) ∧
        table' = table ++ [(r, ⟨tuple, true⟩)]
    else answer = .error (.invalidArgument "tuple does not match schema") ∧ table' = table
  | .erase r => table' = table.eraseRecord r ∧
      (¬ foreign r.pageId → answer = .ok (.erased (table.getRecord r).isSome))
  | .get r => table' = table ∧ (¬ foreign r.pageId → answer = .ok (.got (table.getRecord r)))
  | .scan => table' = table ∧ answer = .ok (.rows table.rows)
  | .reopen => table' = table ∧ answer = .ok .reopened

/-- The answers to a list of calls, one after the other. -/
inductive Runs (schema : Schema) (foreign : PageId → Prop) :
    Table → List HeapCall → List (Except Err HeapAnswer) → Table → Prop where
  | nil (table : Table) : Runs schema foreign table [] [] table
  | cons {table table₁ table' : Table} {c : HeapCall} {rest : List HeapCall} {answer : Except Err HeapAnswer}
      {answers : List (Except Err HeapAnswer)} (hcall : table.Allows schema foreign answer table₁ c)
      (hrest : Runs schema foreign table₁ rest answers table') :
      Runs schema foreign table (c :: rest) (answer :: answers) table'

end Table

/-! ## One call -/

variable {m m' m₀ : Memory PageId Payload} {heap heap' : TableHeap} {chain chain' : List DataPage} {schema : Schema}
  {table : Table} {r : RecordId}

/-- The heap is in order, holds the table, and every other data page was there before it. -/
structure Represents (m₀ m : Memory PageId Payload) (heap : TableHeap) (schema : Schema) (table : Table)
    (chain : List DataPage) : Prop where
  holds : Holds heap m chain
  schema : heap.schema = schema
  entries : entries chain = table
  there : ∀ id, m id = none → m₀ id = none
  foreign : ∀ id, ForeignPage m id → id ∈ chain.map DataPage.id ∨ ForeignPage m₀ id
  own : ∀ id ∈ chain.map DataPage.id, m₀ id = none

theorem Represents.own_of_not_foreign (h : Represents m₀ m heap schema table chain) {id : PageId} (hid : ¬ ForeignPage m₀ id) :
    id ∈ chain.map DataPage.id ∨ ¬ ForeignPage m id := by
  by_cases hin : id ∈ chain.map DataPage.id
  · exact .inl hin
  · exact .inr fun hforeign => (h.foreign id hforeign).elim hin hid

theorem Represents.not_mem_of_foreign (h : Represents m₀ m heap schema table chain) {id : PageId} (hid : ForeignPage m₀ id) :
    id ∉ chain.map DataPage.id := by
  intro hin
  obtain ⟨page, hpage, -⟩ := hid
  rw [h.own id hin] at hpage
  cases hpage

theorem Holds.metadata_not_foreign (h : Holds heap m chain) : ¬ ForeignPage m heap.metadata := by
  rintro ⟨page, hpage, hmagic⟩
  obtain ⟨page', hpage', hmeta⟩ := h.metadata
  obtain rfl := Option.some.inj (hpage.symm.trans hpage')
  have hdata := of_decide_eq_true hmagic
  rw [hmeta.magic] at hdata
  exact absurd hdata (by decide)

/-- A step that adds only new pages to the heap and keeps to its pages. -/
theorem Represents.step (h : Represents m₀ m heap schema table chain) (hholds : Holds heap' m' chain')
    (hschema : heap'.schema = heap.schema) (hmeta : heap'.metadata = heap.metadata)
    (hpages : ∀ id ∈ chain'.map DataPage.id, id ∈ chain.map DataPage.id ∨ m id = none)
    (hkept : ∀ id ∈ chain.map DataPage.id, id ∈ chain'.map DataPage.id)
    (hframe : ∀ id, id ≠ heap.metadata → id ∉ chain'.map DataPage.id → m' id = m id) :
    Represents m₀ m' heap' schema (Execution.entries chain') chain' where
  holds := hholds
  schema := hschema.trans h.schema
  entries := rfl
  there id hid := by
    have hother := hframe id (fun heq => hholds.there (.inl (heq.trans hmeta.symm)) hid) fun hin => hholds.there (.inr hin) hid
    exact h.there id (hother ▸ hid)
  foreign id hid := by
    by_cases hin : id ∈ chain'.map DataPage.id
    · exact .inl hin
    have hne : id ≠ heap.metadata := fun heq => hholds.metadata_not_foreign (hmeta ▸ heq ▸ hid)
    have hid : ForeignPage m id := by rwa [ForeignPage, hframe id hne hin] at hid
    exact (h.foreign id hid).imp_left (hkept id)
  own id hid := (hpages id hid).elim (h.own id) (h.there id)

/-- What a call ends in, on a memory. -/
def HeapCall.Meets (m₀ : Memory PageId Payload) (schema : Schema) (table : Table) (c : HeapCall)
    (result : Except Err HeapAnswer × TableHeap) (m' : Memory PageId Payload) : Prop :=
  ∃ table' chain', table.Allows schema (ForeignPage m₀) result.1 table' c ∧
    Represents m₀ m' result.2 schema table' chain'

/-- The call of a method that returns. -/
theorem HeapCall.meets_of_gives {α : Type} {x : HeapOp α} {answer : α → HeapAnswer} {c : HeapCall}
    {Q : α → TableHeap → Memory PageId Payload → Prop} (hmethod : c.method = do return answer (← x)) (hx : x.Gives heap m Q)
    (h : ∀ a heap' m', Q a heap' m' → c.Meets m₀ schema table (.ok (answer a), heap') m') :
    (c.method.run heap).Sat Database.blank m (c.Meets m₀ schema table) := by
  have hgives : c.method.Gives heap m fun result heap' m' => c.Meets m₀ schema table (.ok result, heap') m' := by
    rw [hmethod]
    apply Method.gives_bind
    exact hx.mono fun a heap' m' hQ => Method.gives_pure (h a heap' m' hQ)
  refine PageProg.Sat.mono hgives ?_
  rintro ⟨result, heap'⟩ m' ⟨a, rfl, hmeets⟩
  exact hmeets

theorem insert_refused {tuple : Tuple} (hvalid : heap.schema.validates tuple.values = false) :
    (HeapCall.insert tuple).method.run heap = .done (.error (.invalidArgument "tuple does not match schema"), heap) := by
  have hserialize : serialize heap.schema tuple = .error (.invalidArgument "tuple does not match schema") := by
    rw [serialize, hvalid]
    rfl
  have himpl : (TableHeap.insertImpl tuple).run heap =
      .done (.error (.invalidArgument "tuple does not match schema"), heap) := by
    rw [TableHeap.insertImpl, Method.get_bind_run, hserialize]
    rfl
  change (((TableHeap.insertImpl tuple).run heap).bind _) = _
  rw [himpl]
  rfl

theorem meets_insert (h : Represents m₀ m heap schema table chain) (tuple : Tuple) :
    ((HeapCall.insert tuple).method.run heap).Sat Database.blank m ((HeapCall.insert tuple).Meets m₀ schema table) := by
  cases hvalid : heap.schema.validates tuple.values with
  | true =>
    refine HeapCall.meets_of_gives rfl (gives_insertImpl h.holds hvalid) ?_
    rw [h.schema] at hvalid
    rintro result heap' m' (⟨hlarge, rfl, rfl, rfl⟩ | ⟨r, chain', hsmall, rfl, hinserted⟩)
    · refine ⟨table, chain, ?_, h⟩
      rw [Table.Allows, if_pos hvalid]
      exact .inl ⟨hlarge, rfl, rfl⟩
    · have hstep := h.step hinserted.holds hinserted.schema hinserted.metadata hinserted.pages hinserted.kept hinserted.frame
      refine ⟨_, chain', ?_, hstep⟩
      rw [Table.Allows, if_pos hvalid, ← h.entries]
      exact .inr ⟨r, hsmall, hinserted.fresh, rfl, hinserted.entries⟩
  | false =>
    have hthrow := insert_refused hvalid
    rw [hthrow]
    refine ⟨table, chain, ?_, h⟩
    rw [h.schema] at hvalid
    rw [Table.Allows, hvalid]
    exact ⟨rfl, rfl⟩

/-- The page a call asks for by its record is there. -/
def HeapCall.Reaches (m : Memory PageId Payload) : HeapCall → Prop
  | .erase r => (m r.pageId).isSome = true
  | .get r => r.pageId.isValid = true → (m r.pageId).isSome = true
  | _ => True

theorem meets_get_foreign (h : Represents m₀ m heap schema table chain) (hforeign : ForeignPage m₀ r.pageId)
    (hthere : (HeapCall.get r).Reaches m) :
    ((HeapCall.get r).method.run heap).Sat Database.blank m ((HeapCall.get r).Meets m₀ schema table) := by
  have hsame : ∀ result : Except Err HeapAnswer, (HeapCall.get r).Meets m₀ schema table (result, heap) m := fun result =>
    ⟨table, chain, ⟨rfl, fun hnot => absurd hforeign hnot⟩, h⟩
  change PageProg.Sat _ (((TableHeap.getRecord r).run heap).bind _) m _
  apply PageProg.sat_bind
  change PageProg.Sat _ ((ite (r.pageId.isValid = false) (pure none) _ : HeapOp (Option Tuple)).run heap) m _
  by_cases hvalid : r.pageId.isValid = false
  · rw [if_pos hvalid]
    exact hsame _
  rw [if_neg hvalid]
  obtain ⟨page, hpage⟩ := Option.isSome_iff_exists.mp (hthere (Bool.not_eq_false _ ▸ hvalid))
  refine ⟨page, hpage, ?_⟩
  change PageProg.Sat _ ((ite (hasSlot page r.slotId = true) _ (pure none) : HeapOp (Option Tuple)).run heap) m _
  split
  · cases readSlot page r.slotId.toNat with
    | none => exact hsame _
    | some slot => exact hsame _
  · exact hsame _

theorem meets_get (h : Represents m₀ m heap schema table chain) (hthere : (HeapCall.get r).Reaches m) :
    ((HeapCall.get r).method.run heap).Sat Database.blank m ((HeapCall.get r).Meets m₀ schema table) := by
  by_cases hforeign : ForeignPage m₀ r.pageId
  · exact meets_get_foreign h hforeign hthere
  refine HeapCall.meets_of_gives rfl (gives_getRecord h.holds hthere (h.own_of_not_foreign hforeign)) ?_
  rintro tuple heap' m' ⟨rfl, rfl, rfl⟩
  exact ⟨table, chain, ⟨rfl, fun _ => by rw [h.entries]⟩, h⟩

theorem hasMagic_of_eraseSlot {slotId : UInt32} {page page' : Payload} (h : eraseSlot slotId page = some page') :
    hasMagic page kDataMagic = true := by
  by_contra hmagic
  rw [eraseSlot, if_neg (by simp [hasSlot, hmagic])] at h
  cases h

/-- Another heap's page may be changed, and stays another heap's page. -/
theorem Represents.put_foreign (h : Represents m₀ m heap schema table chain) {page page' : Payload}
    (hforeign : ForeignPage m₀ r.pageId) (hpage : m r.pageId = some page) (hmagic : hasMagic page kDataMagic = true) :
    Represents m₀ (m.put r.pageId (some page')) heap schema table chain := by
  have hne : ∀ id ∈ heap.metadata :: chain.map DataPage.id, id ≠ r.pageId := by
    intro id hid heq
    rcases List.mem_cons.mp hid with rfl | hid
    · exact h.holds.metadata_not_foreign ⟨page, heq ▸ hpage, hmagic⟩
    · exact h.not_mem_of_foreign hforeign (heq ▸ hid)
  have hown : ∀ id ∈ heap.metadata :: chain.map DataPage.id, m.put r.pageId (some page') id = m id := fun id hid =>
    Memory.put_of_ne (hne id hid) _
  refine ⟨⟨?_, h.holds.first, h.holds.last, ?_, h.holds.ids, h.holds.valid, h.holds.conforms⟩, h.schema, h.entries, ?_, ?_, h.own⟩
  · rw [hown _ List.mem_cons_self]
    exact h.holds.metadata
  · exact h.holds.linked.congr fun data hdata => hown _ (List.mem_cons_of_mem _ (List.mem_map_of_mem hdata))
  · intro id hid
    by_cases heq : id = r.pageId
    · rw [heq, Memory.put_some_self] at hid
      cases hid
    · rw [Memory.put_of_ne heq] at hid
      exact h.there id hid
  · intro id hid
    by_cases heq : id = r.pageId
    · exact .inr (heq ▸ hforeign)
    · rw [ForeignPage, Memory.put_of_ne heq] at hid
      exact h.foreign id hid

theorem Represents.eraseRecord_foreign (h : Represents m₀ m heap schema table chain) (hforeign : ForeignPage m₀ r.pageId) :
    table.eraseRecord r = table := by
  rw [← h.entries]
  exact Table.eraseRecord_of_not_mem (not_mem_entries (h.not_mem_of_foreign hforeign))

theorem meets_erase_foreign (h : Represents m₀ m heap schema table chain) (hforeign : ForeignPage m₀ r.pageId)
    (hthere : (HeapCall.erase r).Reaches m) :
    ((HeapCall.erase r).method.run heap).Sat Database.blank m ((HeapCall.erase r).Meets m₀ schema table) := by
  obtain ⟨page, hpage⟩ := Option.isSome_iff_exists.mp hthere
  have hkept : Represents m₀ (m.put r.pageId (eraseSlot r.slotId page)) heap schema table chain := by
    cases herase : eraseSlot r.slotId page with
    | none => exact h
    | some page' => exact h.put_foreign hforeign hpage (hasMagic_of_eraseSlot herase)
  have hmeets : ∀ result : Except Err HeapAnswer,
      (HeapCall.erase r).Meets m₀ schema table (result, heap) (m.put r.pageId (eraseSlot r.slotId page)) := fun result =>
    ⟨table, chain, ⟨(h.eraseRecord_foreign hforeign).symm, fun hnot => absurd hforeign hnot⟩, hkept⟩
  change PageProg.Sat _ (((TableHeap.eraseImpl r).run heap).bind _) m _
  apply PageProg.sat_bind
  refine ⟨page, hpage, ?_⟩
  change PageProg.Sat _ ((ite (hasSlot page r.slotId = true) _ (pure false) : HeapOp Bool).run heap) _ _
  split
  · cases readSlot page r.slotId.toNat with
    | none => exact hmeets _
    | some slot => exact hmeets _
  · exact hmeets _

theorem meets_erase (h : Represents m₀ m heap schema table chain) (hthere : (HeapCall.erase r).Reaches m) :
    ((HeapCall.erase r).method.run heap).Sat Database.blank m ((HeapCall.erase r).Meets m₀ schema table) := by
  by_cases hforeign : ForeignPage m₀ r.pageId
  · exact meets_erase_foreign h hforeign hthere
  refine HeapCall.meets_of_gives rfl (gives_eraseImpl h.holds hthere (h.own_of_not_foreign hforeign)) ?_
  rintro erased heap' m' ⟨rfl, rfl, hframe, chain', hholds, hentries, hids⟩
  refine ⟨entries chain', chain', ⟨by rw [hentries, h.entries], fun _ => by rw [h.entries]⟩, ?_⟩
  refine h.step hholds rfl rfl (fun id hid => .inl (hids ▸ hid)) (fun id hid => hids ▸ hid) ?_
  exact fun id _ hid => hframe id (hids ▸ hid)

theorem meets_scan (h : Represents m₀ m heap schema table chain) :
    (HeapCall.scan.method.run heap).Sat Database.blank m (HeapCall.scan.Meets m₀ schema table) := by
  refine HeapCall.meets_of_gives rfl (gives_scan h.holds) ?_
  rintro rows heap' m' ⟨rfl, rfl, rfl⟩
  exact ⟨table, chain, ⟨rfl, by rw [h.entries]⟩, h⟩

theorem gives_reopen (h : Holds heap m chain) : TableHeap.reopen.Gives heap m fun _ heap' m' => heap' = heap ∧ m' = m := by
  apply Method.gives_bind
  apply Method.gives_get
  apply Method.gives_bind
  refine (gives_openHeap h).mono ?_
  rintro heap' _ m' ⟨rfl, rfl⟩
  exact ⟨⟨⟩, rfl, rfl, rfl⟩

theorem meets_reopen (h : Represents m₀ m heap schema table chain) :
    (HeapCall.reopen.method.run heap).Sat Database.blank m (HeapCall.reopen.Meets m₀ schema table) := by
  refine @HeapCall.meets_of_gives m m₀ heap schema table Unit TableHeap.reopen (fun _ => .reopened) .reopen _ rfl
    (gives_reopen h.holds) ?_
  rintro _ heap' m' ⟨rfl, rfl⟩
  exact ⟨table, chain, ⟨rfl, rfl⟩, h⟩

/-- Every call is a step of the table. -/
theorem HeapCall.meets (h : Represents m₀ m heap schema table chain) {c : HeapCall} (hthere : c.Reaches m) :
    (c.method.run heap).Sat Database.blank m (c.Meets m₀ schema table) := by
  cases c with
  | insert tuple => exact meets_insert h tuple
  | erase r => exact meets_erase h hthere
  | get r => exact meets_get h hthere
  | scan => exact meets_scan h
  | reopen => exact meets_reopen h

/-! ## Whole runs -/

variable {db : Database} {client : Option TransactionId}

/-- An access that does not fail is to a page that is there. -/
theorem there_of_smooth {α : Type} {id : PageId} {change : Payload → Option Payload}
    {next : Except Err (Option Payload) → PageProg PageId Payload Err α} (hready : Database.Ready db)
    (h : (PageProg.access id change next).Smooth (Database.pager client) db) : (Database.memory db id).isSome = true := by
  obtain ⟨⟨page, hpage⟩, -⟩ := h
  obtain ⟨hthere, -⟩ := (Database.pager_shows client).access hready (Prod.ext hpage rfl)
  rw [hthere]
  rfl

theorem HeapCall.reaches_of_smooth {c : HeapCall} (hready : Database.Ready db)
    (h : (c.method.run heap).Smooth (Database.pager client) db) : c.Reaches (Database.memory db) := by
  cases c with
  | insert tuple => trivial
  | erase r => exact there_of_smooth hready h
  | get r =>
    intro hvalid
    change PageProg.Smooth _ ((PageProg.bind ((ite (r.pageId.isValid = false) (pure none) _ : HeapOp (Option Tuple)).run heap)
      _)) db at h
    rw [if_neg (by rw [hvalid]; simp)] at h
    exact there_of_smooth hready h
  | scan => trivial
  | reopen => trivial

/-- A run that goes smoothly is a run of the table. -/
theorem runs_of_smooth {s : HeapState} (hready : Database.Ready s.db)
    (h : Represents m₀ (Database.memory s.db) s.heap schema table chain) {calls : List (Option TransactionId × HeapCall)}
    (hsmooth : s.Smooth calls) :
    ∃ table', table.Runs schema (ForeignPage m₀) (calls.map Prod.snd) (s.answers calls) table' := by
  induction calls generalizing s table chain with
  | nil => exact ⟨table, .nil table⟩
  | cons call rest ih =>
    obtain ⟨client, c⟩ := call
    obtain ⟨hfirst, hrest⟩ := hsmooth
    obtain ⟨⟨table₁, chain₁, hcall, hrep⟩, hready⟩ := (Database.pager_shows client).run_of_sat hready hfirst
      (HeapCall.meets h (HeapCall.reaches_of_smooth hready hfirst))
    obtain ⟨table', hruns⟩ := ih (s := (s.call client c).2) hready hrep hrest
    exact ⟨table', .cons hcall hruns⟩

theorem gives_createAndOpen (hcolumns : schema.columns ≠ []) :
    (TableHeap.createAndOpen schema).Gives Database.blank () m fun heap _ m' => Represents m m' heap schema [] [] := by
  apply Method.gives_bind
  refine (gives_create hcolumns).mono ?_
  rintro id _ m' ⟨hfree, hholds, hframe⟩
  refine (gives_openHeap hholds).mono ?_
  rintro heap _ m'' ⟨rfl, rfl⟩
  refine ⟨hholds, rfl, rfl, fun other hother => ?_, fun other hforeign => ?_, by simp⟩
  · exact hframe other (fun heq => hholds.there (.inl heq) hother) ▸ hother
  · have hne : other ≠ id := fun heq => hholds.metadata_not_foreign (heq ▸ hforeign)
    rw [ForeignPage, hframe other hne] at hforeign
    exact .inr hforeign

/-- **Refinement.** A new heap on a database answers every list of calls as a table that starts empty. -/
theorem heap_refines_table (hcolumns : schema.columns ≠ []) (hready : Database.Ready db)
    (hopen : ((TableHeap.createAndOpen schema).run ()).Smooth (Database.pager client) db) :
    ∃ heap db₁, ((TableHeap.createAndOpen schema).run ()).run (Database.pager client) db = ((.ok heap, ()), db₁) ∧
      ∀ calls, HeapState.Smooth ⟨db₁, heap⟩ calls → ∃ table,
        Table.Runs schema (ForeignPage (Database.memory db)) [] (calls.map Prod.snd) (HeapState.answers ⟨db₁, heap⟩ calls)
          table := by
  obtain ⟨⟨heap, hheap, hrep⟩, hready⟩ := (Database.pager_shows client).run_of_sat hready hopen
    (gives_createAndOpen (m := Database.memory db) hcolumns)
  refine ⟨heap, _, Prod.ext (Prod.ext hheap rfl) rfl, fun calls hsmooth => ?_⟩
  exact runs_of_smooth (s := ⟨_, heap⟩) hready hrep hsmooth

/-- One number and one text. -/
def ledgerSchema : Schema := ⟨[⟨"id", .int64⟩, ⟨"owner", .string⟩]⟩

/-- A database on new files in which one transaction has begun. -/
def ledgerDb : Database := (exec System.step (System.new 3) [.begin]).db

def ledgerCalls : List (Option TransactionId × HeapCall) :=
  [(some 1, .insert ⟨[.int64 7, .string [65, 66]]⟩), (some 1, .get ⟨.ofIndex 1, 0⟩), (none, .erase ⟨.ofIndex 1, 0⟩),
    (none, .reopen), (some 1, .scan)]

/-- Whether a new heap takes the calls without a failure. -/
def ledgerSmooth (opened : (Except Err TableHeap × Unit) × Database) : Bool :=
  match opened with
  | ((.ok heap, _), db₁) => decide (HeapState.Smooth ⟨db₁, heap⟩ ledgerCalls)
  | _ => false

theorem ledger_refines : ∃ heap db₁, ∃ table : Table,
    HeapState.Smooth ⟨db₁, heap⟩ ledgerCalls ∧
    Table.Runs ledgerSchema (ForeignPage (Database.memory ledgerDb)) [] (ledgerCalls.map Prod.snd)
      (HeapState.answers ⟨db₁, heap⟩ ledgerCalls) table := by
  obtain ⟨heap, db₁, hrun, hall⟩ := @heap_refines_table ledgerSchema ledgerDb (some 1) (by decide)
    (Database.ready_exec (System.launch_new 3).working [.begin]) (by decide +kernel)
  have hsmooth : ledgerSmooth (((TableHeap.createAndOpen ledgerSchema).run ()).run (Database.pager (some 1)) ledgerDb) = true := by
    decide +kernel
  rw [hrun] at hsmooth
  have hsmooth : HeapState.Smooth ⟨db₁, heap⟩ ledgerCalls := of_decide_eq_true hsmooth
  obtain ⟨table, hruns⟩ := hall ledgerCalls hsmooth
  exact ⟨heap, db₁, table, hsmooth, hruns⟩

end Ddb.Execution
