import Ddb.Execution.HeapReading
import Ddb.Execution.HeapRefinement
import Ddb.Index.TreeRefinement

/-!
# A heap and a tree in one database

The calls of one heap and one tree on the same pages. Each structure works on its own pages and on new ones, and the first
bytes of a page tell a data page of a heap from a node or a header of a tree. So calls that go smoothly are steps of
a table and of a map side by side.
-/

namespace Ddb.Execution

open Ddb.Lib Ddb.Storage Ddb.Index Ddb.Concurrency

inductive TableCall where
  | heap (c : HeapCall)
  | tree (c : TreeCall)

inductive TableAnswer where
  | heap (answer : HeapAnswer)
  | tree (answer : TreeAnswer)
  deriving DecidableEq

/-! ## Runs -/

structure IndexedTable where
  db : Database
  heap : TableHeap
  tree : BPlusTree

namespace IndexedTable

/-- One call, for a transaction or for none. -/
def call (x : IndexedTable) (client : Option TransactionId) : TableCall → Except Err TableAnswer × IndexedTable
  | .heap c =>
    let result := HeapState.call ⟨x.db, x.heap⟩ client c
    (result.1.map .heap, { x with db := result.2.db, heap := result.2.heap })
  | .tree c =>
    let result := TreeState.call ⟨x.db, x.tree⟩ client c
    (result.1.map .tree, { x with db := result.2.db, tree := result.2.tree })

/-- No page access and no allocation of the call fails. -/
def CallSmooth (x : IndexedTable) (client : Option TransactionId) : TableCall → Prop
  | .heap c => (c.method.run x.heap).Smooth (Database.pager client) x.db
  | .tree c => (c.method.run x.tree).Smooth (Database.pager client) x.db

instance (x : IndexedTable) (client : Option TransactionId) : (c : TableCall) → Decidable (x.CallSmooth client c)
  | .heap c => PageProg.decidableSmooth (Database.pager client) (c.method.run x.heap) x.db
  | .tree c => PageProg.decidableSmooth (Database.pager client) (c.method.run x.tree) x.db

end IndexedTable

/-- What the two hold. -/
structure Contents where
  table : Table
  map : KeyMap

namespace Contents

/-- What a call may answer, and the contents after it. -/
def Allows (schema : Schema) (foreign : PageId → Prop) (before after : Contents) (answer : Except Err TableAnswer) :
    TableCall → Prop
  | .heap c => after.map = before.map ∧
      ∃ heapAnswer : Except Err HeapAnswer, answer = heapAnswer.map .heap ∧
        before.table.Allows schema foreign heapAnswer after.table c
  | .tree c => after.table = before.table ∧ after.map = before.map.after c ∧
      ∃ treeAnswer : Except Err TreeAnswer, answer = treeAnswer.map .tree ∧ before.map.Answers c treeAnswer

/-- The answers to a list of calls, one after the other. -/
inductive Runs (schema : Schema) (foreign : PageId → Prop) :
    Contents → List TableCall → List (Except Err TableAnswer) → Contents → Prop where
  | nil (contents : Contents) : Runs schema foreign contents [] [] contents
  | cons {before between after : Contents} {c : TableCall} {rest : List TableCall} {answer : Except Err TableAnswer}
      {answers : List (Except Err TableAnswer)} (hcall : before.Allows schema foreign between answer c)
      (hrest : Runs schema foreign between rest answers after) : Runs schema foreign before (c :: rest) (answer :: answers) after

end Contents

/-! ## What the heap leaves alone -/

variable {m m' m₀ : Memory PageId Payload} {heap heap' : TableHeap} {chain chain' : List DataPage} {schema : Schema} {table : Table}
  {tree tree' : BPlusTree} {s s' : Store} {levels levels' : List (List Inner)} {leaves leaves' : List Leaf} {map : KeyMap}
  {config : BPlusTreeConfig} {id : PageId} {page : Payload}

/-- Every page that is neither the heap's metadata nor a data page is as it was. -/
def Spared (metadata : PageId) (m m' : Memory PageId Payload) : Prop :=
  ∀ id page, id ≠ metadata → m id = some page → hasMagic page kDataMagic = false → m' id = some page

theorem spared_refl (metadata : PageId) (m : Memory PageId Payload) : Spared metadata m m := fun _ _ _ hpage _ => hpage

theorem Holds.hasMagic (h : Holds heap m chain) (hid : id ∈ chain.map DataPage.id) (hpage : m id = some page) :
    hasMagic page kDataMagic = true := by
  obtain ⟨data, hdata, rfl⟩ := List.mem_map.mp hid
  obtain ⟨payload, link, hpayload, hslotted⟩ := h.linked.slotted hdata
  obtain rfl := Option.some.inj (hpage.symm.trans hpayload)
  exact decide_eq_true hslotted.magic

theorem spared_of_frame (h : Holds heap m chain) {own : List PageId}
    (hpages : ∀ id ∈ own, id ∈ chain.map DataPage.id ∨ m id = none)
    (hframe : ∀ id, id ≠ heap.metadata → id ∉ own → m' id = m id) : Spared heap.metadata m m' := by
  intro id page hne hpage hmagic
  have hid : id ∉ own := by
    intro hin
    rcases hpages id hin with hchain | hfree
    · rw [h.hasMagic hchain hpage] at hmagic
      cases hmagic
    · rw [hfree] at hpage
      cases hpage
  rw [hframe id hne hid, hpage]

theorem spared_put (metadata id : PageId) (hpage : m id = some page) (slotId : UInt32) :
    Spared metadata m (m.put id (eraseSlot slotId page)) := by
  intro other page' hne hpage' hmagic
  by_cases hother : other = id
  · subst hother
    obtain rfl := Option.some.inj (hpage.symm.trans hpage')
    have hnone : eraseSlot slotId page = none := by
      rw [eraseSlot, if_neg (by simp [hasSlot, hmagic])]
    rw [hnone, Memory.put_none, hpage]
  · rw [Memory.put_of_ne hother, hpage']

theorem spares_insert (h : Holds heap m chain) (tuple : Tuple) :
    ((HeapCall.insert tuple).method.run heap).Sat Database.blank m fun _ m' => Spared heap.metadata m m' := by
  cases hvalid : heap.schema.validates tuple.values with
  | false =>
    rw [insert_refused hvalid]
    exact spared_refl _ _
  | true =>
    apply PageProg.sat_bind
    refine PageProg.Sat.mono (gives_insertImpl h hvalid) ?_
    rintro ⟨_, heap'⟩ m' ⟨r, rfl, ⟨-, -, -, rfl⟩ | ⟨r', chain', -, -, hinserted⟩⟩
    · exact spared_refl _ _
    · exact spared_of_frame h hinserted.pages hinserted.frame

theorem spares_erase {r : RecordId} (hthere : (m r.pageId).isSome = true) :
    ((HeapCall.erase r).method.run heap).Sat Database.blank m fun _ m' => Spared heap.metadata m m' := by
  obtain ⟨page, hpage⟩ := Option.isSome_iff_exists.mp hthere
  have hspared := spared_put heap.metadata r.pageId hpage r.slotId
  apply PageProg.sat_bind
  refine ⟨page, hpage, ?_⟩
  change PageProg.Sat _ ((ite (hasSlot page r.slotId = true) _ (pure false) : HeapOp Bool).run heap) _ _
  split
  · cases readSlot page r.slotId.toNat with
    | none => exact hspared
    | some slot => exact hspared
  · exact hspared

theorem HeapCall.spares (h : Represents m₀ m heap schema table chain) {c : HeapCall} (hthere : c.Reaches m) :
    (c.method.run heap).Sat Database.blank m fun _ m' => Spared heap.metadata m m' := by
  -- What only looks at pages leaves the memory as it was.
  have hlooks : c.method.Looks → (c.method.run heap).Sat Database.blank m fun _ m' => Spared heap.metadata m m' := by
    intro hlooks
    refine ((hlooks heap).sat (HeapCall.meets h hthere)).mono ?_
    rintro result m' ⟨-, rfl⟩
    exact spared_refl _ _
  cases c with
  | insert tuple => exact spares_insert h.holds tuple
  | erase r => exact spares_erase hthere
  | get r => exact hlooks ((looks_getRecord r).bind fun _ => Method.looks_pure _)
  | scan => exact hlooks (looks_scan.bind fun _ => Method.looks_pure _)
  | reopen => exact hlooks (looks_reopen.bind fun _ => Method.looks_pure _)

/-! ## Pages of the two kinds -/

/-- The first six bytes of a page of a tree are no magic of a heap. -/
theorem not_magic_of_shown {cell : Cell} (h : cell.Shown config page) (hraw : ∀ bytes, cell ≠ .raw bytes) {magic : Bytes}
    (hmagic : magic = kDataMagic ∨ magic = kMetaMagic) : window page.bytes 0 6 ≠ magic := by
  intro hwindow
  cases cell with
  | node content =>
    have hfirst : window page.bytes 0 1 = [68] := by
      have htake := congrArg (List.take 1) hwindow
      rw [window, List.take_take] at htake
      rcases hmagic with rfl | rfl <;> exact htake
    have htype : leValue [68] = 68 := by decide
    have hdecode : decode config page = .ok content := h
    rw [decode, hfirst, htype, if_pos (.inl ⟨by decide, by decide⟩)] at hdecode
    cases hdecode
  | header root config =>
    have hheader : HeaderPage page root config := h
    have hsix : window page.bytes 0 6 = kMetadataMagic.take 6 := by
      rw [← hheader.magic, window, window, List.take_take]
      rfl
    rcases hmagic with rfl | rfl <;> exact absurd (hwindow.symm.trans hsix) (by decide)
  | raw bytes => exact hraw bytes rfl

theorem node_of_tower {items : List Item} {root : PageId} (h : Tower s root levels items) (hid : id ∈ innerIds levels) :
    ∃ node, s id = some (.node node) := by
  induction levels generalizing items with
  | nil => simp [innerIds] at hid
  | cons level above ih =>
    obtain ⟨-, hlevel, habove⟩ := h
    rw [innerIds, List.flatMap_cons, List.mem_append] at hid
    rcases hid with hid | hid
    · obtain ⟨g, hg, rfl⟩ := List.mem_map.mp hid
      obtain ⟨parent, hnode⟩ := (hlevel g hg).node
      exact ⟨_, hnode⟩
    · exact ih habove hid

theorem node_of_linked {stop : PageId} (h : Index.Linked s leaves stop) (hid : id ∈ leaves.map Leaf.id) :
    ∃ node, s id = some (.node node) := by
  induction leaves with
  | nil => simp at hid
  | cons l rest ih =>
    obtain ⟨⟨parent, hnode⟩, hrest⟩ := h
    rcases List.mem_cons.mp hid with rfl | hid
    · exact ⟨_, hnode⟩
    · exact ih hrest hid

theorem leafItems_snd (leaves : List Leaf) : (leaves.map Leaf.item).map Prod.snd = leaves.map Leaf.id := by
  rw [List.map_map]
  rfl

/-- The pages of a tree are cells of a tree. -/
theorem own_cell (h : Stands tree s none levels leaves) (hid : id ∈ ownIds tree levels leaves) :
    ∃ cell, s id = some cell ∧ ∀ page, cell ≠ .raw page := by
  rw [ownIds, leafItems_snd, List.cons_append, List.mem_cons, List.mem_append] at hid
  rcases hid with rfl | hid | hid
  · exact ⟨_, h.upper.header, by simp⟩
  · obtain ⟨node, hnode⟩ := node_of_linked h.linked hid
    exact ⟨_, hnode, by simp⟩
  · obtain ⟨node, hnode⟩ := node_of_tower h.upper.tower hid
    exact ⟨_, hnode, by simp⟩

theorem stands_congr (h : Stands tree s none levels leaves) (hsame : ∀ id ∈ ownIds tree levels leaves, s' id = s id) :
    Stands tree s' none levels leaves := by
  have hleaf : ∀ id ∈ (leaves.map Leaf.item).map Prod.snd, s' id = s id := fun id hid =>
    hsame id (List.mem_append_left _ (List.mem_cons_of_mem _ hid))
  have hmeta : s' tree.metadata = s tree.metadata := hsame _ (List.mem_append_left _ List.mem_cons_self)
  refine ⟨h.upper.congr (fun id hid => ?_) fun id hid parent hparent => ?_, h.linked.congr fun l hl node hnode => ?_, h.valid,
    h.entries, h.lows, h.sizes⟩
  · rcases List.mem_cons.mp hid with rfl | hid
    · exact hmeta
    · exact hsame id (List.mem_append_right _ hid)
  · obtain ⟨node, hnode, hself⟩ := hparent
    exact ⟨node, (hleaf id hid).trans hnode, hself⟩
  · refine ⟨node.parent, (hleaf l.id ?_).trans hnode⟩
    rw [leafItems_snd]
    exact List.mem_map_of_mem hl

/-! ## The two together -/

/-- The heap holds the table, the tree holds the map, and no page of the heap is a cell of the tree. -/
structure Shelved (m₀ m : Memory PageId Payload) (heap : TableHeap) (tree : BPlusTree) (schema : Schema) (contents : Contents)
    (chain : List DataPage) (s : Store) (levels : List (List Inner)) (leaves : List Leaf) : Prop where
  rows : Represents m₀ m heap schema contents.table chain
  index : Index.Represents m tree s levels leaves contents.map
  raw : ∀ id ∈ heap.metadata :: chain.map DataPage.id, ∃ page, s id = some (.raw page)

variable {contents : Contents} {client : Option TransactionId}

theorem Holds.congr (h : Holds heap m chain) (hsame : ∀ id ∈ heap.metadata :: chain.map DataPage.id, m' id = m id) :
    Holds heap m' chain := by
  refine ⟨?_, h.first, h.last, h.linked.congr fun page hpage => ?_, h.ids, h.valid, h.conforms⟩
  · rw [hsame _ List.mem_cons_self]
    exact h.metadata
  · exact hsame _ (List.mem_cons_of_mem _ (List.mem_map_of_mem hpage))

/-- The pages of a heap have a magic of a heap. -/
theorem Holds.magic (h : Holds heap m chain) (hid : id ∈ heap.metadata :: chain.map DataPage.id) :
    ∃ page magic, m id = some page ∧ (magic = kDataMagic ∨ magic = kMetaMagic) ∧ window page.bytes 0 6 = magic := by
  rcases List.mem_cons.mp hid with rfl | hid
  · obtain ⟨page, hpage, hmeta⟩ := h.metadata
    exact ⟨page, _, hpage, .inr rfl, hmeta.magic⟩
  · obtain ⟨data, hdata, rfl⟩ := List.mem_map.mp hid
    obtain ⟨page, link, hpage, hslotted⟩ := h.linked.slotted hdata
    exact ⟨page, _, hpage, .inl rfl, hslotted.magic⟩

/-- A page in the memory is a cell of the tree, or raw. -/
theorem cell_cases (h : s.Of config m) (hpage : m id = some page) :
    s id = some (.raw page) ∨ ∃ cell, s id = some cell ∧ (∀ bytes, cell ≠ .raw bytes) ∧ cell.Shown config page := by
  have hrel := h id
  rw [hpage] at hrel
  cases hcell : s id with
  | none =>
    rw [hcell] at hrel
    cases hrel
  | some cell =>
    rw [hcell] at hrel
    cases hrel with
    | some hshown =>
      cases cell with
      | node content | header root config => exact .inr ⟨_, rfl, nofun, hshown⟩
      | raw bytes => exact .inl (congrArg (some ∘ Cell.raw) (show page = bytes from hshown).symm)

/-- What keeps every raw cell keeps the heap. -/
theorem Represents.of_cells {config config' : BPlusTreeConfig} (h : Represents m₀ m heap schema table chain) (hs : s.Of config m)
    (hs' : s'.Of config' m') (hown : ∀ id ∈ heap.metadata :: chain.map DataPage.id, ∃ page, s id = some (.raw page))
    (hraw : ∀ id page, s' id = some (.raw page) ↔ s id = some (.raw page)) (hthere : ∀ id, s id ≠ none → s' id ≠ none) :
    Represents m₀ m' heap schema table chain := by
  have hsame : ∀ id page, s id = some (.raw page) → m id = some page ∧ m' id = some page := by
    intro id page hcell
    obtain ⟨old, hold, rfl⟩ := hs.some hcell
    obtain ⟨new, hnew, hshown⟩ := hs'.some ((hraw id old).mpr hcell)
    obtain rfl : new = old := hshown
    exact ⟨hold, hnew⟩
  refine ⟨h.holds.congr fun id hid => ?_, h.schema, h.entries, fun id hid => ?_, ?_, h.own⟩
  · obtain ⟨page, hcell⟩ := hown id hid
    obtain ⟨hold, hnew⟩ := hsame id page hcell
    rw [hold, hnew]
  · apply h.there id
    cases hpage : m id with
    | none => rfl
    | some page =>
      have hcell : s id ≠ none := by
        rcases cell_cases hs hpage with hcell | ⟨cell, hcell, -⟩ <;> simp [hcell]
      exact absurd (hs'.none hid) (hthere id hcell)
  · -- A data page is no cell of the tree, so it was there before.
    rintro id ⟨page, hpage, hmagic⟩
    rcases cell_cases hs' hpage with hcell | ⟨cell, -, hcell, hshown⟩
    · exact h.foreign id ⟨page, (hsame id page ((hraw id page).mp hcell)).1, hmagic⟩
    · exact absurd (of_decide_eq_true hmagic) (not_magic_of_shown hshown hcell (.inl rfl))

/-- A step of the tree is none of the heap's business. -/
theorem Shelved.tree_step (h : Shelved m₀ m heap tree schema contents chain s levels leaves) {map' : KeyMap}
    (hrep : Index.Represents m' tree' s' levels' leaves' map')
    (hchanged : Changed tree tree' s s' (ownIds tree levels leaves) (ownIds tree' levels' leaves')) :
    Shelved m₀ m' heap tree' schema ⟨contents.table, map'⟩ chain s' levels' leaves' := by
  refine ⟨h.rows.of_cells h.index.store hrep.store h.raw hchanged.raw hchanged.there, hrep, fun id hid => ?_⟩
  obtain ⟨page, hcell⟩ := h.raw id hid
  exact ⟨page, (hchanged.raw id page).mpr hcell⟩

/-- The cells of a tree, and whatever else is in the memory now. -/
def refresh (s : Store) (m : Memory PageId Payload) : Store := fun id =>
  match s id with
  | some (.node content) => some (.node content)
  | some (.header root config) => some (.header root config)
  | _ => (m id).map .raw

theorem refresh_of_cell (m : Memory PageId Payload) {cell : Cell} (hcell : s id = some cell) (hraw : ∀ page, cell ≠ .raw page) :
    refresh s m id = some cell := by
  rw [refresh, hcell]
  cases cell with
  | node content => rfl
  | header root config => rfl
  | raw page => exact absurd rfl (hraw page)

theorem refresh_cases (s : Store) (m : Memory PageId Payload) (id : PageId) :
    (∃ cell, s id = some cell ∧ ∀ page, cell ≠ .raw page) ∨ refresh s m id = (m id).map .raw := by
  cases hcell : s id with
  | none =>
    right
    rw [refresh, hcell]
  | some cell =>
    cases cell with
    | node content | header root config => exact .inl ⟨_, rfl, nofun⟩
    | raw page =>
      right
      rw [refresh, hcell]

/-- A step of the heap is none of the tree's business. -/
theorem Shelved.heap_step (h : Shelved m₀ m heap tree schema contents chain s levels leaves) {table' : Table}
    (hrep : Represents m₀ m' heap' schema table' chain') (hspared : Spared heap.metadata m m') :
    Shelved m₀ m' heap' tree schema ⟨table', contents.map⟩ chain' (refresh s m') levels leaves := by
  -- The cells of the tree are where they were.
  have hcells : ∀ id cell, s id = some cell → (∀ bytes, cell ≠ .raw bytes) →
      ∃ page, m' id = some page ∧ cell.Shown tree.config page := by
    intro id cell hcell hraw
    obtain ⟨page, hpage, hshown⟩ := h.index.store.some hcell
    refine ⟨page, hspared id page ?_ hpage ?_, hshown⟩
    · rintro rfl
      obtain ⟨bytes, hbytes⟩ := h.raw heap.metadata List.mem_cons_self
      exact hraw bytes (Option.some.inj (hcell.symm.trans hbytes))
    · exact decide_eq_false (not_magic_of_shown hshown hraw (.inl rfl))
  refine ⟨hrep, ⟨fun id => ?_, stands_congr h.index.stands fun id hid => ?_, h.index.entries⟩, fun id hid => ?_⟩
  · rcases refresh_cases s m' id with ⟨cell, hcell, hraw⟩ | hself
    · obtain ⟨page, hpage, hshown⟩ := hcells id cell hcell hraw
      rw [refresh_of_cell m' hcell hraw, hpage]
      exact .some hshown
    · rw [hself]
      cases m' id with
      | none => exact .none
      | some page => exact .some rfl
  · obtain ⟨cell, hcell, hraw⟩ := own_cell h.index.stands hid
    rw [refresh_of_cell m' hcell hraw, hcell]
  · obtain ⟨page, magic, hpage, hmagic, hwindow⟩ := hrep.holds.magic hid
    rcases refresh_cases s m' id with ⟨cell, hcell, hraw⟩ | hself
    · obtain ⟨page', hpage', hshown⟩ := hcells id cell hcell hraw
      obtain rfl := Option.some.inj (hpage.symm.trans hpage')
      exact absurd hwindow (not_magic_of_shown hshown hraw hmagic)
    · exact ⟨page, by rw [hself, hpage, Option.map_some]⟩

/-! ## Whole runs -/

/-- The heap and the tree of this state hold these contents. -/
def IndexedTable.Holds (m₀ : Memory PageId Payload) (schema : Schema) (x : IndexedTable) (contents : Contents) : Prop :=
  x.db.Ready ∧ ∃ chain s levels leaves, Shelved m₀ x.db.memory x.heap x.tree schema contents chain s levels leaves

/-- Every call is a step of the contents. -/
theorem IndexedTable.Holds.call {x : IndexedTable} (h : x.Holds m₀ schema contents) {c : TableCall}
    (hsmooth : x.CallSmooth client c) : ∃ contents', contents.Allows schema (ForeignPage m₀) contents' (x.call client c).1 c ∧
      (x.call client c).2.Holds m₀ schema contents' := by
  obtain ⟨hready, chain, s, levels, leaves, hshelved⟩ := h
  cases c with
  | heap c =>
    have hthere := HeapCall.reaches_of_smooth hready hsmooth
    obtain ⟨⟨⟨table', chain', hallows, hrep⟩, hspared⟩, hready'⟩ := (Database.pager_shows client).run_of_sat hready hsmooth
      ((HeapCall.meets hshelved.rows hthere).and (HeapCall.spares hshelved.rows hthere))
    exact ⟨⟨table', contents.map⟩, ⟨rfl, _, rfl, hallows⟩, hready', chain', _, levels, leaves, hshelved.heap_step hrep hspared⟩
  | tree c =>
    obtain ⟨⟨answer, hanswer, hanswers, s', levels', leaves', hrep, hchanged⟩, hready'⟩ :=
      (Database.pager_shows client).run_of_sat hready hsmooth (hshelved.index.meets c)
    refine ⟨⟨contents.table, contents.map.after c⟩, ⟨rfl, rfl, .ok answer, ?_, hanswers⟩, hready', chain, s', levels', leaves', ?_⟩
    · exact congrArg (Except.map TableAnswer.tree) hanswer
    · exact hshelved.tree_step hrep hchanged

/-! ## Creation -/

/-- The two `create` functions and the two constructors. -/
def createBoth (client : Option TransactionId) (schema : Schema) (config : BPlusTreeConfig) :
    Method PageId Payload Err Unit (TableHeap × BPlusTree) := do
  let heap ← TableHeap.createAndOpen schema
  let id ← BPlusTree.creation client config
  let tree ← BPlusTree.openTree id
  return (heap, tree)

theorem newStore_raw {id root other : PageId} (hid : m id = none) (hroot : m root = none) (page : Payload) :
    newStore m id root config other = some (.raw page) ↔ rawStore m other = some (.raw page) := by
  by_cases hotherRoot : other = root
  · subst hotherRoot
    rw [newStore, Store.write_self, rawStore, hroot]
    simp
  · rw [newStore, Store.write_of_ne hotherRoot]
    by_cases hother : other = id
    · subst hother
      rw [Store.writeHeader_self, rawStore, hid]
      simp
    · rw [Store.writeHeader_of_ne hother]

theorem gives_createBoth (hcolumns : schema.columns ≠ []) (haccepted : config.Accepted) :
    (createBoth client schema config).Gives Database.blank () m fun both _ m' =>
      ∃ s leaves, Shelved m m' both.1 both.2 schema ⟨[], fun _ => none⟩ [] s [] leaves := by
  apply Method.gives_bind
  refine (gives_createAndOpen hcolumns).mono ?_
  rintro heap _ m₁ hrows
  apply Method.gives_bind
  refine (gives_creation haccepted).mono ?_
  rintro id _ m₂ ⟨root, hid, hroot, -, -, hindex⟩
  apply Method.gives_bind
  refine hindex.gives_open.mono ?_
  rintro tree _ m₃ ⟨rfl, -, rfl⟩
  obtain ⟨page, hpage⟩ := Option.ne_none_iff_exists'.mp (hrows.holds.there (.inl rfl))
  have hmeta : rawStore m₁ heap.metadata = some (.raw page) := by rw [rawStore, hpage, Option.map_some]
  have hraw : ∀ other page, newStore m₁ id root config other = some (.raw page) ↔ rawStore m₁ other = some (.raw page) :=
    fun other page => newStore_raw hid hroot page
  refine Method.gives_pure ⟨_, _, hrows.of_cells (rawStore_of config m₁) hindex.store ?_ hraw ?_, hindex, ?_⟩
  · simpa using ⟨page, hmeta⟩
  · intro other hother
    obtain ⟨page', hpage'⟩ : ∃ page', rawStore m₁ other = some (.raw page') := by
      rw [rawStore] at hother ⊢
      cases hm : m₁ other with
      | none => simp [hm] at hother
      | some page' => exact ⟨page', rfl⟩
    simp [(hraw other page').mpr hpage']
  · simpa using ⟨page, (hraw _ page).mpr hmeta⟩

theorem holds_created {db : Database} (hready : db.Ready) (hcolumns : schema.columns ≠ []) (haccepted : config.Accepted)
    (hsmooth : ((createBoth client schema config).run ()).Smooth (Database.pager client) db) :
    ∃ heap tree db', ((createBoth client schema config).run ()).run (Database.pager client) db = ((.ok (heap, tree), ()), db') ∧
      IndexedTable.Holds db.memory schema ⟨db', heap, tree⟩ ⟨[], fun _ => none⟩ := by
  obtain ⟨⟨both, hboth, s, leaves, hshelved⟩, hready'⟩ := (Database.pager_shows client).run_of_sat hready hsmooth
    (gives_createBoth (m := db.memory) hcolumns haccepted)
  exact ⟨both.1, both.2, _, Prod.ext (Prod.ext hboth rfl) rfl, hready', [], s, [], leaves, hshelved⟩

end Ddb.Execution
