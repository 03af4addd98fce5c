import Ddb.Index.BPlusTree
import Ddb.Concurrency.Paging

/-!
# The pages of a tree as cells

What a tree method does is said on a store of cells: a page is a node, the header of a tree, or bytes that are none of its
business. `Does` reads a method as a change of the store and the object, and there is one rule for each of the operations
the algorithms are made of.
-/

namespace Ddb.Index

open Ddb.Lib Ddb.Storage
open Ddb.Concurrency (Database)

/-! ## Cells -/

inductive Cell where
  | node (content : Node)
  | header (root : PageId) (config : BPlusTreeConfig)
  | raw (page : Payload)

structure HeaderPage (page : Payload) (root : PageId) (config : BPlusTreeConfig) : Prop where
  magic : window page.bytes 0 8 = kMetadataMagic
  root : getPageId page 8 = root
  leafMaxKeys : get16 page 16 = config.leafMaxKeys
  internalMaxKeys : get16 page 18 = config.internalMaxKeys

def Cell.Shown (config : BPlusTreeConfig) : Cell → Payload → Prop
  | .node content, page => decode config page = .ok content
  | .header root config, page => HeaderPage page root config
  | .raw bytes, page => page = bytes

def Cell.withParent (parent : PageId) : Cell → Cell
  | .node content => .node { content with parent := parent }
  | cell => cell

abbrev Store := Memory PageId Cell

namespace Store

/-- The memory holds the cells of the store, and no other page. -/
def Of (config : BPlusTreeConfig) (s : Store) (m : Memory PageId Payload) : Prop :=
  ∀ id, Option.Rel (Cell.Shown config) (s id) (m id)

def write (s : Store) (id : PageId) (node : Node) : Store := Function.update s id (some (.node node))

def writeHeader (s : Store) (id root : PageId) (config : BPlusTreeConfig) : Store :=
  Function.update s id (some (.header root config))

/-- The children get another parent. -/
def reparent (s : Store) (parent : PageId) (children : List PageId) : Store := fun id =>
  if id ∈ children then (s id).map (Cell.withParent parent) else s id

variable {s : Store} {config : BPlusTreeConfig} {m : Memory PageId Payload} {id : PageId} {children : List PageId}

theorem Of.some (h : s.Of config m) {cell : Cell} (hcell : s id = some cell) : ∃ page, m id = some page ∧ cell.Shown config page := by
  have hrel := h id
  rw [hcell] at hrel
  cases hpage : m id with
  | none => rw [hpage] at hrel; cases hrel
  | some page =>
    rw [hpage] at hrel
    cases hrel with
    | some hshown => exact ⟨page, rfl, hshown⟩

theorem Of.none (h : s.Of config m) (hfree : m id = none) : s id = none := by
  have hrel := h id
  rw [hfree] at hrel
  cases hcell : s id with
  | none => rfl
  | some cell => rw [hcell] at hrel; cases hrel

theorem Of.update (h : s.Of config m) {c : Cell} {page : Payload} (hshown : c.Shown config page) :
    Store.Of config (Function.update s id (Option.some c)) (Function.update m id (Option.some page)) := by
  intro other
  by_cases hother : other = id
  · subst hother
    rw [Function.update_self, Function.update_self]
    exact .some hshown
  · rw [Function.update_of_ne hother, Function.update_of_ne hother]
    exact h other

@[simp] theorem write_self (s : Store) (id : PageId) (node : Node) : s.write id node id = Option.some (.node node) :=
  Function.update_self _ _ _

theorem write_of_ne {other : PageId} (h : other ≠ id) (node : Node) : s.write id node other = s other :=
  Function.update_of_ne h _ _

@[simp] theorem writeHeader_self (s : Store) (id root : PageId) (config : BPlusTreeConfig) :
    s.writeHeader id root config id = Option.some (.header root config) := Function.update_self _ _ _

theorem writeHeader_of_ne {other root : PageId} (h : other ≠ id) : s.writeHeader id root config other = s other :=
  Function.update_of_ne h _ _

theorem reparent_of_not_mem {parent : PageId} (h : id ∉ children) : s.reparent parent children id = s id := if_neg h

theorem reparent_of_mem {parent : PageId} (h : id ∈ children) :
    s.reparent parent children id = (s id).map (Cell.withParent parent) := if_pos h

theorem reparent_eq_none {parent : PageId} : s.reparent parent children id = none ↔ s id = none := by
  rw [reparent]
  split <;> simp

end Store

/-! ## Rules -/

/-- From this store the method returns, and `Q` holds of what it returns and leaves. -/
def TreeOp.Does {α : Type} (x : TreeOp α) (tree : BPlusTree) (s : Store) (Q : α → BPlusTree → Store → Prop) : Prop :=
  ∀ m, s.Of tree.config m → Method.Gives Database.blank x tree m fun a tree' m' =>
    ∃ s', Store.Of tree'.config s' m' ∧ Q a tree' s'

section Rules

variable {α β : Type} {x : TreeOp α} {f : α → TreeOp β} {tree : BPlusTree} {s : Store} {Q : α → BPlusTree → Store → Prop}
  {id : PageId} {node : Node} {xs : List α} {config : BPlusTreeConfig}

theorem TreeOp.Does.mono {R : α → BPlusTree → Store → Prop} (h : x.Does tree s Q) (hQR : ∀ a tree s, Q a tree s → R a tree s) :
    x.Does tree s R := fun m hm =>
  (h m hm).mono fun _ _ _ ⟨s', hs', hQ⟩ => ⟨s', hs', hQR _ _ _ hQ⟩

theorem does_bind {R : β → BPlusTree → Store → Prop} (h : x.Does tree s fun a tree s => (f a).Does tree s R) :
    TreeOp.Does (x >>= f) tree s R := by
  intro m hm
  apply Method.gives_bind
  refine (h m hm).mono ?_
  rintro a tree' m' ⟨s', hs', hnext⟩
  exact hnext m' hs'

theorem does_pure {a : α} (h : Q a tree s) : TreeOp.Does (pure a) tree s Q := fun _ hm => Method.gives_pure ⟨s, hm, h⟩

theorem does_get {Q : BPlusTree → BPlusTree → Store → Prop} (h : Q tree tree s) : TreeOp.Does get tree s Q :=
  fun _ hm => Method.gives_get ⟨s, hm, h⟩

theorem does_getAt {i : Nat} {a : α} (ha : xs[i]? = some a) (h : Q a tree s) : TreeOp.Does (getAt xs i) tree s Q := by
  rw [getAt, ha]
  exact does_pure h

theorem does_front {a : α} (ha : xs.head? = some a) (h : Q a tree s) : TreeOp.Does (front xs) tree s Q :=
  does_getAt (by rwa [List.head?_eq_getElem?] at ha) h

theorem does_back {a : α} (ha : xs.getLast? = some a) (h : Q a tree s) : TreeOp.Does (back xs) tree s Q :=
  does_getAt (by rwa [List.getLast?_eq_getElem?] at ha) h

theorem does_setAt {Q : List α → BPlusTree → Store → Prop} {i : Nat} {a : α} (hi : i < xs.length) (h : Q (xs.set i a) tree s) :
    TreeOp.Does (setAt xs i a) tree s Q := by
  rw [setAt, if_pos hi]
  exact does_pure h

theorem does_insertAt {Q : List α → BPlusTree → Store → Prop} {i : Nat} {a : α} (hi : i ≤ xs.length)
    (h : Q (xs.insertIdx i a) tree s) : TreeOp.Does (insertAt xs i a) tree s Q := by
  rw [insertAt, if_pos hi]
  exact does_pure h

theorem does_eraseAt {Q : List α → BPlusTree → Store → Prop} {i : Nat} (hi : i < xs.length) (h : Q (xs.eraseIdx i) tree s) :
    TreeOp.Does (eraseAt xs i) tree s Q := by
  rw [eraseAt, if_pos hi]
  exact does_pure h

theorem sized_of_decode {page : Payload} (h : decode config page = .ok node) : node.Sized config := by
  rw [decode] at h
  split at h
  · cases h
  rename_i hvalid
  have hcount := Nat.le_of_not_lt fun hlt => hvalid (.inr hlt)
  split at h
  · rename_i hleaf
    split at h
    · cases h
    obtain rfl := Except.ok.inj h
    rw [hleaf] at hcount
    exact ⟨by simpa using hcount, by simp⟩
  · rename_i hleaf
    split at h
    · cases h
    obtain rfl := Except.ok.inj h
    rw [Bool.eq_false_of_not_eq_true hleaf] at hcount
    exact ⟨by simpa using hcount, by simp⟩

variable {Q : Unit → BPlusTree → Store → Prop}

theorem gives_readNode {blank : Blank PageId Payload} {m : Memory PageId Payload} {id : PageId} {page : Payload}
    {Q : Node → BPlusTree → Memory PageId Payload → Prop} (hpage : m id = some page)
    (hdecode : decode tree.config page = .ok node) (h : Q node tree m) : (BPlusTree.readNode id).Gives blank tree m Q := by
  apply Method.gives_bind
  apply Method.gives_get
  apply Method.gives_bind
  refine Method.gives_pin hpage ?_
  rw [hdecode]
  exact Method.gives_pure h

theorem gives_writeNode {blank : Blank PageId Payload} {m : Memory PageId Payload} {id : PageId} {old page : Payload}
    {Q : Unit → BPlusTree → Memory PageId Payload → Prop} (hsized : node.Sized tree.config) (hold : m id = some old)
    (hencode : encode node = some page) (h : Q () tree (m.put id (some page))) :
    (BPlusTree.writeNode id node).Gives blank tree m Q := by
  have hlegal : ¬ (node.keys.length > tree.config.maxKeys node.leaf ∨
      (if node.leaf then node.values.length ≠ node.keys.length else node.children.length ≠ node.keys.length + 1)) := by
    have hshape := hsized.shape
    have hcount := hsized.count
    cases hleaf : node.leaf <;> simp_all
  apply Method.gives_bind
  apply Method.gives_get
  rw [if_neg hlegal]
  apply Method.gives_bind
  exact Method.gives_update hold hencode (Method.gives_pure h)

theorem does_readNode {Q : Node → BPlusTree → Store → Prop} {p : PageId} {n : Node} (hnode : s p = some (.node n))
    (h : n.Sized tree.config → Q n tree s) : (BPlusTree.readNode p).Does tree s Q := by
  intro m hm
  obtain ⟨page, hpage, hshown⟩ := hm.some hnode
  exact gives_readNode hpage hshown ⟨s, hm, h (sized_of_decode hshown)⟩

theorem does_writeNode (haccepted : tree.config.Accepted) (hthere : s id ≠ none) (hsized : node.Sized tree.config)
    (h : Q () tree (s.write id node)) : (BPlusTree.writeNode id node).Does tree s Q := by
  intro m hm
  obtain ⟨cell, hcell⟩ := Option.ne_none_iff_exists'.mp hthere
  obtain ⟨old, hold, -⟩ := hm.some hcell
  obtain ⟨page, hencode, hdecode⟩ := decode_encode haccepted hsized
  refine gives_writeNode hsized hold hencode ⟨_, ?_, h⟩
  exact hm.update hdecode

theorem does_allocateNode {Q : PageId → BPlusTree → Store → Prop} (haccepted : tree.config.Accepted)
    (hsized : node.Sized tree.config)
    (h : ∀ id, s id = none → id.isValid = true → Q id tree (s.write id node)) :
    (BPlusTree.allocateNode node).Does tree s Q := by
  apply does_bind
  intro m hm
  apply Method.gives_allocate
  intro id hfree hvalid
  refine ⟨Function.update s id (some (.raw .zero)), hm.update rfl, ?_⟩
  apply does_bind
  refine does_writeNode haccepted (by simp) hsized (does_pure ?_)
  rw [Store.write, Function.update_idem]
  exact h id (hm.none hfree) hvalid

theorem headerPage_metadataPage (haccepted : config.Accepted) (root : PageId) :
    ∃ page, BPlusTree.metadataPage root config = some page ∧ HeaderPage page root config := by
  obtain ⟨page, hputs⟩ := puts_eq_some .zero [(0, kMetadataMagic), (8, leBytes 8 root.index),
    (16, leBytes 2 config.leafMaxKeys), (18, leBytes 2 config.internalMaxKeys)]
    (by simp [kMetadataMagic, kPagePayloadSize_eq])
  have hleaf := haccepted.leafSize
  have hinternal := haccepted.internalSize
  simp only [kHeaderSize, kLeafEntrySize, kInternalEntrySize, kPagePayloadSize_eq] at hleaf hinternal
  refine ⟨page, hputs, ?_, getPageId_of_window ?_, get16_of_window ?_ (by omega), get16_of_window ?_ (by omega)⟩
  · exact window_puts_field [] hputs (by simp [Apart, kMetadataMagic])
  · exact window_puts_field [_] hputs (by simp [Apart])
  · exact window_puts_field [_, _] hputs (by simp [Apart])
  · exact window_puts_field [_, _, _] hputs (by simp)

theorem does_writeMetadata (haccepted : tree.config.Accepted) (hthere : s tree.metadata ≠ none)
    (h : Q () tree (s.writeHeader tree.metadata tree.root tree.config)) :
    BPlusTree.writeMetadata.Does tree s Q := by
  intro m hm
  obtain ⟨cell, hcell⟩ := Option.ne_none_iff_exists'.mp hthere
  obtain ⟨old, hold, -⟩ := hm.some hcell
  obtain ⟨page, hpage, hheader⟩ := headerPage_metadataPage haccepted tree.root
  apply Method.gives_bind
  apply Method.gives_get
  apply Method.gives_bind
  refine Method.gives_update hold hpage (Method.gives_pure ⟨_, ?_, h⟩)
  exact hm.update hheader

theorem does_setRoot {root : PageId} (haccepted : tree.config.Accepted) (hthere : s tree.metadata ≠ none)
    (h : Q () { tree with root := root } (s.writeHeader tree.metadata root tree.config)) :
    (BPlusTree.setRoot root).Does tree s Q := by
  apply does_bind
  intro m hm
  refine Method.gives_modify ⟨s, hm, ?_⟩
  exact @does_writeMetadata { tree with root := root } s Q haccepted hthere h

theorem Node.Sized.withParent (h : node.Sized config) (parent : PageId) :
    Node.Sized config { node with parent := parent } := ⟨h.count, h.shape⟩

theorem does_setParent {parent : PageId} (haccepted : tree.config.Accepted) (hnode : s id = some (.node node))
    (h : Q () tree (s.reparent parent [id])) : (BPlusTree.setParent id parent).Does tree s Q := by
  apply does_bind
  refine does_readNode hnode fun hsized => ?_
  refine does_writeNode haccepted (by simp [hnode]) (hsized.withParent parent) ?_
  have hstore : s.reparent parent [id] = s.write id { node with parent := parent } := by
    funext other
    by_cases hother : other = id
    · subst hother
      rw [Store.reparent_of_mem (by simp), hnode, Store.write_self]
      rfl
    · rw [Store.reparent_of_not_mem (by simpa using hother), Store.write_of_ne hother]
  rwa [← hstore]

theorem does_setParents {parent : PageId} {children : List PageId} (haccepted : tree.config.Accepted)
    (hnodes : ∀ child ∈ children, ∃ node, s child = some (.node node)) (h : Q () tree (s.reparent parent children)) :
    (BPlusTree.setParents children parent).Does tree s Q := by
  induction children generalizing s with
  | nil => exact does_pure h
  | cons child children ih =>
    obtain ⟨node, hnode⟩ := hnodes child List.mem_cons_self
    apply does_bind
    refine does_setParent haccepted hnode (ih ?_ ?_)
    · intro other hother
      obtain ⟨node', hnode'⟩ := hnodes other (List.mem_cons_of_mem child hother)
      by_cases heq : other ∈ [child]
      · rw [Store.reparent_of_mem heq, hnode']
        exact ⟨_, rfl⟩
      · exact ⟨node', (Store.reparent_of_not_mem heq).trans hnode'⟩
    · convert h using 1
      funext other
      have htwice : ∀ cell : Cell, (cell.withParent parent).withParent parent = cell.withParent parent := by
        intro cell
        cases cell <;> rfl
      by_cases hfirst : other ∈ [child]
      · have hall : other ∈ child :: children := List.mem_cons.mpr (.inl (by simpa using hfirst))
        by_cases hrest : other ∈ children
        · rw [Store.reparent_of_mem hrest, Store.reparent_of_mem hfirst, Store.reparent_of_mem hall, Option.map_map]
          exact congrFun (congrArg Option.map (funext htwice)) (s other)
        · rw [Store.reparent_of_not_mem hrest, Store.reparent_of_mem hfirst, Store.reparent_of_mem hall]
      · by_cases hrest : other ∈ children
        · rw [Store.reparent_of_mem hrest, Store.reparent_of_not_mem hfirst,
            Store.reparent_of_mem (List.mem_cons_of_mem child hrest)]
        · have hall : other ∉ child :: children := fun hin => (List.mem_cons.mp hin).elim (by simpa using hfirst) hrest
          rw [Store.reparent_of_not_mem hrest, Store.reparent_of_not_mem hfirst, Store.reparent_of_not_mem hall]

end Rules

/-! ## The node codec -/

/-- All that `write_node` writes, in order. -/
def nodeWrites (node : Node) : List (Nat × Bytes) :=
  headerWrites node ++
    if node.leaf then leafWrites 0 (node.keys.zip node.values)
    else (node.children.take 1).map (fun child => (kHeaderSize, leBytes 8 child.index)) ++
      internalWrites 0 (node.keys.zip (node.children.drop 1))

theorem encode_eq_puts (h : node.Sized config) : encode node = puts .zero (nodeWrites node) := by
  have hshape := h.shape
  rw [encode, nodeWrites]
  split at hshape
  · rename_i hleaf
    rw [if_pos hleaf, if_pos hleaf]
  · rename_i hleaf
    rw [if_neg hleaf, if_neg hleaf]
    obtain ⟨child, children, hchildren⟩ := List.exists_cons_of_length_pos (l := node.children) (by omega)
    rw [hchildren]
    rfl

/-- **Node codec.** What is written of a node lies in its page, and reading the page gives the node back. No other page and no
field of the tree changes. -/
theorem node_codec (haccepted : tree.config.Accepted) (hsized : node.Sized tree.config) (blank : Blank PageId Payload)
    (m : Memory PageId Payload) {id : PageId} (hthere : m id ≠ none) :
    (∀ write ∈ nodeWrites node, write.1 + write.2.length ≤ kPagePayloadSize) ∧
    ∃ page, puts .zero (nodeWrites node) = some page ∧
      Method.Gives blank (do BPlusTree.writeNode id node; BPlusTree.readNode id) tree m fun read tree' m' =>
        read = node ∧ tree' = tree ∧ m' = m.put id (some page) := by
  obtain ⟨page, hencode, hdecode⟩ := decode_encode haccepted hsized
  obtain ⟨old, hold⟩ := Option.ne_none_iff_exists'.mp hthere
  have hputs := (encode_eq_puts hsized).symm.trans hencode
  refine ⟨puts_inside hputs, page, hputs, ?_⟩
  apply Method.gives_bind
  refine gives_writeNode hsized hold hencode ?_
  exact gives_readNode (Memory.put_some_self m id page) hdecode ⟨rfl, rfl, rfl⟩

def fullNode : Node := ⟨false, .invalid, .invalid, [-1, 7], [], [.ofIndex 3, .ofIndex 4, .invalid]⟩

/-- A full internal node, its last child the invalid page. -/
theorem fullNode_reads_back : Method.Gives ⟨.zero, fun _ => True⟩
    (do BPlusTree.writeNode (.ofIndex 1) fullNode; BPlusTree.readNode (.ofIndex 1)) ⟨.ofIndex 0, .ofIndex 1, ⟨201, 2⟩⟩
    (fun _ => some .zero) fun read _ _ => read = fullNode := by
  obtain ⟨-, page, -, hreads⟩ := @node_codec fullNode ⟨.ofIndex 0, .ofIndex 1, ⟨201, 2⟩⟩
    ⟨by decide, by decide, by decide, by decide⟩ ⟨by decide, by decide⟩ ⟨.zero, fun _ => True⟩ (fun _ => some .zero) (.ofIndex 1)
    (by simp)
  exact hreads.mono fun _ _ _ h => h.1

end Ddb.Index
