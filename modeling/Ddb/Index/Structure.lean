import Ddb.Index.TreeRefinement
import Mathlib.Order.Bounds.Basic

/-!
# The shape of a tree

The structural invariant, said of the nodes as they are read from the pages, from the root down. That every run keeps it
follows from the levels: the groups of a level are the children of its nodes.
-/

namespace Ddb.Index

open Ddb.Lib Ddb.Storage Ddb.Buffer Ddb.Concurrency
open Ddb.Lib.Group (Sorted)

/-! ## From the root down -/

/-- The node on a page. -/
def nodeAt (config : BPlusTreeConfig) (m : Memory PageId Payload) (id : PageId) : Option Node :=
  (m id).bind fun page => (decode config page).toOption

section Shape

variable (config : BPlusTreeConfig) (read : PageId → Option Node)

/-- The pages that many levels below a node, from left to right. -/
def leavesUnder : Nat → PageId → List PageId
  | 0, id => [id]
  | depth + 1, id => ((read id).elim [] Node.children).flatMap (leavesUnder depth)

def keysUnder (depth : Nat) (id : PageId) : List KeyType :=
  (leavesUnder read depth id).flatMap fun leaf => (read leaf).elim [] Node.keys

/-- How many keys a node needs that is not the root. -/
def minimum : Nat → Nat
  | 0 => (config.leafMaxKeys + 1) / 2
  | _ + 1 => config.internalMaxKeys / 2

/-- A subtree whose leaves are all that many levels down; its own root has `least` keys or more. -/
def Built : Nat → Nat → PageId → PageId → Prop
  | 0, least, id, parent => ∃ node, read id = some node ∧ node.leaf = true ∧ node.parent = parent ∧
      least ≤ node.keys.length ∧ node.keys.length ≤ config.leafMaxKeys
  | depth + 1, least, id, parent => ∃ node, read id = some node ∧ node.leaf = false ∧ node.parent = parent ∧
      least ≤ node.keys.length ∧ node.keys.length ≤ config.internalMaxKeys ∧ node.children.length = node.keys.length + 1 ∧
      (∀ child ∈ node.children, Built depth (minimum config depth) child id) ∧
      ∀ (i : Nat) (key : KeyType) (child : PageId), node.keys[i]? = some key → node.children[i + 1]? = some child →
        IsLeast {k | k ∈ keysUnder read depth child} key

/-- Each page names the next, and the last the invalid id. -/
def Chained : List PageId → Prop
  | [] => True
  | id :: rest => (∃ node, read id = some node ∧ node.next = rest.headD .invalid) ∧ Chained rest

/-- The whole tree, of that depth. -/
structure WellFormed (root : PageId) (depth : Nat) : Prop where
  built : Built config read depth (if depth = 0 then 0 else 1) root .invalid
  chained : Chained read (leavesUnder read depth root)
  ordered : (keysUnder read depth root).Pairwise (· < ·)

end Shape

/-! ## From the levels up -/

variable {m : Memory PageId Payload} {tree : BPlusTree} {s : Store} {levels above : List (List Inner)} {level : List Inner}
  {leaves : List Leaf} {items : List Item} {config : BPlusTreeConfig} {read : PageId → Option Node} {depth : Nat}

theorem nodeAt_of_store (h : Store.Of config s m) {id : PageId} {node : Node} (hnode : s id = some (.node node)) :
    nodeAt config m id = some node := by
  obtain ⟨page, hpage, hshown⟩ := h.some hnode
  have hdecode : decode config page = .ok node := hshown
  rw [nodeAt, hpage, Option.bind_some, hdecode]
  rfl

theorem leavesUnder_succ {id : PageId} {node : Node} (h : read id = some node) :
    leavesUnder read (depth + 1) id = node.children.flatMap (leavesUnder read depth) := by
  rw [leavesUnder, h]
  rfl

theorem keysUnder_succ {id : PageId} {node : Node} (h : read id = some node) :
    keysUnder read (depth + 1) id = node.children.flatMap (keysUnder read depth) := by
  rw [keysUnder, leavesUnder_succ h, List.flatMap_assoc]
  rfl

/-- The keys a node needs, with these levels above it. -/
def leastKeys (config : BPlusTreeConfig) (depth : Nat) : List (List Inner) → Nat
  | [] => if depth = 0 then 0 else 1
  | _ :: _ => minimum config depth

/-- What is known of a level that has this depth below it. -/
structure Grown (config : BPlusTreeConfig) (read : PageId → Option Node) (s : Store) (depth least : Nat) (items : List Item)
    (leaves : List PageId) : Prop where
  built : ∀ item ∈ items, ∀ parent, HasParent s item.2 parent → Built config read depth least item.2 parent
  first : ∀ item ∈ items.tail, (keysUnder read depth item.2).head? = some item.1
  leaves : items.flatMap (fun item => leavesUnder read depth item.2) = leaves

theorem Grown.sorted {leafIds : List PageId} {least : Nat} (h : Grown config read s depth least items leafIds)
    (hordered : (leafIds.flatMap fun leaf => (read leaf).elim [] Node.keys).Pairwise (· < ·)) {item : Item} (hitem : item ∈ items) :
    (keysUnder read depth item.2).Pairwise (· < ·) := by
  obtain ⟨before, after, rfl⟩ := List.append_of_mem hitem
  rw [← h.leaves, List.flatMap_append, List.flatMap_cons, List.flatMap_append, List.flatMap_append, List.pairwise_append,
    List.pairwise_append] at hordered
  exact hordered.2.1.1

theorem isLeast_of_head {keys : List KeyType} {key : KeyType} (hfirst : keys.head? = some key) (hsorted : keys.Pairwise (· < ·)) :
    IsLeast {k | k ∈ keys} key := by
  obtain ⟨rest, rfl⟩ := List.head?_eq_some_iff.mp hfirst
  refine ⟨List.mem_cons_self, fun k hk => ?_⟩
  rcases List.mem_cons.mp hk with rfl | hk
  · exact le_refl k
  · exact le_of_lt (List.rel_of_pairwise_cons hsorted hk)

/-- One level more: its nodes have the items below as children. -/
theorem Grown.up {leafIds : List PageId} (h : Grown config read s depth (minimum config depth) items leafIds)
    (hread : ∀ id node, s id = some (.node node) → read id = some node)
    (hitems : level.flatMap Group.items = items) (hlevel : ∀ g ∈ level, InnerAt s g)
    (hsizes : ∀ g ∈ level, g.rest.length ≤ config.internalMaxKeys ∧ minKeys config above ≤ g.rest.length)
    (hordered : (leafIds.flatMap fun leaf => (read leaf).elim [] Node.keys).Pairwise (· < ·)) :
    Grown config read s (depth + 1) (leastKeys config (depth + 1) above) (level.map Group.item) leafIds := by
  have hnode : ∀ g ∈ level, ∃ parent, read g.id = some (Inner.node g parent) := fun g hg => by
    obtain ⟨parent, hnode⟩ := (hlevel g hg).node
    exact ⟨parent, hread _ _ hnode⟩
  have hin : ∀ g ∈ level, ∀ item ∈ g.items, item ∈ items := fun g hg item hitem =>
    hitems ▸ List.mem_flatMap.mpr ⟨g, hg, hitem⟩
  refine ⟨?_, ?_, ?_⟩
  · intro item hitem parent hparent
    obtain ⟨g, hg, rfl⟩ := List.mem_map.mp hitem
    obtain ⟨parent', hcell⟩ := (hlevel g hg).node
    obtain rfl : parent' = parent := HasParent.unique ⟨_, hcell, rfl⟩ hparent
    have hkeys : g.keys.length = g.rest.length := List.length_map _
    refine ⟨Inner.node g parent', hread _ _ hcell, rfl, rfl, ?_, ?_, g.children_length, ?_, ?_⟩
    · refine le_trans (le_of_eq ?_) ((hsizes g hg).2.trans (le_of_eq hkeys.symm))
      cases above <;> rfl
    · exact (le_of_eq hkeys).trans (hsizes g hg).1
    · intro child hchild
      obtain ⟨x, hx, rfl⟩ := List.mem_map.mp hchild
      exact h.built x (hin g hg x hx) _ ((hlevel g hg).children _ hchild)
    · intro i key child hkey hchild
      -- The separator and the child to its right are one item, and not the first.
      have hkey : (g.rest.map Prod.fst)[i]? = some key := hkey
      have hchild : (g.rest.map Prod.snd)[i]? = some child := hchild
      rw [List.getElem?_map, Option.map_eq_some_iff] at hkey hchild
      obtain ⟨x, hx, rfl⟩ := hkey
      obtain ⟨y, hy, rfl⟩ := hchild
      obtain rfl : x = y := Option.some.inj (hx.symm.trans hy)
      have hrest := List.mem_of_getElem? hx
      obtain ⟨before, after, rfl⟩ := List.append_of_mem hg
      have htail : x ∈ items.tail := hitems ▸ Group.rest_sublist_tail.subset hrest
      exact isLeast_of_head (h.first x htail) (h.sorted hordered (hin g hg x (List.mem_cons_of_mem _ hrest)))
  · intro item hitem
    cases level with
    | nil => cases hitem
    | cons g₀ level =>
      obtain ⟨g, hg, rfl⟩ := List.mem_map.mp hitem
      obtain ⟨parent, hg'⟩ := hnode g (List.mem_cons_of_mem _ hg)
      have hhead : g.head ∈ items.tail := by
        rw [← hitems]
        exact List.mem_append_right _ (List.mem_flatMap.mpr ⟨g, hg, List.mem_cons_self⟩)
      obtain ⟨rest, hrest⟩ := List.head?_eq_some_iff.mp (h.first _ hhead)
      have hchildren : (Inner.node g parent).children = g.head.2 :: g.rest.map Prod.snd := rfl
      change (keysUnder read (depth + 1) g.id).head? = some g.head.1
      rw [keysUnder_succ hg', hchildren, List.flatMap_cons, hrest]
      rfl
  · rw [← h.leaves, ← hitems, List.flatMap_map, List.flatMap_assoc]
    refine List.flatMap_congr fun g hg => ?_
    obtain ⟨parent, hg'⟩ := hnode g hg
    change leavesUnder read (depth + 1) g.id = _
    rw [leavesUnder_succ hg']
    exact List.flatMap_map _ _ _

/-- All levels: what is left is the root. -/
theorem Grown.root {leafIds : List PageId} {root : PageId} (h : Grown config read s depth (leastKeys config depth levels) items leafIds)
    (hread : ∀ id node, s id = some (.node node) → read id = some node)
    (hordered : (leafIds.flatMap fun leaf => (read leaf).elim [] Node.keys).Pairwise (· < ·))
    (htower : Tower s root levels items) (hfilled : Filled config none levels) :
    ∃ depth, Built config read depth (if depth = 0 then 0 else 1) root .invalid ∧ leavesUnder read depth root = leafIds := by
  induction levels generalizing depth items with
  | nil =>
    obtain ⟨⟨key, rfl⟩, hparent⟩ := htower
    refine ⟨depth, h.built (key, root) List.mem_cons_self _ hparent, ?_⟩
    rw [← h.leaves]
    exact (List.append_nil _).symm
  | cons level above ih =>
    obtain ⟨hitems, hlevel, hup⟩ := htower
    exact ih (h.up hread hitems hlevel (fun g hg => by simpa using hfilled.1 g hg) hordered) hup hfilled.2

/-! ## The leaves -/

theorem Linked.chained {stop : PageId} (h : Linked s leaves stop) (hstop : stop = .invalid)
    (hread : ∀ id node, s id = some (.node node) → read id = some node) : Chained read (leaves.map Leaf.id) := by
  induction leaves with
  | nil => trivial
  | cons l rest ih =>
    obtain ⟨⟨parent, hnode⟩, hrest⟩ := h
    refine ⟨⟨_, hread _ _ hnode, ?_⟩, ih hrest⟩
    subst hstop
    cases rest <;> rfl

theorem Linked.keys {stop : PageId} (h : Linked s leaves stop)
    (hread : ∀ id node, s id = some (.node node) → read id = some node) :
    (leaves.map Leaf.id).flatMap (fun leaf => (read leaf).elim [] Node.keys) = (leaves.flatMap Leaf.entries).map Prod.fst := by
  induction leaves with
  | nil => rfl
  | cons l rest ih =>
    obtain ⟨⟨parent, hnode⟩, hrest⟩ := h
    rw [List.map_cons, List.flatMap_cons, List.flatMap_cons, List.map_append, ih hrest, hread _ _ hnode]
    rfl

theorem Linked.node {stop : PageId} (h : Linked s leaves stop) {l : Leaf} (hl : l ∈ leaves) :
    ∃ parent next, s l.id = some (.node (l.node parent next)) := by
  induction leaves with
  | nil => cases hl
  | cons l' rest ih =>
    obtain ⟨⟨parent, hnode⟩, hrest⟩ := h
    rcases List.mem_cons.mp hl with rfl | hl
    · exact ⟨parent, _, hnode⟩
    · exact ih hrest hl

theorem Stands.grown (h : Stands tree s none levels leaves) (hread : ∀ id node, s id = some (.node node) → read id = some node) :
    Grown tree.config read s 0 (leastKeys tree.config 0 levels) (leaves.map Leaf.item) (leaves.map Leaf.id) := by
  refine ⟨?_, ?_, ?_⟩
  · intro item hitem parent hparent
    obtain ⟨l, hl, rfl⟩ := List.mem_map.mp hitem
    obtain ⟨parent', next, hnode⟩ := h.linked.node hl
    obtain rfl : parent' = parent := HasParent.unique ⟨_, hnode, rfl⟩ hparent
    have hsize := h.sizes l hl
    have hkeys : (l.node parent' next).keys.length = l.entries.length := List.length_map _
    refine ⟨l.node parent' next, hread _ _ hnode, rfl, rfl, ?_, hkeys ▸ hsize.1⟩
    cases levels with
    | nil => exact Nat.zero_le _
    | cons level above => simpa [hkeys, leastKeys, minimum] using hsize.2 (by simp)
  · intro item hitem
    obtain ⟨l, hl, rfl⟩ := List.mem_map.mp (List.map_tail ▸ hitem)
    obtain ⟨value, rest, hentries⟩ := h.lows l hl (by simp)
    obtain ⟨parent, next, hnode⟩ := h.linked.node (List.mem_of_mem_tail hl)
    change ([l.id].flatMap fun leaf => (read leaf).elim [] Node.keys).head? = some l.low
    rw [List.flatMap_singleton, hread _ _ hnode]
    simp [Leaf.node, hentries]
  · rw [List.flatMap_map, List.map_eq_flatMap]
    rfl

/-- A tree that stands has the shape it should. -/
theorem Stands.wellFormed (h : Stands tree s none levels leaves) (hstore : Store.Of tree.config s m) :
    ∃ depth, WellFormed tree.config (nodeAt tree.config m) tree.root depth := by
  have hread : ∀ id node, s id = some (.node node) → nodeAt tree.config m id = some node := fun _ _ => nodeAt_of_store hstore
  have hordered : ((leaves.map Leaf.id).flatMap fun leaf => (nodeAt tree.config m leaf).elim [] Node.keys).Pairwise (· < ·) := by
    rw [h.linked.keys hread]
    exact h.entries.map _ fun _ _ hlt => hlt
  obtain ⟨depth, hbuilt, hleaves⟩ := (h.grown hread).root hread hordered h.upper.tower h.upper.filled
  refine ⟨depth, hbuilt, ?_, ?_⟩
  · rw [hleaves]
    exact h.linked.chained rfl hread
  · rw [keysUnder, hleaves]
    exact hordered

/-! ## Whole runs -/

variable {db db₁ : Database} {id : PageId}

/-- **The structural invariant.** Whatever calls have been made on a tree, it has the shape it should. -/
theorem tree_wellFormed {client opener : Option TransactionId} (hready : Database.Ready db)
    (hsmooth : ((BPlusTree.creation client config).run ()).Smooth (Database.pager client) db)
    (hcreate : BPlusTree.createFor client config db = (.ok id, db₁))
    (hopen : ((BPlusTree.openTree id).run ()).Smooth (Database.pager opener) db₁) :
    ∃ tree db₂, ((BPlusTree.openTree id).run ()).run (Database.pager opener) db₁ = ((.ok tree, ()), db₂) ∧
      ∀ calls, TreeState.Smooth ⟨db₂, tree⟩ calls → ∃ depth, WellFormed config
        (nodeAt config (Database.memory (TreeState.after ⟨db₂, tree⟩ calls).db)) (TreeState.after ⟨db₂, tree⟩ calls).tree.root depth := by
  obtain ⟨tree, db₂, hrun, hready, rfl, s, leaves, hrep⟩ := represents_created hready hsmooth hcreate hopen
  refine ⟨tree, db₂, hrun, fun calls hcalls => ?_⟩
  obtain ⟨-, -, hconfig, s', levels', leaves', map', hrep'⟩ := runs_of_smooth ⟨db₂, tree⟩ hready hrep hcalls
  have hshape := hrep'.stands.wellFormed hrep'.store
  rwa [hconfig] at hshape

theorem directory_wellFormed : ∃ tree db₂, TreeState.Smooth ⟨db₂, tree⟩ directoryCalls ∧ ∃ depth, WellFormed directoryConfig
    (nodeAt directoryConfig (Database.memory (TreeState.after ⟨db₂, tree⟩ directoryCalls).db))
    (TreeState.after ⟨db₂, tree⟩ directoryCalls).tree.root depth := by
  obtain ⟨id, db₁, hcreate, hopen, hcalls⟩ := directory_smooth
  obtain ⟨tree, db₂, hrun, hall⟩ := tree_wellFormed (Database.ready_exec (System.launch_new 8).working [.begin])
    directory_created hcreate hopen
  exact ⟨tree, db₂, hcalls tree db₂ hrun, hall directoryCalls (hcalls tree db₂ hrun)⟩

end Ddb.Index
