import Ddb.Index.Store
import Ddb.Lib.Grouping

/-!
# The internal levels of a tree

The internal nodes of a tree are the groups of a list of items, level over level, up to the root. The items of the lowest
level stand for the leaves. `Upper` ties such levels to a store. The repairs that climb the tree are proved level by level:
each changes the items of one level in one place, and the level above takes up the change and passes it on.

The key of the first item of a level is in no node, and may be anything.
-/

namespace Ddb.Index

open Ddb.Lib Ddb.Storage

abbrev Inner := Group KeyType PageId

abbrev Item := KeyType × PageId

/-! ## Levels in a store -/

def Inner.node (g : Inner) (parent : PageId) : Node := ⟨false, parent, .invalid, g.keys, [], g.children⟩

def HasParent (s : Store) (id parent : PageId) : Prop := ∃ node, s id = some (.node node) ∧ node.parent = parent

/-- The node is in the store, and its children know it. -/
structure InnerAt (s : Store) (g : Inner) : Prop where
  node : ∃ parent, s g.id = some (.node (Inner.node g parent))
  children : ∀ child ∈ g.children, HasParent s child g.id

def Tower (s : Store) (root : PageId) : List (List Inner) → List Item → Prop
  | [], items => (∃ key, items = [(key, root)]) ∧ HasParent s root .invalid
  | level :: above, items =>
    level.flatMap Group.items = items ∧ (∀ g ∈ level, InnerAt s g) ∧ Tower s root above (level.map Group.item)

def innerIds (levels : List (List Inner)) : List PageId := levels.flatMap fun level => level.map Group.id

/-- How many keys a node needs, by what is above it. -/
def minKeys (config : BPlusTreeConfig) : List (List Inner) → Nat
  | [] => 1
  | _ :: _ => config.internalMaxKeys / 2

/-- Every node has as many keys as it should; one may lack a key. -/
def Filled (config : BPlusTreeConfig) (hole : Option PageId) : List (List Inner) → Prop
  | [] => True
  | level :: above =>
    (∀ g ∈ level, g.rest.length ≤ config.internalMaxKeys ∧
      minKeys config above ≤ g.rest.length + if hole = some g.id then 1 else 0) ∧ Filled config hole above

structure Upper (tree : BPlusTree) (s : Store) (hole : Option PageId) (levels : List (List Inner)) (items : List Item) :
    Prop where
  accepted : tree.config.Accepted
  header : s tree.metadata = some (.header tree.root tree.config)
  tower : Tower s tree.root levels items
  ids : (items.map Prod.snd ++ innerIds levels).Nodup
  valid : ∀ id ∈ innerIds levels, id.isValid = true
  filled : Filled tree.config hole levels

/-- What a repair of the levels leaves alone: the items below keep all but their parents. -/
structure Repaired (tree tree' : BPlusTree) (s s' : Store) (lower : List PageId) (levels levels' : List (List Inner)) : Prop where
  metadata : tree'.metadata = tree.metadata
  config : tree'.config = tree.config
  children : ∀ id ∈ lower, ∀ node, s id = some (.node node) → ∃ parent, s' id = some (.node { node with parent := parent })
  kept : ∀ id, s id ≠ none → id ≠ tree.metadata → id ∉ lower → id ∉ innerIds levels → s' id = s id
  there : ∀ id, s id ≠ none → s' id ≠ none
  fresh : ∀ id ∈ innerIds levels', id ∈ innerIds levels ∨ s id = none
  raw : ∀ id page, s' id = some (.raw page) ↔ s id = some (.raw page)

variable {tree : BPlusTree} {s s' : Store} {hole : Option PageId} {level : List Inner} {above levels : List (List Inner)}
  {items xs ys : List Item} {key : KeyType} {child : PageId}

theorem HasParent.ne_none {id parent : PageId} (h : HasParent s id parent) : s id ≠ none := by
  obtain ⟨node, hnode, -⟩ := h
  simp [hnode]

theorem InnerAt.ne_none {g : Inner} (h : InnerAt s g) : s g.id ≠ none := by
  obtain ⟨parent, hnode⟩ := h.node
  simp [hnode]

theorem innerIds_cons (level : List Inner) (above : List (List Inner)) :
    innerIds (level :: above) = level.map Group.id ++ innerIds above := List.flatMap_cons

theorem mem_innerIds {g : Inner} (hg : g ∈ level) : g.id ∈ innerIds (level :: above) := by
  rw [innerIds_cons]
  exact List.mem_append_left _ (List.mem_map_of_mem hg)

theorem mem_innerIds_above {id : PageId} (hid : id ∈ innerIds above) : id ∈ innerIds (level :: above) := by
  rw [innerIds_cons]
  exact List.mem_append_right _ hid

theorem item_ids (level : List Inner) : (level.map Group.item).map Prod.snd = level.map Group.id := by
  rw [List.map_map]
  rfl

theorem Tower.items_node (h : Tower s tree.root levels items) {id : PageId} (hid : id ∈ items.map Prod.snd) :
    ∃ parent, HasParent s id parent := by
  cases levels with
  | nil =>
    obtain ⟨⟨key, rfl⟩, hroot⟩ := h
    obtain rfl : id = tree.root := by simpa using hid
    exact ⟨_, hroot⟩
  | cons level above =>
    obtain ⟨rfl, hlevel, -⟩ := h
    obtain ⟨item, hitem, rfl⟩ := List.mem_map.mp hid
    obtain ⟨g, hg, hitem⟩ := List.mem_flatMap.mp hitem
    exact ⟨_, (hlevel g hg).children _ (List.mem_map_of_mem hitem)⟩

theorem Tower.inner_node (h : Tower s tree.root levels items) {id : PageId} (hid : id ∈ innerIds levels) :
    ∃ parent, HasParent s id parent := by
  induction levels generalizing items with
  | nil => simp [innerIds] at hid
  | cons level above ih =>
    rw [innerIds_cons, List.mem_append] at hid
    rcases hid with hid | hid
    · rw [← item_ids] at hid
      exact h.2.2.items_node hid
    · exact ih h.2.2 hid

namespace Upper

theorem above_ids (h : Upper tree s hole (level :: above) items) : (level.map Group.id ++ innerIds above).Nodup := by
  have hids := h.ids
  rw [innerIds_cons] at hids
  exact hids.of_append_right

theorem up (h : Upper tree s hole (level :: above) items) : Upper tree s hole above (level.map Group.item) where
  accepted := h.accepted
  header := h.header
  tower := h.tower.2.2
  ids := by rw [item_ids]; exact h.above_ids
  valid id hid := h.valid id (mem_innerIds_above hid)
  filled := h.filled.2

theorem items_ne_metadata (h : Upper tree s hole levels items) {p : PageId} (hid : p ∈ items.map Prod.snd) :
    p ≠ tree.metadata := by
  rintro rfl
  obtain ⟨parent, node, hnode, -⟩ := h.tower.items_node hid
  rw [h.header] at hnode
  cases hnode

theorem inner_ne_metadata (h : Upper tree s hole levels items) {id : PageId} (hid : id ∈ innerIds levels) :
    id ≠ tree.metadata := by
  rintro rfl
  obtain ⟨parent, node, hnode, -⟩ := h.tower.inner_node hid
  rw [h.header] at hnode
  cases hnode

end Upper

/-- The same levels in another store. -/
theorem Tower.congr {root : PageId} (h : Tower s root levels items) (hinner : ∀ id ∈ innerIds levels, s' id = s id)
    (hitems : ∀ id ∈ items.map Prod.snd, ∀ parent, HasParent s id parent → HasParent s' id parent) :
    Tower s' root levels items := by
  induction levels generalizing items with
  | nil =>
    obtain ⟨⟨key, rfl⟩, hroot⟩ := h
    exact ⟨⟨key, rfl⟩, hitems root (by simp) _ hroot⟩
  | cons level above ih =>
    obtain ⟨rfl, hlevel, habove⟩ := h
    rw [innerIds_cons] at hinner
    have hgroups : ∀ g ∈ level, s' g.id = s g.id := fun g hg =>
      hinner g.id (List.mem_append_left _ (List.mem_map_of_mem hg))
    refine ⟨rfl, fun g hg => ⟨?_, fun child hchild => ?_⟩, ih habove ?_ ?_⟩
    · rw [hgroups g hg]
      exact (hlevel g hg).node
    · obtain ⟨item, hitem, rfl⟩ := List.mem_map.mp hchild
      exact hitems _ (List.mem_map_of_mem (List.mem_flatMap.mpr ⟨g, hg, hitem⟩)) _ ((hlevel g hg).children _ hchild)
    · exact fun id hid => hinner id (List.mem_append_right _ hid)
    · intro id hid parent hparent
      obtain ⟨item, hitem, rfl⟩ := List.mem_map.mp hid
      obtain ⟨g, hg, rfl⟩ := List.mem_map.mp hitem
      obtain ⟨node, hnode, rfl⟩ := hparent
      exact ⟨node, (hgroups g hg).trans hnode, rfl⟩

/-- A level over which the rest is in order. -/
theorem Upper.cons (h : Upper tree s hole above (level.map Group.item)) (hitems : level.flatMap Group.items = items)
    (hlevel : ∀ g ∈ level, InnerAt s g) (hnodup : (items.map Prod.snd).Nodup)
    (hdisjoint : ∀ id ∈ items.map Prod.snd, id ∉ level.map Group.id ++ innerIds above)
    (hvalid : ∀ g ∈ level, g.id.isValid = true)
    (hfilled : ∀ g ∈ level, g.rest.length ≤ tree.config.internalMaxKeys ∧
      minKeys tree.config above ≤ g.rest.length + if hole = some g.id then 1 else 0) :
    Upper tree s hole (level :: above) items where
  accepted := h.accepted
  header := h.header
  tower := ⟨hitems, hlevel, h.tower⟩
  ids := by
    have hids := h.ids
    rw [item_ids] at hids
    rw [innerIds_cons, List.nodup_append]
    exact ⟨hnodup, hids, fun a ha b hb heq => hdisjoint a ha (heq ▸ hb)⟩
  valid id hid := by
    rw [innerIds_cons, List.mem_append] at hid
    rcases hid with hid | hid
    · obtain ⟨g, hg, rfl⟩ := List.mem_map.mp hid
      exact hvalid g hg
    · exact h.valid id hid
  filled := ⟨hfilled, h.filled⟩

/-- The parent of an item, as the code finds it. -/
structure Located (s : Store) (level : List Inner) (xs ys : List Item) (key : KeyType) (child : PageId) (before : List Inner)
    (g : Inner) (after : List Inner) (ps qs : List Item) : Prop where
  level : level = before ++ g :: after
  items : g.items = ps ++ (key, child) :: qs
  left : xs = before.flatMap Group.items ++ ps
  right : ys = qs ++ after.flatMap Group.items
  inner : InnerAt s g
  index : g.children.idxOf child = ps.length
  valid : g.id.isValid = true

theorem idxOf_children {ps qs : List Item} (hnodup : ((ps ++ (key, child) :: qs).map Prod.snd).Nodup) :
    ((ps ++ (key, child) :: qs).map Prod.snd).idxOf child = ps.length := by
  rw [List.map_append, List.map_cons] at hnodup ⊢
  rw [List.idxOf_append_of_notMem, List.idxOf_cons_self, List.length_map, Nat.add_zero]
  intro hmem
  exact (List.nodup_middle.mp hnodup |> List.nodup_cons.mp).1 (List.mem_append_left _ hmem)

theorem Upper.located (h : Upper tree s hole (level :: above) (xs ++ (key, child) :: ys)) :
    ∃ before g after ps qs, Located s level xs ys key child before g after ps qs := by
  obtain ⟨before, g, after, ps, qs, rfl, hitems, rfl, rfl⟩ := Group.exists_of_flatMap h.tower.1
  have hnodup := h.ids.of_append_left
  refine ⟨before, g, after, ps, qs, rfl, hitems, rfl, rfl, h.tower.2.1 g (by simp), ?_, h.valid g.id (by simp [innerIds_cons])⟩
  rw [Group.children, hitems]
  apply idxOf_children
  refine hnodup.sublist ?_
  simp only [List.append_assoc, List.map_append, List.map_cons]
  refine List.Sublist.trans ?_ (List.sublist_append_right _ _)
  exact List.Sublist.append_left ((List.sublist_append_left _ _).cons_cons _) _

/-- One node of the lowest level gets another content, and keeps its first key. -/
theorem Upper.replace {before after : List Inner} {g g' : Inner} (h : Upper tree s hole ((before ++ g :: after) :: above) items)
    (hid : g'.id = g.id) (hkey : g'.head.1 = g.head.1)
    (hnode : ∃ parent, s g.id = some (.node (Inner.node g parent)) ∧ s' g.id = some (.node (Inner.node g' parent)))
    (hsame : ∀ id ∈ tree.metadata :: innerIds ((before ++ g :: after) :: above), id ≠ g.id → s' id = s id)
    (hothers : ∀ other ∈ before ++ after, ∀ child ∈ other.children, HasParent s child other.id → HasParent s' child other.id)
    (hchildren : ∀ child ∈ g'.children, HasParent s' child g.id)
    (hnodup : (((before ++ g' :: after).flatMap Group.items).map Prod.snd).Nodup)
    (hdisjoint : ∀ id ∈ g'.children, id ∉ innerIds ((before ++ g :: after) :: above))
    (hsize : g'.rest.length ≤ tree.config.internalMaxKeys ∧
      minKeys tree.config above ≤ g'.rest.length + if hole = some g.id then 1 else 0) :
    Upper tree s' hole ((before ++ g' :: after) :: above) ((before ++ g' :: after).flatMap Group.items) := by
  have hids := h.above_ids
  have hlevelIds : (before ++ g' :: after).map Group.id = (before ++ g :: after).map Group.id := by simp [hid]
  have hlevelItems : (before ++ g' :: after).map Group.item = (before ++ g :: after).map Group.item := by
    simp [Group.item, hid, hkey]
  have hmeta : tree.metadata ≠ g.id := (h.inner_ne_metadata (by simp [innerIds_cons])).symm
  have hne : ∀ other ∈ before ++ after, other.id ≠ g.id := by
    intro other hother heq
    rw [List.map_append, List.map_cons] at hids
    have hmid := List.nodup_cons.mp (List.nodup_middle.mp hids.of_append_left)
    rw [← List.map_append] at hmid
    exact hmid.1 (heq ▸ List.mem_map_of_mem hother)
  have hgroups : ∀ other ∈ before ++ g' :: after, other = g' ∨ other ∈ before ++ after := fun _ => mem_middle.mp
  have hin : ∀ other ∈ before ++ after, other ∈ before ++ g :: after := fun _ hother => mem_middle.mpr (.inr hother)
  obtain ⟨parent, hold, hnew⟩ := hnode
  have hup : Upper tree s' hole above ((before ++ g' :: after).map Group.item) := by
    rw [hlevelItems]
    refine ⟨h.accepted, ?_, ?_, h.up.ids, h.up.valid, h.filled.2⟩
    · rw [hsame _ List.mem_cons_self hmeta]
      exact h.header
    · refine h.up.tower.congr (fun id hid => hsame id ?_ ?_) fun id hid p hp => ?_
      · simp [innerIds_cons, hid]
      · rintro rfl
        exact (List.nodup_append.mp hids).2.2 g.id (by simp) g.id hid rfl
      · by_cases heq : id = g.id
        · subst heq
          obtain ⟨node, hnode, rfl⟩ := hp
          obtain rfl := Cell.node.inj (Option.some.inj (hold.symm.trans hnode))
          exact ⟨_, hnew, rfl⟩
        · obtain ⟨node, hnode, rfl⟩ := hp
          rw [item_ids] at hid
          obtain ⟨other, hother, rfl⟩ := List.mem_map.mp hid
          exact ⟨node, (hsame _ (List.mem_cons_of_mem _ (mem_innerIds hother)) heq).trans hnode, rfl⟩
  refine hup.cons rfl (fun other hother => ?_) hnodup ?_ (fun other hother => ?_) fun other hother => ?_
  · rcases hgroups other hother with rfl | hother
    · exact ⟨⟨parent, by rw [hid]; exact hnew⟩, fun child hchild => hid ▸ hchildren child hchild⟩
    · have hold := h.tower.2.1 other (hin other hother)
      refine ⟨?_, fun child hchild => hothers other hother child hchild (hold.children child hchild)⟩
      rw [hsame other.id (List.mem_cons_of_mem _ (mem_innerIds (hin other hother))) (hne other hother)]
      exact hold.node
  · intro id hmem
    rw [hlevelIds, ← innerIds_cons]
    obtain ⟨item, hflat, rfl⟩ := List.mem_map.mp hmem
    obtain ⟨other, hother, hitem⟩ := List.mem_flatMap.mp hflat
    rcases hgroups other hother with rfl | hother
    · exact hdisjoint _ (List.mem_map_of_mem hitem)
    · have hflat : item ∈ items := by
        rw [← h.tower.1]
        exact List.mem_flatMap.mpr ⟨other, hin other hother, hitem⟩
      exact fun hinner => (List.nodup_append.mp h.ids).2.2 item.2 (List.mem_map_of_mem hflat) item.2 hinner rfl
  · rcases hgroups other hother with rfl | hother
    · rw [hid]
      exact h.valid g.id (by simp [innerIds_cons])
    · exact h.valid other.id (mem_innerIds (hin other hother))
  · rcases hgroups other hother with rfl | hother
    · rw [hid]
      exact hsize
    · exact h.filled.1 other (hin other hother)

/-! ## What a repair leaves alone -/

section Repairs

variable {tree' : BPlusTree} {s₁ : Store} {lower upper : List PageId} {levels' above' : List (List Inner)} {id : PageId} {node : Node}

theorem repaired_refl (tree : BPlusTree) (s : Store) (lower : List PageId) (levels : List (List Inner)) :
    Repaired tree tree s s lower levels levels :=
  ⟨rfl, rfl, fun _ _ node hnode => ⟨node.parent, hnode⟩, fun _ _ _ _ _ => rfl, fun _ h => h, fun _ h => .inl h, fun _ _ => Iff.rfl⟩

theorem Repaired.trans {tree₁ : BPlusTree} {levels₁ : List (List Inner)} (h₁ : Repaired tree tree₁ s s₁ lower levels levels₁)
    (h₂ : Repaired tree₁ tree' s₁ s' lower levels₁ levels') : Repaired tree tree' s s' lower levels levels' where
  metadata := h₂.metadata.trans h₁.metadata
  config := h₂.config.trans h₁.config
  children id hid node hnode := by
    obtain ⟨parent, hnode₁⟩ := h₁.children id hid node hnode
    obtain ⟨parent', hnode₂⟩ := h₂.children id hid _ hnode₁
    exact ⟨parent', hnode₂⟩
  kept id hthere hmeta hlower hinner := by
    have hinner₁ : id ∉ innerIds levels₁ := fun hin => (h₁.fresh id hin).elim hinner hthere
    rw [h₂.kept id (h₁.there id hthere) (h₁.metadata ▸ hmeta) hlower hinner₁, h₁.kept id hthere hmeta hlower hinner]
  there id hthere := h₂.there id (h₁.there id hthere)
  fresh id hid := by
    rcases h₂.fresh id hid with hin | hfree
    · exact h₁.fresh id hin
    · right
      by_contra hthere
      exact h₁.there id hthere hfree
  raw id page := (h₂.raw id page).trans (h₁.raw id page)

/-- A repair of the level, and then one of the levels above it. -/
theorem Repaired.climb (h₁ : Repaired tree tree s s₁ lower levels levels) (h₂ : Repaired tree tree' s₁ s' upper above above')
    (hupper : ∀ id ∈ upper, id ∈ innerIds levels ∨ s id = none) (habove : ∀ id ∈ innerIds above, id ∈ innerIds levels)
    (hlower : ∀ id ∈ lower, id ∉ innerIds levels ∧ s id ≠ none ∧ id ≠ tree.metadata)
    (hfresh : ∀ id ∈ innerIds levels', id ∈ upper ∨ id ∈ innerIds above' ∨ id ∈ innerIds levels) :
    Repaired tree tree' s s' lower levels levels' where
  metadata := h₂.metadata
  config := h₂.config
  children id hid node hnode := by
    obtain ⟨hinner, hthere, hmeta⟩ := hlower id hid
    have hup : id ∉ upper := fun hin => (hupper id hin).elim hinner hthere
    obtain ⟨parent, hnode₁⟩ := h₁.children id hid node hnode
    exact ⟨parent, by rw [h₂.kept id (h₁.there id hthere) hmeta hup fun hin => hinner (habove id hin), hnode₁]⟩
  kept id hthere hmeta hnot hinner := by
    have hup : id ∉ upper := fun hin => (hupper id hin).elim hinner hthere
    rw [h₂.kept id (h₁.there id hthere) hmeta hup fun hin => hinner (habove id hin), h₁.kept id hthere hmeta hnot hinner]
  there id hthere := h₂.there id (h₁.there id hthere)
  fresh id hid := by
    rcases hfresh id hid with hid | hid | hid
    · exact hupper id hid
    · refine (h₂.fresh id hid).imp (habove id) fun hfree => ?_
      by_contra hthere
      exact h₁.there id hthere hfree
    · exact .inl hid
  raw id page := (h₂.raw id page).trans (h₁.raw id page)

/-- Another list of levels over the same nodes and new ones. -/
theorem Repaired.regroup (h : Repaired tree tree' s s' lower levels levels)
    (hids : ∀ id ∈ innerIds levels', id ∈ innerIds levels ∨ s id = none) : Repaired tree tree' s s' lower levels levels' :=
  ⟨h.metadata, h.config, h.children, h.kept, h.there, hids, h.raw⟩

theorem Repaired.of_mem {lower' : List PageId} (h : Repaired tree tree' s s' lower levels levels')
    (hlower : ∀ id, id ∈ lower' ↔ id ∈ lower) : Repaired tree tree' s s' lower' levels levels' :=
  ⟨h.metadata, h.config, fun id hid => h.children id ((hlower id).mp hid),
    fun id hthere hmeta hnot => h.kept id hthere hmeta fun hin => hnot ((hlower id).mpr hin), h.there, h.fresh, h.raw⟩

/-- One node is written. -/
theorem repaired_write (hid : id ∈ innerIds levels ∨ s id = none) (hlower : id ∉ lower) (hraw : ∀ page, s id ≠ some (.raw page)) :
    Repaired tree tree s (s.write id node) lower levels levels := by
  have hother : ∀ other, other ≠ id → s.write id node other = s other := fun other hne => Store.write_of_ne hne _
  refine ⟨rfl, rfl, fun other hin content hcontent => ⟨content.parent, ?_⟩, fun other hthere _ _ hinner => ?_, fun other hthere => ?_,
    fun _ h => .inl h, fun other page => ?_⟩
  · rw [hother other fun heq => hlower (heq ▸ hin)]
    exact hcontent
  · refine hother other fun heq => ?_
    subst heq
    exact hid.elim hinner hthere
  · by_cases heq : other = id
    · simp [heq]
    · rwa [hother other heq]
  · by_cases heq : other = id
    · subst heq
      simp [hraw page]
    · rw [hother other heq]

theorem repaired_reparent {parent : PageId} {children : List PageId} (hchildren : ∀ child ∈ children, child ∈ lower) :
    Repaired tree tree s (s.reparent parent children) lower levels levels := by
  refine ⟨rfl, rfl, fun id _ node hnode => ?_, fun id _ _ hlower _ => ?_, fun id hthere => ?_, fun _ h => .inl h, fun id page => ?_⟩
  · by_cases hin : id ∈ children
    · exact ⟨parent, by rw [Store.reparent_of_mem hin, hnode]; rfl⟩
    · exact ⟨node.parent, by rw [Store.reparent_of_not_mem hin]; exact hnode⟩
  · exact Store.reparent_of_not_mem fun hin => hlower (hchildren id hin)
  · by_cases hin : id ∈ children
    · rw [Store.reparent_of_mem hin]
      simpa using hthere
    · rwa [Store.reparent_of_not_mem hin]
  · by_cases hin : id ∈ children
    · rw [Store.reparent_of_mem hin]
      cases hcell : s id with
      | none => simp
      | some cell => cases cell <;> simp [Cell.withParent]
    · rw [Store.reparent_of_not_mem hin]

theorem repaired_setRoot {root root' : PageId} {config : BPlusTreeConfig} (hheader : s tree.metadata = some (.header root config))
    (hlower : tree.metadata ∉ lower) :
    Repaired tree { tree with root := root' } s (s.writeHeader tree.metadata root' tree.config) lower levels levels := by
  have hother : ∀ other, other ≠ tree.metadata → s.writeHeader tree.metadata root' tree.config other = s other :=
    fun other hne => Store.writeHeader_of_ne hne
  refine ⟨rfl, rfl, fun id hid node hnode => ⟨node.parent, ?_⟩, fun id _ hmeta _ _ => hother id hmeta, fun id hthere => ?_,
    fun _ h => .inl h, fun id page => ?_⟩
  · rw [hother id fun heq => hlower (heq ▸ hid)]
    exact hnode
  · by_cases heq : id = tree.metadata
    · simp [heq]
    · rwa [hother id heq]
  · by_cases heq : id = tree.metadata
    · subst heq
      simp [hheader]
    · rw [hother id heq]

/-- A repair above a node keeps it, up to its own parent. -/
theorem InnerAt.repaired {g : Inner} (h : InnerAt s g) (hrep : Repaired tree tree' s s' lower above above') (hg : g.id ∈ lower)
    (hchildren : ∀ child ∈ g.children, child ≠ tree.metadata ∧ child ∉ lower ∧ child ∉ innerIds above) : InnerAt s' g := by
  refine ⟨?_, fun child hchild => ?_⟩
  · obtain ⟨parent, hnode⟩ := h.node
    obtain ⟨parent', hnode'⟩ := hrep.children g.id hg _ hnode
    exact ⟨parent', hnode'⟩
  · obtain ⟨hmeta, hlower, hinner⟩ := hchildren child hchild
    have hparent := h.children child hchild
    obtain ⟨node, hnode, hup⟩ := hparent
    exact ⟨node, by rw [hrep.kept child (by simp [hnode]) hmeta hlower hinner]; exact hnode, hup⟩

end Repairs

namespace Upper

variable {tree' : BPlusTree} {levels' above' : List (List Inner)}

/-- An item is in no level, and a node of the tree. -/
theorem items_apart (h : Upper tree s hole levels items) {p : PageId} (hid : p ∈ items.map Prod.snd) :
    p ∉ innerIds levels ∧ s p ≠ none ∧ p ≠ tree.metadata := by
  refine ⟨fun hinner => (List.nodup_append.mp h.ids).2.2 p hid p hinner rfl, ?_, h.items_ne_metadata hid⟩
  obtain ⟨parent, hparent⟩ := h.tower.items_node hid
  exact hparent.ne_none

theorem child_mem (h : Upper tree s hole (level :: above) items) {g : Inner} (hg : g ∈ level) {child : PageId}
    (hchild : child ∈ g.children) : child ∈ items.map Prod.snd := by
  obtain ⟨item, hitem, rfl⟩ := List.mem_map.mp hchild
  rw [← h.tower.1]
  exact List.mem_map_of_mem (List.mem_flatMap.mpr ⟨g, hg, hitem⟩)

/-- A repair above the level keeps its nodes. -/
theorem inner_of_repaired (h : Upper tree s hole (level :: above) items)
    (hrep : Repaired tree tree' s s' ((level.map Group.item).map Prod.snd) above above') {g : Inner} (hg : g ∈ level) :
    InnerAt s' g := by
  refine (h.tower.2.1 g hg).repaired hrep (by rw [item_ids]; exact List.mem_map_of_mem hg) fun child hchild => ?_
  obtain ⟨hinner, -, hmeta⟩ := h.items_apart (h.child_mem hg hchild)
  rw [innerIds_cons, List.mem_append, not_or] at hinner
  exact ⟨hmeta, by rw [item_ids]; exact hinner.1, hinner.2⟩

end Upper

/-! ## Separators -/

theorem minKeys_congr {config : BPlusTreeConfig} {above above' : List (List Inner)} (h : above'.length = above.length) :
    minKeys config above' = minKeys config above := by
  cases above <;> cases above' <;> simp_all [minKeys]

theorem innerIds_congr {levels levels' : List (List Inner)} (h : levels'.map (List.map Group.id) = levels.map (List.map Group.id)) :
    innerIds levels' = innerIds levels := by
  rw [innerIds, innerIds, List.flatMap_def, List.flatMap_def, h]

/-- The node with another key for its first item, which it does not hold. -/
def Inner.withFirst (g : Inner) (first : KeyType) : Inner := ⟨g.id, (first, g.head.2), g.rest⟩

/-- A change of the first key of a node shows only above it. -/
theorem Upper.rekey {before after : List Inner} {g : Inner} {above' : List (List Inner)} {first : KeyType}
    (h : Upper tree s hole ((before ++ g :: after) :: above) items)
    (hrep : Repaired tree tree s s' (((before ++ g :: after).map Group.item).map Prod.snd) above above')
    (habove : Upper tree s' hole above' (before.map Group.item ++ (first, g.id) :: after.map Group.item))
    (hids : above'.map (List.map Group.id) = above.map (List.map Group.id)) :
    Upper tree s' hole ((before ++ g.withFirst first :: after) :: above')
      (before.flatMap Group.items ++ (first, g.head.2) :: (g.rest ++ after.flatMap Group.items)) := by
  have hlength : above'.length = above.length := by simpa using congrArg List.length hids
  have hgroups : ∀ g' ∈ before ++ g.withFirst first :: after, ∃ old ∈ before ++ g :: after,
      g'.id = old.id ∧ g'.rest = old.rest ∧ g'.children = old.children := by
    intro g' hg'
    simp only [List.mem_append, List.mem_cons] at hg'
    rcases hg' with hg' | rfl | hg'
    · exact ⟨g', by simp [hg'], rfl, rfl, rfl⟩
    · exact ⟨g, by simp, rfl, rfl, rfl⟩
    · exact ⟨g', by simp [hg'], rfl, rfl, rfl⟩
  have hitemIds : (before.flatMap Group.items ++ (first, g.head.2) :: (g.rest ++ after.flatMap Group.items)).map Prod.snd =
      items.map Prod.snd := by
    rw [← h.tower.1]
    simp [Group.items]
  refine Upper.cons (by simpa [Group.item, Inner.withFirst] using habove) (by simp [Group.items, Inner.withFirst]) ?_ ?_ ?_ ?_ ?_
  · intro g' hg'
    obtain ⟨old, hold, hid, hrest, hchildren⟩ := hgroups g' hg'
    obtain ⟨hnode, hkids⟩ := h.inner_of_repaired hrep hold
    have hsame : Inner.node g' = Inner.node old := by
      funext p
      simp only [Inner.node, Group.keys, hrest, hchildren]
    exact ⟨by rw [hid, hsame]; exact hnode, fun c hc => by rw [hid]; exact hkids c (hchildren ▸ hc)⟩
  · rw [hitemIds]
    exact h.ids.of_append_left
  · rw [hitemIds, innerIds_congr hids]
    intro c hc
    have hapart := (h.items_apart hc).1
    rw [innerIds_cons] at hapart
    simpa [Inner.withFirst] using hapart
  · intro g' hg'
    obtain ⟨old, hold, hid, -, -⟩ := hgroups g' hg'
    rw [hid]
    exact h.valid old.id (mem_innerIds hold)
  · intro g' hg'
    obtain ⟨old, hold, hid, hrest, -⟩ := hgroups g' hg'
    rw [hid, hrest, minKeys_congr hlength]
    exact h.filled.1 old hold

theorem Upper.climb_refl {above' : List (List Inner)} {level' : List Inner} {tree' : BPlusTree}
    (h : Upper tree s hole (level :: above) items)
    (hrep : Repaired tree tree' s s' ((level.map Group.item).map Prod.snd) above above')
    (hids : level'.map Group.id = level.map Group.id) :
    Repaired tree tree' s s' (items.map Prod.snd) (level :: above) (level' :: above') := by
  refine Repaired.climb (repaired_refl _ _ _ _) hrep ?_ (fun id hid => mem_innerIds_above hid) (fun c hc => h.items_apart hc) ?_
  · intro c hc
    rw [item_ids] at hc
    obtain ⟨g, hg, rfl⟩ := List.mem_map.mp hc
    exact .inl (mem_innerIds hg)
  · intro c hc
    rw [innerIds_cons, List.mem_append, hids] at hc
    rw [item_ids]
    exact hc.imp id .inl

theorem does_writeInner {Q : Unit → BPlusTree → Store → Prop} {p : PageId} {node : Node} (g : Inner)
    (parent : PageId) (haccepted : tree.config.Accepted) (hthere : s p ≠ none) (hnode : node = Inner.node g parent)
    (hsize : g.rest.length ≤ tree.config.internalMaxKeys)
    (h : Q () tree (s.write p (Inner.node g parent))) : (BPlusTree.writeNode p node).Does tree s Q := by
  subst hnode
  refine does_writeNode haccepted hthere ⟨?_, ?_⟩ h
  · simpa [Inner.node, Group.keys, BPlusTreeConfig.maxKeys] using hsize
  · simp [Inner.node, Group.children_length]

/-- The key of an item is changed. -/
theorem does_updateParentSeparator (h : Upper tree s hole levels (xs ++ (key, child) :: ys)) (first : KeyType) {fuel : Nat}
    (hfuel : levels.length < fuel) :
    (BPlusTree.updateParentSeparator fuel child first).Does tree s fun _ tree' s' => tree' = tree ∧
      ∃ levels', Upper tree s' hole levels' (xs ++ (first, child) :: ys) ∧
        Repaired tree tree s s' ((xs ++ (key, child) :: ys).map Prod.snd) levels levels' ∧
        levels'.map (List.map Group.id) = levels.map (List.map Group.id) := by
  induction levels generalizing fuel xs ys key child with
  | nil =>
    obtain ⟨fuel, rfl⟩ := Nat.exists_eq_add_one_of_ne_zero (Nat.ne_of_gt hfuel)
    obtain ⟨⟨key', hitems⟩, node, hnode, hparent⟩ := h.tower
    obtain ⟨rfl, hitem, rfl⟩ : xs = [] ∧ (key, child) = (key', tree.root) ∧ ys = [] := by
      cases xs with
      | nil => simpa using hitems
      | cons x xs => simp at hitems
    obtain ⟨rfl, rfl⟩ := Prod.mk.inj hitem
    rw [BPlusTree.updateParentSeparator]
    apply does_bind
    refine does_readNode hnode fun _ => ?_
    rw [if_pos (by rw [hparent]; rfl)]
    refine does_pure ⟨rfl, [], ⟨h.accepted, h.header, ⟨⟨first, rfl⟩, h.tower.2⟩, h.ids, h.valid, trivial⟩, ?_, rfl⟩
    exact repaired_refl _ _ _ _
  | cons level above ih =>
    obtain ⟨fuel, rfl⟩ := Nat.exists_eq_add_one_of_ne_zero (Nat.ne_of_gt (Nat.zero_lt_of_lt hfuel))
    obtain ⟨before, g, after, ps, qs, rfl, hitems, rfl, rfl, hinner, hindex, hvalid⟩ := h.located
    obtain ⟨parent, hg⟩ := hinner.node
    have hchild : child ∈ g.children := by rw [Group.children, hitems]; simp
    obtain ⟨node, hnode, hparent⟩ := hinner.children child hchild
    have hindex : (Inner.node g parent).children.idxOf child = ps.length := hindex
    have hne : ps.length ≠ (Inner.node g parent).children.length := by
      change ps.length ≠ (g.items.map Prod.snd).length
      rw [hitems]
      simp
    rw [BPlusTree.updateParentSeparator]
    apply does_bind
    refine does_readNode hnode fun _ => ?_
    rw [hparent, if_neg (by simp [hvalid])]
    apply does_bind
    refine does_readNode hg fun hsized => ?_
    dsimp only
    rw [hindex, if_neg hne]
    cases ps with
    | nil =>
      -- The item is the first of its node, which does not hold the key: it is in a node further up.
      obtain ⟨hhead, hrest⟩ := List.cons.inj hitems
      rw [if_neg (by simp)]
      have hup := h.up
      rw [List.map_append, List.map_cons] at hup
      refine (ih hup (Nat.lt_of_succ_lt_succ hfuel)).mono ?_
      rintro _ tree' s' ⟨rfl, above', habove, hrep, hids⟩
      have hrep : Repaired tree' tree' s s' (((before ++ g :: after).map Group.item).map Prod.snd) above above' := by
        simpa [Group.item] using hrep
      refine ⟨rfl, (before ++ g.withFirst first :: after) :: above', ?_, h.climb_refl hrep ?_, ?_⟩
      · have hrekey := h.rekey hrep habove hids
        rw [hrest, hhead] at hrekey
        simpa using hrekey
      · simp [Inner.withFirst]
      · simp [Inner.withFirst, hids]
    | cons head ps =>
      obtain ⟨hhead, hrest⟩ := List.cons.inj hitems
      obtain ⟨g', hg'⟩ : ∃ g' : Inner, g' = ⟨g.id, g.head, ps ++ (first, child) :: qs⟩ := ⟨_, rfl⟩
      have hsize : g'.rest.length = g.rest.length := by simp [hg', hrest]
      have hchildren : g'.children = g.children := by simp [hg', Group.children, Group.items, hrest]
      have hflat : (before ++ g' :: after).flatMap Group.items =
          before.flatMap Group.items ++ (head :: ps) ++ (first, child) :: (qs ++ after.flatMap Group.items) := by
        simp [hg', Group.items, hhead]
      rw [if_pos (by simp)]
      apply does_bind
      refine does_setAt (by simp [Inner.node, Group.keys, hrest]) ?_
      refine does_writeInner g' parent h.accepted hinner.ne_none ?_ (hsize ▸ (h.filled.1 g (by simp)).1)
        ⟨rfl, (before ++ g' :: after) :: above, ?_, ?_, ?_⟩
      · simp [Inner.node, hg', Group.keys, Group.children, Group.items, hrest]
      · have hchildNe : ∀ other ∈ before ++ g :: after, ∀ c ∈ other.children, c ≠ g.id := fun other hother c hc heq =>
          (h.items_apart (h.child_mem hother hc)).1 (heq ▸ mem_innerIds (by simp))
        have hkept : ∀ other ∈ before ++ g :: after, ∀ c ∈ other.children,
            HasParent (s.write g.id (Inner.node g' parent)) c other.id := by
          intro other hother c hc
          obtain ⟨node, hnode, hparent⟩ := (h.tower.2.1 other hother).children c hc
          exact ⟨node, by rw [Store.write_of_ne (hchildNe other hother c hc)]; exact hnode, hparent⟩
        rw [← hflat]
        refine h.replace (by simp [hg']) (by simp [hg']) ⟨parent, hg, Store.write_self _ _ _⟩
          (fun other _ hne => Store.write_of_ne hne _) ?_ ?_ ?_ ?_ ?_
        · intro other hother c hc _
          exact hkept other (mem_middle.mpr (.inr hother)) c hc
        · exact fun c hc => hkept g (by simp) c (hchildren ▸ hc)
        · rw [hflat]
          simpa using h.ids.of_append_left
        · exact fun c hc => (h.items_apart (h.child_mem (by simp) (hchildren ▸ hc))).1
        · rw [hsize]
          exact h.filled.1 g (by simp)
      · refine Repaired.regroup (repaired_write (.inl (mem_innerIds (by simp))) ?_ (by simp [hg])) ?_
        · exact fun hin => (h.items_apart hin).1 (mem_innerIds (by simp))
        · exact fun c hc => .inl (by simpa [innerIds_cons, hg'] using hc)
      · simp [hg']

end Ddb.Index
